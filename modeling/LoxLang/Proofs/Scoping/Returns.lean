import LoxLang.Proofs.Matching.Pass

/-!
Where `return` stands. The scope pass counts the functions around each place; in a program that it accepts,
every `return` has one around it.
-/
namespace LoxLang

mutual

def Stmt.KeepsReturns : Stmt → Prop
  | .block _ body => Stmt.AllKeepReturns body
  | .branch _ _ thenBranch none => thenBranch.KeepsReturns
  | .branch _ _ thenBranch (some elseBranch) => thenBranch.KeepsReturns ∧ elseBranch.KeepsReturns
  | .loop _ _ body => body.KeepsReturns
  | .result _ _ => False
  | _ => True

def Stmt.AllKeepReturns : List Stmt → Prop
  | [] => True
  | s :: ss => s.KeepsReturns ∧ Stmt.AllKeepReturns ss

end

theorem Stmt.keepsReturns_of_mem {s : Stmt} {ss : List Stmt} (h : Stmt.AllKeepReturns ss) (hs : s ∈ ss) :
    s.KeepsReturns := by
  induction ss with
  | nil => cases hs
  | cons t ss ih =>
    rcases List.mem_cons.mp hs with rfl | hs
    · exact h.1
    · exact ih h.2 hs

namespace Scoping

mutual

/-- Outside all functions a `return` adds a fault, and no fault is ever taken back. -/
theorem stmt_keepsReturns : (s : Stmt) → {p : Pass} → p.functionDepth = 0 →
    (stmt s p).faults.size ≤ p.faults.size → s.KeepsReturns
  | .expression _ _, _, _, _ | .print _ _, _, _, _ | .var _ _ _, _, _, _
  | .function _ _ _ _, _, _, _ => trivial
  | .block _ body, p, hdepth, h => stmts_keepReturns body (p := p.opened) hdepth h
  | .branch _ condition thenBranch none, p, hdepth, h =>
    stmt_keepsReturns thenBranch ((expr_functionDepth condition p).trans hdepth)
      (by rw [expr_faults]; exact h)
  | .branch _ condition thenBranch (some elseBranch), p, hdepth, h => by
    have hcondition := (expr_functionDepth condition p).trans hdepth
    have hthen := (stmt_functionDepth thenBranch (expr condition p)).trans hcondition
    have hgrow := le_faults_stmt thenBranch (expr condition p)
    rw [expr_faults] at hgrow
    refine ⟨stmt_keepsReturns thenBranch hcondition ?_,
      stmt_keepsReturns elseBranch hthen (Nat.le_trans h hgrow)⟩
    rw [expr_faults]
    exact Nat.le_trans (le_faults_stmt elseBranch _) h
  | .loop _ condition body, p, hdepth, h =>
    stmt_keepsReturns body ((expr_functionDepth condition p).trans hdepth)
      (by rw [expr_faults]; exact h)
  | .result line value, p, hdepth, h => by
    refine absurd h (Nat.not_le_of_lt ?_)
    cases value <;> simp [stmt, hdepth, expr_faults, Pass.fault]

theorem stmts_keepReturns : (ss : List Stmt) → {p : Pass} → p.functionDepth = 0 →
    (stmts ss p).faults.size ≤ p.faults.size → Stmt.AllKeepReturns ss
  | [], _, _, _ => trivial
  | s :: ss, p, hdepth, h =>
    ⟨stmt_keepsReturns s hdepth (Nat.le_trans (le_faults_stmts ss _) h),
      stmts_keepReturns ss ((stmt_functionDepth s p).trans hdepth)
        (Nat.le_trans h (le_faults_stmt s p))⟩

end

theorem allKeepReturns_of_distances {program : List Stmt} {T : Distances}
    (h : distances program = .ok T) : Stmt.AllKeepReturns program := by
  unfold distances at h
  dsimp only at h
  split at h
  · next hnone =>
    refine stmts_keepReturns program (p := .start) rfl ?_
    rw [Array.isEmpty_iff.mp hnone]
    exact Nat.zero_le _
  · cases h

end Scoping
end LoxLang
