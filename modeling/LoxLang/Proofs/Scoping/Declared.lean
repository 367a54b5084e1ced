import LoxLang.Proofs.Scoping.Table

/-!
Declarations of an accepted program. Whatever its ids are, they stand where scopes are, and no block and no
function declares a name twice.
-/
namespace LoxLang

def Anywhere : Layers → Name → NodeId → Prop := fun _ _ _ => True

section Anywhere
variable {ls : Layers}

mutual

theorem Expr.scoped_anywhere : (e : Expr) → e.Scoped Anywhere ls
  | .literal _ _ | .reference _ _ _ => trivial
  | .grouping _ inner => inner.scoped_anywhere
  | .unary _ _ operand => operand.scoped_anywhere
  | .binary _ _ left right | .logical _ _ left right => ⟨left.scoped_anywhere, right.scoped_anywhere⟩
  | .assign _ _ _ value => ⟨value.scoped_anywhere, trivial⟩
  | .call _ callee arguments => ⟨callee.scoped_anywhere, Expr.allScoped_anywhere arguments⟩

theorem Expr.allScoped_anywhere : (es : List Expr) → Expr.AllScoped Anywhere ls es
  | [] => trivial
  | e :: es => ⟨e.scoped_anywhere, Expr.allScoped_anywhere es⟩

end

end Anywhere

namespace Scoping

mutual

/-- Where the pass finds no fault, declarations stand where scopes are and repeat no name. -/
theorem stmt_anywhere : (s : Stmt) → {p : Pass} → {ls : Layers} → s.Placed → p.Agrees ls →
    Declares ls s.declares?.toList → (stmt s p).faults.size = 0 → s.Scoped Anywhere ls
  | .expression _ e, _, _, _, _, _, _ | .print _ e, _, _, _, _, _, _ => e.scoped_anywhere
  | .var line name none, p, ls, _, h, hd, hf => by
    have hf : (p.declare name line).faults.size = 0 := by simpa [stmt] using hf
    exact ⟨h.admits hd hf, nofun⟩
  | .var line name (some e), p, ls, _, h, hd, hf => by
    have hle := le_faults_initializer line name e (p.declare name line)
    have hf : (p.declare name line).faults.size = 0 := by
      simp only [stmt, Pass.complete_faults] at hf; omega
    exact ⟨h.admits hd hf, fun e _ => e.scoped_anywhere⟩
  | .block _ body, p, ls, hpl, h, _, hf =>
    stmts_anywhere body (p := p.opened) hpl (h.opened _) (fun l hl n hn => by cases hl; exact hn) hf
  | .branch _ condition thenBranch none, p, ls, hpl, h, _, hf =>
    ⟨condition.scoped_anywhere, hpl.1,
      stmt_anywhere thenBranch hpl.2 (h.expr condition) (by simp [Declares, hpl.1]) hf⟩
  | .branch _ condition thenBranch (some elseBranch), p, ls, hpl, h, _, hf => by
    have hle := le_faults_stmt elseBranch (stmt thenBranch (expr condition p))
    have ha := stmt_agrees thenBranch hpl.1.2 (h.expr condition)
    rw [Layers.after_of_declares?_eq_none ls hpl.1.1] at ha
    exact ⟨condition.scoped_anywhere,
      ⟨hpl.1.1, stmt_anywhere thenBranch hpl.1.2 (h.expr condition) (by simp [Declares, hpl.1.1])
        (by rw [stmt] at hf; omega)⟩,
      hpl.2.1, stmt_anywhere elseBranch hpl.2.2 ha (by simp [Declares, hpl.2.1]) hf⟩
  | .loop _ condition body, p, ls, hpl, h, _, hf =>
    ⟨condition.scoped_anywhere, hpl.1,
      stmt_anywhere body hpl.2 (h.expr condition) (by simp [Declares, hpl.1]) hf⟩
  | .function line name params body, p, ls, hpl, h, hd, hf => by
    let entered := ((p.declare name line).complete name).enterFunction
    have hlb := le_faults_stmts body (entered.parameters line params)
    have hlp := Pass.le_faults_parameters params line entered
    have hf : (stmts body (entered.parameters line params)).faults.size = 0 := hf
    have he : entered.faults = (p.declare name line).faults := Pass.complete_faults _ name
    have hfd : (p.declare name line).faults.size = 0 := by rw [he] at hlp; omega
    have ha : entered.Agrees (⟨[], params ++ Stmt.declaredNames body⟩ :: ls.reveal name) :=
      (h.reveal name line).opened _
    have hparams : (entered.parameters line params).faults.size = 0 := by omega
    refine ⟨h.admits hd hfd, (ha.nodup_parameters hparams).1, ?_⟩
    refine stmts_anywhere body hpl ((h.reveal name line).enterFunction line params body) ?_ hf
    intro l hl n hn
    cases hl
    exact List.mem_append_right _ hn
  | .result _ _, _, _, _, _, _, _ => fun e _ => e.scoped_anywhere

theorem stmts_anywhere : (ss : List Stmt) → {p : Pass} → {ls : Layers} → Stmt.AllPlaced ss →
    p.Agrees ls → Declares ls (Stmt.declaredNames ss) → (stmts ss p).faults.size = 0 →
    Stmt.AllScoped Anywhere ls ss
  | [], _, _, _, _, _, _ => trivial
  | s :: ss, p, ls, hpl, h, hd, hf => by
    rw [declaredNames_cons] at hd
    have hf' : (stmt s p).faults.size = 0 := by
      have := le_faults_stmts ss (stmt s p)
      rw [stmts] at hf
      omega
    exact ⟨stmt_anywhere s hpl.1 h (fun l hl n hn => hd l hl n (List.mem_append_left _ hn)) hf',
      stmts_anywhere ss hpl.2 (stmt_agrees s hpl.1 h)
        (Declares.after (fun l hl n hn => hd l hl n (List.mem_append_right _ hn)) s) hf⟩

end

/-- In a program that is accepted declarations stand where scopes are and repeat no name. -/
theorem anywhere_of_distances {program : List Stmt} {T : Distances} (hpl : Stmt.AllPlaced program)
    (h : distances program = .ok T) : Stmt.AllScoped Anywhere [] program := by
  unfold distances at h
  dsimp only at h
  split at h
  · next hf => exact stmts_anywhere program (p := .start) hpl .nil nofun (by simpa using hf)
  · cases h

end Scoping

section Declared
variable {Q : Layers → Name → NodeId → Prop} {ls : Layers}

theorem Stmt.Scoped.admits {s : Stmt} (h : s.Scoped Q ls) {name : Name} (hs : s.declares? = some name) :
    ls.Admits name := by
  cases s with
  | var => cases hs; exact h.1
  | function => cases hs; exact h.1
  | _ => cases hs

/-- The statements of a block or function declare each name once, and none that is there already. -/
theorem Stmt.AllScoped.nodup_declaredNames {ss : List Stmt} {l : Layer}
    (h : Stmt.AllScoped Q (l :: ls) ss) :
    (Stmt.declaredNames ss).Nodup ∧ ∀ name ∈ Stmt.declaredNames ss, name ∉ l.visible := by
  induction ss generalizing l with
  | nil => exact ⟨.nil, nofun⟩
  | cons s ss ih =>
    obtain ⟨hs, hss⟩ := h
    rw [Scoping.declaredNames_cons]
    cases hname : s.declares? with
    | none =>
      rw [Layers.after_of_declares?_eq_none _ hname] at hss
      exact ih hss
    | some name =>
      have hnew := (hs.admits hname l rfl).1
      rw [Layers.after, hname] at hss
      obtain ⟨hnodup, hlater⟩ := ih hss
      refine ⟨List.nodup_cons.mpr ⟨fun hmem => hlater name hmem List.mem_cons_self, hnodup⟩, ?_⟩
      intro n hn
      obtain rfl | hn := List.mem_cons.mp hn
      · exact hnew
      · exact fun hvisible => hlater n hn (List.mem_cons_of_mem _ hvisible)

end Declared
end LoxLang
