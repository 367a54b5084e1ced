import Mathlib
import LoxLang.Proofs.Matching.Session
import LoxLang.Proofs.Parse.Order
import LoxLang.Proofs.Scoping.Faults

/-!
The faults that a source is rejected for. They come pass by pass: what is wrong with its characters stands
before what is wrong with its grammar, on whatever lines, and its scopes are looked at only if both are right.
-/
namespace LoxLang

theorem Parsed.faults_of_accept_error {p : Parsed} {faults : List Diagnostic}
    (h : p.accept = .error faults) :
    p.faults ≠ [] ∧ faults = p.faults ∨ p.faults = [] ∧ Scoping.distances p.program = .error faults := by
  unfold accept at h
  split at h
  · next hnone =>
    refine .inr ⟨List.isEmpty_iff.mp hnone, ?_⟩
    cases hd : Scoping.distances p.program with
    | error faults' => rw [hd] at h; cases h; rfl
    | ok T => rw [hd] at h; cases h
  · next hsome =>
    cases h
    exact .inl ⟨fun hnil => hsome (List.isEmpty_iff.mpr hnil), rfl⟩

theorem Scoping.eq_scopeFaults {program : List Stmt} {faults : List Diagnostic}
    (hpl : Stmt.AllPlaced program) (h : distances program = .error faults) :
    faults ≠ [] ∧ faults = Stmt.scopeFaults program := by
  rw [distances_eq hpl] at h
  split at h
  · cases h
  · next hne =>
    cases h
    exact ⟨hne, rfl⟩

theorem Diagnostic.Precedes.line_le {d d' : Diagnostic} (h : d.Precedes d')
    (hcause : d'.cause ≠ .invalidAssignmentTarget) : d.line ≤ d'.line :=
  h.resolve_right fun hlate => hcause hlate.2

namespace Session

theorem accept_of_run_rejected {s s' : Session} {source : String} {steps : Nat}
    {faults : List Diagnostic} (h : s.run steps source = some (.rejected faults, s')) :
    (Parsed.ofSource source s.nextId).accept = .error faults := by
  cases ha : (Parsed.ofSource source s.nextId).accept with
  | error faults' => rw [run_of_reject ha] at h; cases h; rfl
  | ok a => exact absurd h (run_ne_rejected ha steps faults s')

/-- A rejected source has faults: first the lexical ones, in the order of their lines, then those of the
grammar in the order of the parse, or else those of the scopes in the order of their lines. So the lines
never decrease where only one pass found faults and none of them is about an invalid target. -/
theorem rejected_pass_by_pass {s s' : Session} {source : String} {steps : Nat} {faults : List Diagnostic}
    (h : s.run steps source = some (.rejected faults, s')) :
    let lexical := (scan source).faults
    let parsed := Parsed.ofTokens (scan source).tokens s.nextId
    ∃ others, faults = lexical ++ others ∧ faults ≠ [] ∧
      (others = parsed.faults ∨
        lexical = [] ∧ parsed.faults = [] ∧ others = Stmt.scopeFaults parsed.program) ∧
      lexical.Pairwise (fun d d' => d.line ≤ d'.line) ∧ others.Pairwise Diagnostic.Precedes ∧
      ((lexical = [] ∨ others = []) → (∀ d ∈ others, d.cause ≠ .invalidAssignmentTarget) →
        faults.Pairwise fun d d' => d.line ≤ d'.line) := by
  intro lexical parsed
  obtain ⟨others, hfaults, hne, hothers, horder⟩ : ∃ others, faults = lexical ++ others ∧ faults ≠ [] ∧
      (others = parsed.faults ∨
        lexical = [] ∧ parsed.faults = [] ∧ others = Stmt.scopeFaults parsed.program) ∧
      others.Pairwise Diagnostic.Precedes := by
    obtain ⟨hne, hfaults⟩ | ⟨hnil, hd⟩ := Parsed.faults_of_accept_error (accept_of_run_rejected h)
    · exact ⟨parsed.faults, hfaults, hfaults ▸ hne, .inl rfl,
        Parsed.precedes_of_lines (linesInOrder_scan source) s.nextId⟩
    · obtain ⟨hlexical, hparsed⟩ := List.append_eq_nil_iff.mp hnil
      obtain ⟨hne, hfaults⟩ := Scoping.eq_scopeFaults (Parsed.allPlaced_ofTokens _ _) hd
      have hlines := Stmt.pairwise_scopeFaults
        (Parsed.checkedLines_in_order (linesInOrder_scan source) s.nextId)
      refine ⟨_, ?_, hne, .inr ⟨hlexical, hparsed, rfl⟩, hlines.imp .inl⟩
      rw [show lexical = [] from hlexical]
      exact hfaults
  refine ⟨others, hfaults, hne, hothers, pairwise_scan_faults source, horder,
    fun halone htargets => ?_⟩
  rw [hfaults]
  obtain halone | halone := halone
  · rw [halone, List.nil_append]
    exact horder.imp_of_mem fun _ hd' hle => hle.line_le (htargets _ hd')
  · rw [halone, List.append_nil]
    exact pairwise_scan_faults source

theorem rejected_pass_by_pass_of_characters :
    (start none (.empty none)).run 0 "print;\nnil = nil; @" =
        some (.rejected [⟨2, .unmatched, .unexpectedCharacter⟩, ⟨1, .at ";", .expected .expression⟩,
          ⟨2, .at "=", .invalidAssignmentTarget⟩], start none (.empty none)) ∧
      ∃ others, [⟨2, .unmatched, .unexpectedCharacter⟩, ⟨1, .at ";", .expected .expression⟩,
          ⟨2, .at "=", .invalidAssignmentTarget⟩] = (scan "print;\nnil = nil; @").faults ++ others ∧
        others.Pairwise Diagnostic.Precedes := by
  have hrun : (start none (.empty none)).run 0 "print;\nnil = nil; @" =
      some (.rejected [⟨2, .unmatched, .unexpectedCharacter⟩, ⟨1, .at ";", .expected .expression⟩,
        ⟨2, .at "=", .invalidAssignmentTarget⟩], start none (.empty none)) := by cbv
  obtain ⟨others, hfaults, -, -, -, horder, -⟩ := rejected_pass_by_pass hrun
  exact ⟨hrun, others, hfaults, horder⟩

/-- A lexical fault on the second line is listed before a fault of the grammar on the first. -/
theorem lexical_faults_first :
    ∃ s' faults, (start none (.empty none)).run 0 "print ;\n@" = some (.rejected faults, s') ∧
      faults = [⟨2, .unmatched, .unexpectedCharacter⟩, ⟨1, .at ";", .expected .expression⟩] ∧
      ¬ faults.Pairwise fun d d' => d.line ≤ d'.line :=
  ⟨_, _, by cbv, rfl, by decide⟩

end Session
end LoxLang
