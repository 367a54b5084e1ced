import Mathlib.Data.List.Forall2
import LoxLang.Proofs.Scoping.Table
import LoxLang.Proofs.Matching.Tree

/-!
The scope pass goes through trees that match in the same way and finds the same faults, on lines that
correspond. Between two declarations of an accepted program it is where it started.
-/
namespace LoxLang

inductive Diagnostic.Matches (L : Nat → Nat → Prop) : Diagnostic → Diagnostic → Prop where
  | mk {l l' : Nat} (place : Place) (cause : Cause) :
    L l l' → Diagnostic.Matches L ⟨l, place, cause⟩ ⟨l', place, cause⟩

theorem Diagnostic.Matches.eq {d d' : Diagnostic} (h : d.Matches (· = ·) d') : d = d' := by
  obtain ⟨place, cause, rfl⟩ := h
  rfl

theorem Diagnostic.eq_of_allMatch {ds ds' : List Diagnostic}
    (h : List.Forall₂ (Diagnostic.Matches (· = ·)) ds ds') : ds = ds' := by
  induction h with
  | nil => rfl
  | cons hd _ ih => rw [hd.eq, ih]

namespace Scoping

variable {L : Nat → Nat → Prop} {N : NodeId → NodeId → Prop}

structure Pass.Matches (L : Nat → Nat → Prop) (p p' : Pass) : Prop where
  scopes : p'.scopes = p.scopes
  functionDepth : p'.functionDepth = p.functionDepth
  faults : List.Forall₂ (Diagnostic.Matches L) p.faults.toList p'.faults.toList

@[simp] theorem Pass.mark_functionDepth (p : Pass) (name : Name) (complete : Bool) :
    (p.mark name complete).functionDepth = p.functionDepth := by
  unfold mark; split <;> rfl

@[simp] theorem Pass.complete_functionDepth (p : Pass) (name : Name) :
    (p.complete name).functionDepth = p.functionDepth := p.mark_functionDepth name true

@[simp] theorem Pass.declare_functionDepth (p : Pass) (name : Name) (line : Nat) :
    (p.declare name line).functionDepth = p.functionDepth := by
  simp only [declare, mark_functionDepth]; split <;> rfl

@[simp] theorem Pass.bind_functionDepth (p : Pass) (name : Name) (id : NodeId) :
    (p.bind name id).functionDepth = p.functionDepth := by
  unfold Pass.bind; split <;> rfl

theorem Pass.parameters_functionDepth (params : List Name) (line : Nat) (p : Pass) :
    (p.parameters line params).functionDepth = p.functionDepth := by
  induction params generalizing p with
  | nil => rfl
  | cons name names ih => simp [parameters, ih]

mutual

theorem expr_functionDepth : (e : Expr) → (p : Pass) → (expr e p).functionDepth = p.functionDepth
  | .literal _ _, _ => rfl
  | .grouping _ inner, p => expr_functionDepth inner p
  | .unary _ _ operand, p => expr_functionDepth operand p
  | .binary _ _ left right, p | .logical _ _ left right, p =>
    (expr_functionDepth right _).trans (expr_functionDepth left p)
  | .reference _ name id, p => p.bind_functionDepth name id
  | .assign _ name id value, p =>
    ((expr value p).bind_functionDepth name id).trans (expr_functionDepth value p)
  | .call _ callee arguments, p =>
    (exprs_functionDepth arguments _).trans (expr_functionDepth callee p)

theorem exprs_functionDepth : (es : List Expr) → (p : Pass) →
    (exprs es p).functionDepth = p.functionDepth
  | [], _ => rfl
  | e :: es, p => (exprs_functionDepth es _).trans (expr_functionDepth e p)

end

theorem initializer_functionDepth (line : Nat) (name : Name) (e : Expr) (p : Pass) :
    (initializer line name e p).functionDepth = p.functionDepth := by
  rw [initializer, expr_functionDepth]
  split <;> rfl

mutual

/-- After a statement the pass is in as many functions as before. -/
theorem stmt_functionDepth : (s : Stmt) → (p : Pass) → (stmt s p).functionDepth = p.functionDepth
  | .expression _ e, p | .print _ e, p => expr_functionDepth e p
  | .var line name none, p => by simp [stmt]
  | .var line name (some e), p => by simp [stmt, initializer_functionDepth]
  | .block _ body, p => stmts_functionDepth body p.opened
  | .branch _ condition s none, p =>
    (stmt_functionDepth s _).trans (expr_functionDepth condition p)
  | .branch _ condition s (some t), p =>
    ((stmt_functionDepth t _).trans (stmt_functionDepth s _)).trans (expr_functionDepth condition p)
  | .loop _ condition body, p =>
    (stmt_functionDepth body _).trans (expr_functionDepth condition p)
  | .function line name params body, p => by
    let entered := ((p.declare name line).complete name).enterFunction
    have hentered : entered.functionDepth = p.functionDepth + 1 := by
      simp [entered, Pass.enterFunction, Pass.opened]
    have hbody := stmts_functionDepth body (entered.parameters line params)
    rw [Pass.parameters_functionDepth, hentered] at hbody
    exact congrArg (· - 1) hbody
  | .result line value, p => by
    have hp : (if p.functionDepth = 0 then p.fault line "return" .topLevelReturn
        else p).functionDepth = p.functionDepth := by
      split <;> rfl
    cases value with
    | none => exact hp
    | some e => exact (expr_functionDepth e _).trans hp

theorem stmts_functionDepth : (ss : List Stmt) → (p : Pass) →
    (stmts ss p).functionDepth = p.functionDepth
  | [], _ => rfl
  | s :: ss, p => (stmts_functionDepth ss _).trans (stmt_functionDepth s p)

end

namespace Pass.Matches

variable {p p' : Pass}

theorem fault (h : p.Matches L p') {l l' : Nat} (hl : L l l') (lexeme : String) (cause : Cause) :
    (p.fault l lexeme cause).Matches L (p'.fault l' lexeme cause) where
  scopes := h.scopes
  functionDepth := h.functionDepth
  faults := by
    simp only [Pass.fault, Array.toList_push]
    exact List.rel_append h.faults (.cons (.mk _ _ hl) .nil)

theorem opened (h : p.Matches L p') : p.opened.Matches L p'.opened :=
  ⟨congrArg ([] :: ·) h.scopes, h.functionDepth, h.faults⟩

theorem closed (h : p.Matches L p') : p.closed.Matches L p'.closed :=
  ⟨congrArg List.tail h.scopes, h.functionDepth, h.faults⟩

theorem mark (h : p.Matches L p') (name : Name) (complete : Bool) :
    (p.mark name complete).Matches L (p'.mark name complete) := by
  refine ⟨?_, by simpa using h.functionDepth, by simpa using h.faults⟩
  unfold Pass.mark
  rw [h.scopes]
  cases hs : p.scopes with
  | nil => exact h.scopes.trans hs |>.trans hs.symm
  | cons names outer => rfl

theorem declare (h : p.Matches L p') (name : Name) {l l' : Nat} (hl : L l l') :
    (p.declare name l).Matches L (p'.declare name l') := by
  have hdeclares : p'.declares name = p.declares name := by rw [Pass.declares, h.scopes]; rfl
  unfold Pass.declare
  rw [hdeclares]
  refine mark ?_ name false
  split
  · exact h.fault hl name _
  · exact h

theorem complete (h : p.Matches L p') (name : Name) :
    (p.complete name).Matches L (p'.complete name) :=
  h.mark name true

theorem parameters (h : p.Matches L p') {l l' : Nat} (hl : L l l') (params : List Name) :
    (p.parameters l params).Matches L (p'.parameters l' params) := by
  induction params generalizing p p' with
  | nil => exact h
  | cons name names ih => exact ih ((h.declare name hl).complete name)

theorem enterFunction (h : p.Matches L p') : p.enterFunction.Matches L p'.enterFunction :=
  ⟨h.opened.scopes, congrArg (· + 1) h.functionDepth, h.faults⟩

theorem leaveFunction (h : p.Matches L p') : p.leaveFunction.Matches L p'.leaveFunction :=
  ⟨h.closed.scopes, congrArg (· - 1) h.functionDepth, h.faults⟩

/-- Expressions only make entries in the table. -/
theorem expr (h : p.Matches L p') (e e' : Expr) :
    (Scoping.expr e p).Matches L (Scoping.expr e' p') where
  scopes := by rw [expr_scopes, expr_scopes, h.scopes]
  functionDepth := by rw [expr_functionDepth, expr_functionDepth, h.functionDepth]
  faults := by rw [expr_faults, expr_faults]; exact h.faults

theorem initializer {e e' : Expr} (h : p.Matches L p') (name : Name) {l l' : Nat} (hl : L l l')
    (hown : refersOnlyTo name e' = refersOnlyTo name e) :
    (Scoping.initializer l name e p).Matches L (Scoping.initializer l' name e' p') := by
  unfold Scoping.initializer
  rw [h.scopes, hown]
  refine expr ?_ e e'
  split
  · exact h.fault hl name _
  · exact h

theorem result (h : p.Matches L p') {l l' : Nat} (hl : L l l') :
    (if p.functionDepth = 0 then p.fault l "return" .topLevelReturn else p).Matches L
      (if p'.functionDepth = 0 then p'.fault l' "return" .topLevelReturn else p') := by
  rw [h.functionDepth]
  split
  · exact h.fault hl _ _
  · exact h

end Pass.Matches

theorem refersOnlyTo_of_matches (name : Name) : {e e' : Expr} → e.Matches L N e' →
    refersOnlyTo name e' = refersOnlyTo name e
  | _, _, .grouping _ h => (refersOnlyTo_of_matches name h :)
  | _, _, .literal _ _ | _, _, .unary _ _ _ | _, _, .binary _ _ _ _ | _, _, .logical _ _ _ _
  | _, _, .reference _ _ _ | _, _, .assign _ _ _ _ | _, _, .call _ _ _ => rfl

mutual

/-- The pass over one statement and over one that matches it. -/
theorem stmt_matches {p p' : Pass} : {s s' : Stmt} → s.Matches L N s' → p.Matches L p' →
    (stmt s p).Matches L (stmt s' p')
  | _, _, .expression _ _, h | _, _, .print _ _, h => h.expr _ _
  | _, _, .var name hl .none, h => (h.declare name hl).complete name
  | _, _, .var name hl (.some he), h =>
    ((h.declare name hl).initializer name hl (refersOnlyTo_of_matches name he)).complete name
  | _, _, .block _ hb, h => (stmts_matches hb h.opened).closed
  | _, _, .ifThen _ _ hs, h => (stmt_matches hs (h.expr _ _) :)
  | _, _, .ifElse _ _ hs ht, h => (stmt_matches ht (stmt_matches hs (h.expr _ _)) :)
  | _, _, .loop _ _ hb, h => (stmt_matches hb (h.expr _ _) :)
  | _, _, .function name params hl hb, h =>
    (stmts_matches hb
      (((h.declare name hl).complete name).enterFunction.parameters hl params)).leaveFunction
  | _, _, .result hl .none, h => h.result hl
  | _, _, .result hl (.some _), h => (h.result hl).expr _ _

theorem stmts_matches {p p' : Pass} : {ss ss' : List Stmt} → Stmt.AllMatch L N ss ss' →
    p.Matches L p' → (stmts ss p).Matches L (stmts ss' p')
  | _, _, .nil, h => h
  | _, _, .cons hs hss, h => (stmts_matches hss (stmt_matches hs h) :)

end

theorem Pass.Matches.isEmpty {p p' : Pass} (h : p.Matches L p') :
    p'.faults.isEmpty = p.faults.isEmpty := by
  have hlen := h.faults.length_eq
  simp only [Array.length_toList] at hlen
  simp only [Array.isEmpty, hlen]

/-- A program is accepted if one that matches it is. -/
theorem distances_matches {program program' : List Stmt} (h : Stmt.AllMatch L N program program') :
    (∃ T T', distances program = .ok T ∧ distances program' = .ok T') ∨
      ∃ faults faults', distances program = .error faults ∧ distances program' = .error faults' ∧
        List.Forall₂ (Diagnostic.Matches L) faults faults' := by
  have hp : (stmts program .start).Matches L (stmts program' .start) :=
    stmts_matches h ⟨rfl, rfl, .nil⟩
  unfold distances
  dsimp only
  rw [hp.isEmpty]
  split
  · exact .inl ⟨_, _, rfl, rfl⟩
  · exact .inr ⟨_, _, rfl, rfl, hp.faults⟩

theorem stmts_append (ss ts : List Stmt) (p : Pass) :
    stmts (ss ++ ts) p = stmts ts (stmts ss p) := by
  induction ss generalizing p with
  | nil => rfl
  | cons s ss ih => exact ih (stmt s p)

/-- Where one program is accepted, another is accepted after it as it is on its own. -/
theorem distances_append {ss ts : List Stmt} {T U : Distances} (hpl : Stmt.AllPlaced ss)
    (hs : distances ss = .ok T) (ht : distances ts = .ok U) :
    ∃ V, distances (ss ++ ts) = .ok V := by
  have hclean (program : List Stmt) {T : Distances} (h : distances program = .ok T) :
      (stmts program .start).faults = #[] := by
    unfold distances at h
    dsimp only at h
    split at h
    · next hf => simpa using hf
    · cases h
  have hagrees : (stmts ss .start).Agrees [] := by
    have h : (stmts ss .start).Agrees (Layers.afterAll [] ss) := stmts_agrees ss hpl .nil
    rwa [Layers.afterAll_eq_nil.mpr rfl] at h
  have hback : Pass.start.Matches (· = ·) (stmts ss .start) := by
    refine ⟨?_, stmts_functionDepth ss .start, ?_⟩
    · unfold Pass.Agrees at hagrees
      rw [List.forall₂_nil_right_iff.mp hagrees]
      rfl
    · rw [hclean ss hs]
      exact .nil
  have hself : Stmt.AllMatch (· = ·) (· = ·) ts ts :=
    Stmt.allMatch_self (fun _ => rfl) (fun _ => rfl) ts
  have hp := stmts_matches hself hback
  unfold distances
  dsimp only
  rw [stmts_append, hp.isEmpty, hclean ts ht]
  exact ⟨_, rfl⟩

end Scoping
end LoxLang
