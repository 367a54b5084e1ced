import Mathlib
import LoxLang.Proofs.Matching.Pass
import LoxLang.Proofs.Parse.Lines
import LoxLang.Proofs.Scoping.Lexical

/-!
The faults of the scope pass. What is wrong with the scopes of a program can be told from what is around
each of its statements, one statement at a time; the pass finds these faults, in the order of the tree.
-/
namespace LoxLang

def Expr.unwrapped : Expr → Expr
  | .grouping _ inner => inner.unwrapped
  | e => e

def Expr.isReference (name : Name) (e : Expr) : Bool :=
  match e.unwrapped with
  | .reference _ read _ => read = name
  | _ => false

theorem Scoping.refersOnlyTo_eq_isReference (name : Name) :
    (e : Expr) → refersOnlyTo name e = e.isReference name
  | .grouping _ inner => Scoping.refersOnlyTo_eq_isReference name inner
  | .literal _ _ | .unary _ _ _ | .binary _ _ _ _ | .logical _ _ _ _ | .reference _ _ _
  | .assign _ _ _ _ | .call _ _ _ => rfl

namespace Visit

def redeclared (v : Visit) (line : Nat) (name : Name) : List Diagnostic :=
  if v.around.head?.any (name ∈ ·.declared) then [⟨line, .at name, .alreadyDeclared⟩] else []

def selfInitialized (v : Visit) (line : Nat) (name : Name) (initializer : Option Expr) :
    List Diagnostic :=
  if !v.around.isEmpty && initializer.any (·.isReference name) then
    [⟨line, .at name, .ownInitializer⟩] else []

def repeated? (line : Nat) (params : List Name) : Name × Nat → Option Diagnostic
  | (name, i) => if name ∈ params.take i then some ⟨line, .at name, .alreadyDeclared⟩ else none

def repeated (line : Nat) (params : List Name) : List Diagnostic :=
  params.zipIdx.filterMap (repeated? line params)

def faults (v : Visit) : List Diagnostic :=
  match v.stmt with
  | .var line name initializer => v.redeclared line name ++ v.selfInitialized line name initializer
  | .function line name params _ => v.redeclared line name ++ repeated line params
  | .result line _ =>
    if v.around.any (·.params.isSome) then [] else [⟨line, .at "return", .topLevelReturn⟩]
  | _ => []

end Visit

def Stmt.scopeFaults (program : List Stmt) : List Diagnostic :=
  (Stmt.allVisits [] program).flatMap Visit.faults

def Around.functions (around : Around) : Nat := around.countP (·.params.isSome)

theorem Around.functions_within (around : Around) (s : Stmt) :
    (around.within s).functions = around.functions := by
  cases around <;> rfl

theorem Around.functions_past (around : Around) (s : Stmt) :
    (around.past s).functions = around.functions := by
  cases around <;> rfl

namespace Scoping

variable {p : Pass} {ls : Layers} {around : Around}

structure Pass.Stands (p : Pass) (ls : Layers) (around : Around) : Prop where
  agrees : p.Agrees ls
  fit : ls.Fit around
  functions : p.functionDepth = around.functions

theorem Pass.Agrees.declares_iff (h : p.Agrees ls) (name : Name) :
    p.declares name = true ↔ ∃ l ∈ ls.head?, name ∈ l.visible := by
  unfold Pass.declares
  unfold Pass.Agrees at h
  generalize p.scopes = scopes at h
  cases h with
  | nil => simp
  | cons hl _ => simp [hl name]

theorem Pass.declare_faults (p : Pass) (name : Name) (line : Nat) :
    (p.declare name line).faults.toList =
      p.faults.toList ++ if p.declares name then [⟨line, .at name, .alreadyDeclared⟩] else [] := by
  unfold Pass.declare
  rw [Pass.mark_faults]
  split <;> simp [Pass.fault]

theorem Pass.Stands.declares_eq (h : p.Stands ls around) (name : Name) :
    p.declares name = around.head?.any (name ∈ ·.declared) := by
  rw [Bool.eq_iff_iff, h.agrees.declares_iff]
  cases h.fit with
  | nil => simp
  | cons hl _ => simp [hl name]

theorem Pass.Stands.isEmpty_eq (h : p.Stands ls around) : p.scopes.isEmpty = around.isEmpty := by
  have hagrees := h.agrees
  unfold Pass.Agrees at hagrees
  cases h.fit with
  | nil => rw [List.forall₂_nil_right_iff.mp hagrees]; rfl
  | cons _ _ =>
    generalize p.scopes = scopes at hagrees
    cases hagrees with
    | cons _ _ => rfl

theorem Pass.declare_isEmpty (p : Pass) (name : Name) (line : Nat) :
    (p.declare name line).scopes.isEmpty = p.scopes.isEmpty := by
  rw [Pass.declare_scopes, Pass.mark]
  split
  · rfl
  · next hscopes => rw [hscopes]; rfl

theorem Pass.Stands.functionDepth_eq_zero (h : p.Stands ls around) :
    p.functionDepth = 0 ↔ around.any (·.params.isSome) = false := by
  rw [h.functions, Around.functions, List.countP_eq_zero, List.any_eq_false]

theorem initializer_faults (line : Nat) (name : Name) (e : Expr) (p : Pass) :
    (initializer line name e p).faults.toList =
      p.faults.toList ++ if !p.scopes.isEmpty && e.isReference name then
        [⟨line, .at name, .ownInitializer⟩] else [] := by
  rw [initializer, expr_faults, refersOnlyTo_eq_isReference]
  split <;> simp [Pass.fault]

/-- Parameters after others: those are in the scope already. -/
theorem Pass.Agrees.parameters_faults {l : Layer} {earlier : List Name} (h : p.Agrees (l :: ls))
    (hl : ∀ name, name ∈ l.visible ↔ name ∈ earlier) (line : Nat) (params : List Name) :
    (p.parameters line params).faults.toList = p.faults.toList ++
      (params.zipIdx earlier.length).filterMap (Visit.repeated? line (earlier ++ params)) := by
  induction params generalizing p l earlier with
  | nil => simp [Pass.parameters]
  | cons name params ih =>
    have hdeclares : p.declares name = true ↔ name ∈ earlier := by
      rw [h.declares_iff, ← hl name]
      simp
    have hvisible : ∀ n, n ∈ name :: l.visible ↔ n ∈ earlier ++ [name] := fun n => by
      rw [List.mem_cons, hl n, List.mem_append, List.mem_singleton, or_comm]
    have hrest := ih (h.reveal name line) hvisible
    have hfirst : Visit.repeated? line (earlier ++ name :: params) (name, earlier.length) =
        if name ∈ earlier then some ⟨line, .at name, .alreadyDeclared⟩ else none := by
      rw [Visit.repeated?, List.take_left]
    rw [List.append_assoc, List.singleton_append, List.length_append, List.length_singleton] at hrest
    rw [Pass.parameters, hrest, Pass.complete_faults, Pass.declare_faults, List.append_assoc,
      List.zipIdx_cons, List.filterMap_cons, hfirst]
    by_cases hname : name ∈ earlier
    · simp [hdeclares, hname]
    · simp [hdeclares, hname]

namespace Pass.Stands

theorem expr (h : p.Stands ls around) (e : Expr) : (Scoping.expr e p).Stands ls around where
  agrees := h.agrees.expr e
  fit := h.fit
  functions := (expr_functionDepth e p).trans h.functions

theorem within (h : p.Stands ls around) (s : Stmt) : p.Stands ls (around.within s) where
  agrees := h.agrees
  fit := h.fit.within s
  functions := h.functions.trans (around.functions_within s).symm

theorem past {s : Stmt} (h : p.Stands ls around) (hs : s.Placed) :
    (stmt s p).Stands (ls.after s) (around.past s) where
  agrees := stmt_agrees s hs h.agrees
  fit := h.fit.past s
  functions := by rw [stmt_functionDepth, h.functions, around.functions_past]

/-- A part of a statement leaves the pass where it is. -/
theorem part {s : Stmt} (h : p.Stands ls around) (hs : s.Inner) : (stmt s p).Stands ls around where
  agrees := by
    have hafter := stmt_agrees s hs.2 h.agrees
    rwa [Layers.after_of_declares?_eq_none ls hs.1] at hafter
  fit := h.fit
  functions := (stmt_functionDepth s p).trans h.functions

theorem opened {s : Stmt} (h : p.Stands ls around) (hholds : around.Holds s)
    (hs : s.functionName? = none) (body : List Stmt) :
    p.opened.Stands (.ofBlock body :: ls) (.block :: around) where
  agrees := h.agrees.opened _
  fit := (h.fit.shown hholds hs).fit_block body
  functions := h.functions

theorem entered {s : Stmt} {name : Name} (h : p.Stands ls around) (hholds : around.Holds s)
    (hs : s.functionName? = some name) (line : Nat) (params : List Name) (body : List Stmt) :
    (((p.declare name line).complete name).enterFunction.parameters line params).Stands
      (.ofFunction params body :: ls.reveal name) (.function params :: around) where
  agrees := (h.agrees.reveal name line).enterFunction line params body
  fit := (h.fit.shown_reveal hholds hs).fit_function params body
  functions := by
    simp only [Pass.parameters_functionDepth, Pass.enterFunction, Pass.opened,
      Pass.complete_functionDepth, Pass.declare_functionDepth, h.functions]
    simp [Around.functions, Enclosure.function]

end Pass.Stands

mutual

/-- From where the pass stands it finds what is wrong with a statement and with its parts. -/
theorem stmt_scopeFaults : (s : Stmt) → {p : Pass} → {ls : Layers} → {around : Around} → s.Placed →
    p.Stands ls around → around.Holds s →
    (stmt s p).faults.toList = p.faults.toList ++ (s.visits around).flatMap Visit.faults
  | .expression _ e, p, _, _, _, _, _ | .print _ e, p, _, _, _, _, _ => by
    simp [stmt, expr_faults, Stmt.visits, Visit.faults]
  | .var line name none, p, ls, around, _, h, _ => by
    simp [stmt, Pass.declare_faults, Stmt.visits, Visit.faults, Visit.redeclared,
      Visit.selfInitialized, h.declares_eq]
  | .var line name (some e), p, ls, around, _, h, _ => by
    have hempty : (p.declare name line).scopes.isEmpty = around.isEmpty := by
      rw [Pass.declare_isEmpty, h.isEmpty_eq]
    simp [stmt, initializer_faults, Pass.declare_faults, hempty, Stmt.visits, Visit.faults,
      Visit.redeclared, Visit.selfInitialized, h.declares_eq]
  | .block _ body, p, ls, around, hpl, h, hholds => by
    have hbody := stmts_scopeFaults body hpl (h.opened hholds rfl body)
    simpa [stmt, Pass.closed, Pass.opened, Stmt.visits, Visit.faults] using hbody
  | .branch _ condition thenBranch none, p, ls, around, hpl, h, hholds => by
    have hthen := stmt_scopeFaults thenBranch hpl.2 (h.expr condition) (hholds.part rfl hpl.1)
    simpa [stmt, expr_faults, Stmt.visits, Visit.faults] using hthen
  | .branch _ condition thenBranch (some elseBranch), p, ls, around, hpl, h, hholds => by
    have hthen := stmt_scopeFaults thenBranch hpl.1.2 (h.expr condition) (hholds.part rfl hpl.1.1)
    have helse := stmt_scopeFaults elseBranch hpl.2.2 ((h.expr condition).part hpl.1)
      (hholds.part rfl hpl.2.1)
    rw [hthen, expr_faults] at helse
    simpa [stmt, Stmt.visits, Visit.faults] using helse
  | .loop _ condition body, p, ls, around, hpl, h, hholds => by
    have hbody := stmt_scopeFaults body hpl.2 (h.expr condition) (hholds.part rfl hpl.1)
    simpa [stmt, expr_faults, Stmt.visits, Visit.faults] using hbody
  | .function line name params body, p, ls, around, hpl, h, hholds => by
    have hbody := stmts_scopeFaults body hpl (h.entered hholds rfl line params body)
    have hentered : ((p.declare name line).complete name).enterFunction.Agrees
        (⟨[], []⟩ :: ls.reveal name) := (h.agrees.reveal name line).opened []
    have hnone : ∀ n, n ∈ (⟨[], []⟩ : Layer).visible ↔ n ∈ ([] : List Name) := fun _ => Iff.rfl
    have hparams := hentered.parameters_faults hnone line params
    rw [hparams] at hbody
    simpa [stmt, Pass.leaveFunction, Pass.closed, Pass.enterFunction, Pass.opened, Pass.declare_faults,
      h.declares_eq, Stmt.visits, Visit.faults, Visit.redeclared, Visit.repeated] using hbody
  | .result line value, p, ls, around, _, h, _ => by
    have hp : (if p.functionDepth = 0 then p.fault line "return" .topLevelReturn else p).faults.toList =
        p.faults.toList ++ if around.any (·.params.isSome) then []
          else [⟨line, .at "return", .topLevelReturn⟩] := by
      cases hany : around.any (·.params.isSome) with
      | false => simp [h.functionDepth_eq_zero.mpr hany, Pass.fault]
      | true =>
        have hdepth : p.functionDepth ≠ 0 := fun hzero => by
          rw [h.functionDepth_eq_zero.mp hzero] at hany
          cases hany
        simp [hdepth]
    cases value with
    | none => simpa [stmt, Stmt.visits, Visit.faults] using hp
    | some e => simpa [stmt, expr_faults, Stmt.visits, Visit.faults] using hp

theorem stmts_scopeFaults : (ss : List Stmt) → {p : Pass} → {ls : Layers} → {around : Around} →
    Stmt.AllPlaced ss → p.Stands ls around →
    (stmts ss p).faults.toList = p.faults.toList ++ (Stmt.allVisits around ss).flatMap Visit.faults
  | [], _, _, _, _, _ => by simp [stmts, Stmt.allVisits]
  | s :: ss, p, ls, around, hpl, h => by
    have hs := stmt_scopeFaults s hpl.1 (h.within s) (around.holds_within s)
    have hss := stmts_scopeFaults ss hpl.2 (h.past hpl.1)
    rw [stmts, hss, hs, Stmt.allVisits, List.flatMap_append, List.append_assoc]

end

end Scoping

def Stmt.checkedLine? : Stmt → Option Nat
  | .var line _ _ | .function line _ _ _ | .result line _ => some line
  | _ => none

mutual

theorem Stmt.filterMap_visits : (s : Stmt) → (around : Around) →
    (s.visits around).filterMap (·.stmt.checkedLine?) = s.checkedLines
  | .expression _ _, _ | .print _ _, _ | .var _ _ _, _ | .result _ _, _ => rfl
  | .block _ body, around => Stmt.filterMap_allVisits body _
  | .branch _ _ thenBranch none, around => Stmt.filterMap_visits thenBranch around
  | .branch _ _ thenBranch (some elseBranch), around => by
    rw [Stmt.visits, List.filterMap_cons_none rfl, List.filterMap_append,
      Stmt.filterMap_visits thenBranch, Stmt.filterMap_visits elseBranch, Stmt.checkedLines]
  | .loop _ _ body, around => Stmt.filterMap_visits body around
  | .function line _ _ body, around => by
    rw [Stmt.visits, List.filterMap_cons, Stmt.filterMap_allVisits body]
    rfl

theorem Stmt.filterMap_allVisits : (ss : List Stmt) → (around : Around) →
    (Stmt.allVisits around ss).filterMap (·.stmt.checkedLine?) = Stmt.allCheckedLines ss
  | [], _ => rfl
  | s :: ss, around => by
    rw [Stmt.allVisits, List.filterMap_append, s.filterMap_visits, Stmt.filterMap_allVisits ss,
      Stmt.allCheckedLines]

end

namespace Visit

variable {v : Visit} {line : Nat} {name : Name} {d : Diagnostic}

theorem line_of_mem_redeclared (h : d ∈ v.redeclared line name) : d.line = line := by
  unfold redeclared at h
  split at h
  · rw [List.mem_singleton.mp h]
  · cases h

theorem line_of_mem_selfInitialized {initializer : Option Expr}
    (h : d ∈ v.selfInitialized line name initializer) : d.line = line := by
  unfold selfInitialized at h
  split at h
  · rw [List.mem_singleton.mp h]
  · cases h

theorem line_of_mem_repeated {params : List Name} (h : d ∈ repeated line params) : d.line = line := by
  obtain ⟨⟨name, i⟩, -, hd⟩ := List.mem_filterMap.mp h
  rw [repeated?] at hd
  split at hd
  · rw [← Option.some_inj.mp hd]
  · cases hd

/-- The faults of a statement are on its line. -/
theorem checkedLine?_of_mem_faults (h : d ∈ v.faults) : v.stmt.checkedLine? = some d.line := by
  unfold faults at h
  split at h
  · next hv =>
    rw [hv, (List.mem_append.mp h).elim line_of_mem_redeclared line_of_mem_selfInitialized]
    rfl
  · next hv =>
    rw [hv, (List.mem_append.mp h).elim line_of_mem_redeclared line_of_mem_repeated]
    rfl
  · next hv =>
    split at h
    · cases h
    · rw [hv, List.mem_singleton.mp h]
      rfl
  · cases h

end Visit

theorem Stmt.pairwise_scopeFaults {program : List Stmt}
    (h : (Stmt.allCheckedLines program).Pairwise (· ≤ ·)) :
    (Stmt.scopeFaults program).Pairwise fun d d' => d.line ≤ d'.line := by
  rw [← Stmt.filterMap_allVisits program [], List.pairwise_filterMap] at h
  rw [Stmt.scopeFaults, List.pairwise_flatMap]
  refine ⟨fun v _ => List.pairwise_of_forall_mem_list fun d hd d' hd' => ?_,
    h.imp fun hle d hd d' hd' => ?_⟩
  · have hline := (Visit.checkedLine?_of_mem_faults hd).symm.trans (Visit.checkedLine?_of_mem_faults hd')
    exact Nat.le_of_eq (Option.some_inj.mp hline)
  · exact hle _ (Visit.checkedLine?_of_mem_faults hd) _ (Visit.checkedLine?_of_mem_faults hd')

namespace Scoping

theorem distances_eq {program : List Stmt} (hpl : Stmt.AllPlaced program) :
    distances program = if Stmt.scopeFaults program = [] then .ok (stmts program .start).distances
      else .error (Stmt.scopeFaults program) := by
  have hfaults : (stmts program .start).faults.toList = Stmt.scopeFaults program :=
    stmts_scopeFaults program hpl ⟨.nil, .nil, rfl⟩
  unfold distances
  simp only [← hfaults, Array.isEmpty_iff, Array.toList_eq_nil_iff]

/-- The pass accepts a program that parses just where nothing is wrong with its scopes, and else gives all
that is wrong, in the order of the tree; for the program of a source this is also the order of the lines. -/
theorem distances_error_iff (firstId : NodeId) :
    (∀ tokens : List Token,
      let program := (Parsed.ofTokens tokens firstId).program
      ((∃ T, distances program = .ok T) ↔ Stmt.scopeFaults program = []) ∧
        ∀ faults, distances program = .error faults ↔
          faults ≠ [] ∧ faults = Stmt.scopeFaults program) ∧
      ∀ source : String, (Stmt.scopeFaults (Parsed.ofSource source firstId).program).Pairwise
        fun d d' => d.line ≤ d'.line := by
  refine ⟨fun tokens => ?_, fun source => ?_⟩
  · intro program
    have hplaced : Stmt.AllPlaced program := Parsed.allPlaced_ofTokens tokens firstId
    rw [distances_eq hplaced]
    by_cases hnone : Stmt.scopeFaults program = []
    · simp [hnone]
    · rw [if_neg hnone]
      refine ⟨⟨nofun, fun h => absurd h hnone⟩, fun faults => ?_⟩
      rw [Except.error.injEq]
      exact ⟨fun h => ⟨h ▸ hnone, h.symm⟩, fun h => h.2.symm⟩
  · exact Stmt.pairwise_scopeFaults (Parsed.checkedLines_in_order (linesInOrder_scan source) firstId)

example :
    Stmt.scopeFaults (Parsed.ofSource "fun f(a, a) \x7b var a = (a); \x7d\nreturn;" 0).program =
      [⟨1, .at "a", .alreadyDeclared⟩, ⟨1, .at "a", .alreadyDeclared⟩, ⟨1, .at "a", .ownInitializer⟩,
        ⟨2, .at "return", .topLevelReturn⟩] := by cbv

end Scoping
end LoxLang
