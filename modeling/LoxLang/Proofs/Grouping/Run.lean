import LoxLang.Proofs.Grouping.Machine
import LoxLang.Proofs.Machine.Outline
import LoxLang.Proofs.Machine.Run

/-!
Parentheses carry no meaning. One step into parentheses is no step without them, and any other step is the
same with and without; so both runs print and fail alike, and leave the same behind but for the parentheses
in the bodies of functions.
-/
namespace LoxLang

namespace Value

@[simp] theorem outline_ungrouped (v : Value) : v.ungrouped.outline = v.outline := by
  cases v <;> rfl

theorem ungrouped_of_ne_function {v : Value} (h : ∀ f, v ≠ .function f) : v.ungrouped = v := by
  cases v with
  | function f => exact absurd rfl (h f)
  | _ => rfl

end Value

namespace Config
variable {frames : List Frame} {m : Machine}

theorem ofExcept_ungrouped {line : Nat} {r : Except Mishap Value}
    (h : ∀ v, r = .ok v → ∀ f, v ≠ .function f) :
    (ofExcept line r frames m).ungrouped =
      ofExcept line r (frames.map Frame.ungrouped) m.ungrouped := by
  cases r with
  | ok v =>
    have hv := Value.ungrouped_of_ne_function (h v rfl)
    simp only [ofExcept, value, Config.ungrouped, Control.ungrouped, Signal.ungrouped, hv]
  | error cause => rfl

/-- The step into parentheses is left out. -/
theorem eval_ungrouped {e : Expr} (h : ∀ line inner, e ≠ .grouping line inner) :
    (eval .byDistance e frames m).ungrouped =
      eval .byDistance e.ungrouped (frames.map Frame.ungrouped) m.ungrouped := by
  cases e with
  | grouping line inner => exact absurd rfl (h line inner)
  | literal line l =>
    have hl := Value.ungrouped_of_ne_function (Value.ofLiteral_ne_function l)
    simp only [eval, value, Config.ungrouped, Control.ungrouped, Signal.ungrouped, hl,
      Expr.ungrouped]
  | reference line name id =>
    simp only [eval, Expr.ungrouped, m.byDistance_ungrouped]
    cases Locator.byDistance m name id with
    | none => rfl
    | some h =>
      have hread : m.ungrouped.store.read? h name = (m.store.read? h name).map Value.ungrouped :=
        m.store.read?_ungrouped h name
      rw [Option.bind_some, Option.bind_some, hread]
      cases m.store.read? h name <;> rfl
  | _ => rfl

theorem exec_ungrouped (s : Stmt) : (exec s frames m).ungrouped =
    exec s.ungrouped (frames.map Frame.ungrouped) m.ungrouped := by
  cases s with
  | var line name initializer =>
    cases initializer with
    | none => exact congrArg (normal (frames.map Frame.ungrouped)) (m.define_ungrouped name .nil)
    | some e => rfl
  | block line body =>
    exact congrArg (mk (.execAll (Stmt.allUngrouped body)) (.block m.current :: frames.map _))
      (m.openScope_ungrouped m.current)
  | branch line condition thenBranch elseBranch =>
    rw [Stmt.ungrouped_branch]
    rfl
  | function line name params body =>
    exact congrArg (normal (frames.map Frame.ungrouped)) (m.declareFunction_ungrouped name params body)
  | result line value => cases value <;> rfl
  | expression | print | loop => rfl

theorem call_ungrouped (f : Function) (args : List Value) (line : Nat) :
    (call f args line frames m).ungrouped =
      call f.ungrouped (args.map Value.ungrouped) line (frames.map Frame.ungrouped) m.ungrouped := by
  simp only [call]
  change _ = if m.mayCall then _ else _
  split
  · exact congrArg (mk (.execAll (Stmt.allUngrouped f.body)) (.call m.current :: frames.map _))
      (m.enterCall_ungrouped f args)
  · rfl

theorem apply_ungrouped (callee : Value) (args : List Value) (line : Nat) :
    (apply callee args line frames m).ungrouped =
      apply callee.ungrouped (args.map Value.ungrouped) line (frames.map Frame.ungrouped)
        m.ungrouped := by
  cases callee with
  | function f =>
    simp only [apply, Value.ungrouped, List.length_map]
    change _ = if args.length = f.arity then _ else _
    split <;> rfl
  | _ => rfl

theorem arguments_ungrouped (line : Nat) (callee : Value) (args : List Value) (rest : List Expr) :
    (arguments line callee args rest frames m).ungrouped =
      arguments line callee.ungrouped (args.map Value.ungrouped) (Expr.allUngrouped rest)
        (frames.map Frame.ungrouped) m.ungrouped := by
  cases rest with
  | nil =>
    simp only [arguments, Expr.allUngrouped, ← List.map_reverse]
    exact apply_ungrouped callee args.reverse line
  | cons e rest => rfl

theorem print_ungrouped (line : Nat) (v : Value) :
    (print line v frames m).ungrouped =
      print line v.ungrouped (frames.map Frame.ungrouped) m.ungrouped := by
  have htext : v.ungrouped.text = v.text := Value.text_of_outline v.outline_ungrouped
  simp only [print, htext]
  change _ = if m.output.fits (v.text ++ "\n") then _ else _
  split <;> rfl

theorem resume_ungrouped (v : Value) (f : Frame) :
    (resume .byDistance v f frames m).ungrouped =
      resume .byDistance v.ungrouped f.ungrouped (frames.map Frame.ungrouped) m.ungrouped := by
  cases f with
  | unary line op =>
    simp only [resume, Frame.ungrouped, op.apply_of_outline v.outline_ungrouped]
    exact ofExcept_ungrouped fun w hw => UnaryOp.apply_ne_function hw
  | right line op left =>
    simp only [resume, Frame.ungrouped,
      op.apply_of_outline left.outline_ungrouped v.outline_ungrouped]
    exact ofExcept_ungrouped fun w hw => BinaryOp.apply_ne_function hw
  | logical op right =>
    simp only [resume, Frame.ungrouped, op.stopsAt_of_outline v.outline_ungrouped]
    split <;> rfl
  | assign line name id =>
    simp only [resume, Frame.ungrouped, m.byDistance_ungrouped]
    cases Locator.byDistance m name id with
    | none => rfl
    | some h =>
      exact congrArg (value v.ungrouped (frames.map Frame.ungrouped) { m with store := · })
        (m.store.define_ungrouped h name v)
  | callee line args => exact arguments_ungrouped line v [] args
  | argument line callee args rest => exact arguments_ungrouped line callee (v :: args) rest
  | print line => exact print_ungrouped line v
  | var name => exact congrArg (normal (frames.map Frame.ungrouped)) (m.define_ungrouped name v)
  | branch thenBranch elseBranch =>
    simp only [resume, Frame.ungrouped, Value.truthy_of_outline v.outline_ungrouped]
    split
    · rfl
    · cases elseBranch <;> rfl
  | test condition body =>
    simp only [resume, Frame.ungrouped, Value.truthy_of_outline v.outline_ungrouped]
    split <;> rfl
  | _ => rfl

theorem step_ungrouped (c : Config) (h : ∀ line inner, c.control ≠ .eval (.grouping line inner)) :
    (c.step .byDistance).ungrouped = c.ungrouped.step .byDistance := by
  obtain ⟨control, frames, m⟩ := c
  cases control with
  | eval e => exact eval_ungrouped fun line inner he => h line inner (congrArg _ he)
  | exec s => exact exec_ungrouped s
  | execAll ss | program ss => cases ss <;> rfl
  | call f args line => exact call_ungrouped f args line
  | done s =>
    cases frames with
    | nil => rfl
    | cons f frames =>
      cases s with
      | value v => exact resume_ungrouped v f
      | normal | returned | failed => cases f <;> rfl

theorem step_grouping (c : Config) (h : ∃ line inner, c.control = .eval (.grouping line inner)) :
    (c.step .byDistance).ungrouped = c.ungrouped := by
  obtain ⟨control, frames, m⟩ := c
  obtain ⟨line, inner, rfl⟩ := h
  rfl

/-- A run without parentheses takes no more steps. -/
theorem iterate_ungrouped (n : Nat) (c : Config) :
    ∃ k ≤ n, ((step .byDistance)^[n] c).ungrouped = (step .byDistance)^[k] c.ungrouped := by
  induction n generalizing c with
  | zero => exact ⟨0, Nat.le_refl 0, rfl⟩
  | succ n ih =>
    obtain ⟨k, hk, hc⟩ := ih (c.step .byDistance)
    by_cases h : ∃ line inner, c.control = .eval (.grouping line inner)
    · rw [step_grouping c h] at hc
      exact ⟨k, Nat.le_succ_of_le hk, hc⟩
    · rw [step_ungrouped c fun line inner hc => h ⟨line, inner, hc⟩] at hc
      exact ⟨k + 1, Nat.succ_le_succ hk, hc⟩

/-- A few steps lead into all parentheses that the next expression stands in. -/
theorem eval_leaves_groupings : (e : Expr) → (frames : List Frame) → (m : Machine) →
    ∃ n, ((step .byDistance)^[n] ⟨.eval e, frames, m⟩).ungrouped = ungrouped ⟨.eval e, frames, m⟩ ∧
      ∀ line inner, ((step .byDistance)^[n] ⟨.eval e, frames, m⟩).control ≠
        .eval (.grouping line inner)
  | .grouping _ inner, frames, m =>
    have ⟨n, hsame, hout⟩ := eval_leaves_groupings inner frames m
    ⟨n + 1, hsame, hout⟩
  | .literal _ _, _, _ | .unary _ _ _, _, _ | .binary _ _ _ _, _, _ | .logical _ _ _ _, _, _
  | .reference _ _ _, _, _ | .assign _ _ _ _, _, _ | .call _ _ _, _, _ => ⟨0, rfl, nofun⟩

theorem leaves_groupings (c : Config) :
    ∃ n, ((step .byDistance)^[n] c).ungrouped = c.ungrouped ∧
      ∀ line inner, ((step .byDistance)^[n] c).control ≠ .eval (.grouping line inner) := by
  obtain ⟨control, frames, m⟩ := c
  cases control with
  | eval e => exact eval_leaves_groupings e frames m
  | _ => exact ⟨0, rfl, nofun⟩

/-- Each moment of a run without parentheses is one of the run with them. -/
theorem iterate_of_ungrouped (k : Nat) (c : Config) :
    ∃ n, ((step .byDistance)^[n] c).ungrouped = (step .byDistance)^[k] c.ungrouped := by
  induction k generalizing c with
  | zero => exact ⟨0, rfl⟩
  | succ k ih =>
    obtain ⟨j, hsame, hout⟩ := leaves_groupings c
    obtain ⟨n, hn⟩ := ih (((step .byDistance)^[j] c).step .byDistance)
    refine ⟨n + 1 + j, ?_⟩
    rw [Function.iterate_add_apply, Function.iterate_succ_apply, hn, step_ungrouped _ hout, hsame,
      Function.iterate_succ_apply]

/-- What is finished without parentheses is finished. -/
theorem eq_done_of_ungrouped {c : Config} {s : Signal} {m : Machine}
    (h : c.ungrouped = ⟨.done s, [], m⟩) :
    ∃ s₁ m₁, c = ⟨.done s₁, [], m₁⟩ ∧ s₁.ungrouped = s ∧ m₁.ungrouped = m := by
  obtain ⟨control, frames, m₁⟩ := c
  simp only [Config.ungrouped, mk.injEq, List.map_eq_nil_iff] at h
  obtain ⟨hcontrol, rfl, rfl⟩ := h
  cases control with
  | done s₁ => exact ⟨s₁, m₁, rfl, by simpa [Control.ungrouped] using hcontrol, rfl⟩
  | _ => cases hcontrol

/-- Two runs that differ in parentheses only end alike. -/
theorem runFor_of_ungrouped {c c' : Config} (h : c'.ungrouped = c.ungrouped) {n : Nat} {s : Signal}
    {m : Machine} (hrun : c.runFor .byDistance n = some (s, m)) :
    ∃ n' s' m', c'.runFor .byDistance n' = some (s', m') ∧ s'.ungrouped = s.ungrouped ∧
      m'.ungrouped = m.ungrouped := by
  obtain ⟨k, -, hk⟩ := iterate_ungrouped n c
  rw [runFor_eq_some.mp hrun, ← h] at hk
  obtain ⟨n', hn'⟩ := iterate_of_ungrouped k c'
  obtain ⟨s', m', hc', hs, hm⟩ := eq_done_of_ungrouped (hn'.trans hk.symm)
  exact ⟨n', s', m', runFor_eq_some.mpr hc', hs, hm⟩

end Config

theorem Signal.eq_failed_of_ungrouped {s : Signal} {e : RuntimeError}
    (h : s.ungrouped = .failed e) : s = .failed e := by
  cases s with
  | failed e' => exact h
  | _ => cases h

namespace Machine
variable {m m' n : Machine} {program program' : List Stmt} {steps : Nat} {e? : Option RuntimeError}

theorem interpret_of_ungrouped (hm : m'.ungrouped = m.ungrouped)
    (hprogram : Stmt.allUngrouped program' = Stmt.allUngrouped program)
    (h : m.interpret steps program = some (e?, n)) :
    ∃ steps' n', m'.interpret steps' program' = some (e?, n') ∧ n'.ungrouped = n.ungrouped := by
  obtain ⟨⟨s, n₁⟩, hrun, hend⟩ := Option.map_eq_some_iff.mp h
  have hstart : Config.ungrouped ⟨.program program', [], m'⟩ =
      Config.ungrouped ⟨.program program, [], m⟩ := by
    simp only [Config.ungrouped, Control.ungrouped, hm, hprogram]
  obtain ⟨steps', s', n₁', hrun', hs, hn⟩ := Config.runFor_of_ungrouped hstart hrun
  have hreset : n₁'.reset.ungrouped = n₁.reset.ungrouped := congrArg reset hn
  refine ⟨steps', ?_⟩
  rw [interpret, run, hrun']
  cases s with
  | failed e =>
    cases hend
    cases Signal.eq_failed_of_ungrouped hs
    exact ⟨_, rfl, hreset⟩
  | _ =>
    cases hend
    cases s' with
    | failed e => cases Signal.eq_failed_of_ungrouped hs.symm
    | _ => exact ⟨_, rfl, hn⟩

/-- The same was printed, and every variable has the same value but for parentheses in the body of a function;
nor does anything else differ. -/
structure SameUngrouped (m m' : Machine) : Prop where
  output : m'.output = m.output
  values : ∀ id name,
    (m'.store.read? id name).map Value.ungrouped = (m.store.read? id name).map Value.ungrouped
  ungrouped : m'.ungrouped = m.ungrouped

theorem sameUngrouped_of_eq (h : m'.ungrouped = m.ungrouped) : m.SameUngrouped m' where
  output := congrArg (·.output) h
  values id name := by
    rw [← Store.read?_ungrouped, ← Store.read?_ungrouped]
    exact congrArg (·.store.read? id name) h
  ungrouped := h

/-- Parentheses carry no meaning. Without them a program has the same faults or the same distances, and from
the same machine, also where functions that it knows differ in parentheses, it runs the same: if one of the two
finishes, so does the other, with the same error if any. -/
theorem interpret_without_parentheses (program : List Stmt) :
    let plain := Stmt.allUngrouped program
    Scoping.distances plain = Scoping.distances program ∧
    ∀ m m' : Machine, m.SameUngrouped m' → ∀ e? : Option RuntimeError,
      (∀ steps n, m.interpret steps program = some (e?, n) →
        ∃ steps' n', m'.interpret steps' plain = some (e?, n') ∧ n.SameUngrouped n') ∧
      (∀ steps n', m'.interpret steps plain = some (e?, n') →
        ∃ steps' n, m.interpret steps' program = some (e?, n) ∧ n.SameUngrouped n') := by
  have hplain := Stmt.allUngrouped_allUngrouped program
  refine ⟨Scoping.distances_ungrouped program,
    fun m m' hm e? => ⟨fun steps n h => ?_, fun steps n' h => ?_⟩⟩
  · obtain ⟨steps', n', h', hn⟩ := interpret_of_ungrouped hm.ungrouped hplain h
    exact ⟨steps', n', h', sameUngrouped_of_eq hn⟩
  · obtain ⟨steps', n, h', hn⟩ := interpret_of_ungrouped hm.ungrouped.symm hplain.symm h
    exact ⟨steps', n, h', sameUngrouped_of_eq hn.symm⟩

/-- The function that is called returns an expression in parentheses on one machine only. -/
theorem interpret_without_parentheses_call :
    let f (value : Expr) : Value := .function ⟨0, "f", [], [.result 1 (some value)], globals⟩
    let x : Expr := .literal 1 (.string "x")
    let m := (start none (.empty none)).define "f" (f (.grouping 1 x))
    let m' := (start none (.empty none)).define "f" (f x)
    let call : Expr := .call 2 (.grouping 2 (.reference 2 "f" 0)) []
    let program : List Stmt := [.print 2 (.grouping 2 call), .print 3 (.grouping 3 (.unary 3 .negate call))]
    let e : RuntimeError := ⟨.operandNotNumber, 3⟩
    m.SameUngrouped m' ∧ ∃ n, m.interpret 40 program = some (some e, n) ∧
      ∃ steps' n', m'.interpret steps' (Stmt.allUngrouped program) = some (some e, n') ∧
        n.SameUngrouped n' := by
  intro f x m m' call program e
  have hm : m.SameUngrouped m' := sameUngrouped_of_eq (by rw [define_ungrouped, define_ungrouped]; rfl)
  have hfailed : (m.interpret 40 program).map Prod.fst = some (some e) := by rfl
  obtain ⟨⟨e?, n⟩, hrun, rfl⟩ := Option.map_eq_some_iff.mp hfailed
  exact ⟨hm, n, hrun, ((interpret_without_parentheses program).2 m m' hm _).1 40 n hrun⟩

end Machine
end LoxLang
