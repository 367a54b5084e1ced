import LoxLang.Proofs.Machine.Run

/-!
What one step does to scopes, calls and variables. In every part of a program each frame gets what it
waits for, whatever code the functions in the store have; then a step has one of seven effects.
-/
namespace LoxLang

namespace Frame

/-- What the frame waits for, and what the frames below it get in turn. -/
def awaits : Frame → Awaited × Awaited
  | unary _ _ | left _ _ _ | right _ _ _ | logical _ _ | assign _ _ _ | callee _ _
  | argument _ _ _ _ => (.value, .value)
  | discard | print _ | var _ | result | branch _ _ | test _ _ => (.value, .statement)
  | again _ _ | sequence _ | program _ | block _ => (.statement, .statement)
  | call _ => (.statement, .value)

/-- Each frame gets what it waits for, and the last one gives what is wanted in the end. -/
def Fit (final : Awaited) : Awaited → List Frame → Prop
  | awaited, [] => awaited = final
  | awaited, f :: fs => f.awaits.1 = awaited ∧ Fit final f.awaits.2 fs

/-- Does another scope become the current one where the frame is left? -/
def isBoundary : Frame → Bool
  | block _ | call _ => true
  | _ => false

def values : Frame → List Value
  | right _ _ v => [v]
  | argument _ v vs _ => v :: vs
  | _ => []

end Frame

namespace Control

/-- What the frames get, unless an error leaves them all. -/
def gives? : Control → Option Awaited
  | eval _ | call _ _ _ | done (.value _) => some .value
  | exec _ | execAll _ | program _ | done .normal | done (.returned _) => some .statement
  | done (.failed _) => none

def values : Control → List Value
  | call f args _ => .function f :: args
  | done (.value v) | done (.returned v) => [v]
  | _ => []

end Control

namespace Config

def boundaries (c : Config) : List Frame := c.frames.filter Frame.isBoundary

def values (c : Config) : List Value := c.control.values ++ c.frames.flatMap Frame.values

def Fits (final : Awaited) (c : Config) : Prop :=
  ∀ awaited ∈ c.control.gives?, Frame.Fit final awaited c.frames

/-- The value is no function, or it is at hand, or a variable has it. -/
def Provides (locate : Locator) (c : Config) (v : Value) : Prop :=
  (∀ f, v ≠ .function f) ∨ v ∈ c.values ∨
    ∃ name id h, locate c.machine name id = some h ∧ c.machine.store.read? h name = some v

def Calls (c : Config) (f : Function) (args : List Value) : Prop :=
  (∃ line, c.control = .call f args line) ∧ c.machine.mayCall

inductive Effect (locate : Locator) (c : Config) : Config → Prop where
  | stay {control : Control} {frames : List Frame} (output : Output) :
    frames.filter Frame.isBoundary = c.boundaries →
      Effect locate c ⟨control, frames, { c.machine with output }⟩
  | define {control : Control} {frames : List Frame} {name : Name} {v : Value} (functions : Nat) :
    frames.filter Frame.isBoundary = c.boundaries →
      (∀ f, v = .function f → f.closure = c.machine.current ∨ v ∈ c.values) →
        Effect locate c ⟨control, frames, { c.machine.define name v with functions }⟩
  | assign {control : Control} {frames : List Frame} {name : Name} {id : NodeId} {h : ScopeId}
    {v : Value} :
    frames.filter Frame.isBoundary = c.boundaries → locate c.machine name id = some h →
      v ∈ c.values →
        Effect locate c
          ⟨control, frames, { c.machine with store := c.machine.store.define h name v }⟩
  | openBlock {control : Control} {frames : List Frame} :
    frames.filter Frame.isBoundary = .block c.machine.current :: c.boundaries →
      Effect locate c ⟨control, frames, c.machine.openScope c.machine.current⟩
  | enterCall {control : Control} {frames : List Frame} {f : Function} {args : List Value} :
    c.Calls f args → frames.filter Frame.isBoundary = .call c.machine.current :: c.boundaries →
      Effect locate c ⟨control, frames, c.machine.enterCall f args⟩
  | closeBlock {control : Control} {frames : List Frame} {outer : ScopeId} :
    c.frames = .block outer :: frames →
      Effect locate c ⟨control, frames, { c.machine with current := outer }⟩
  | leaveCall {control : Control} {frames : List Frame} {caller : ScopeId} :
    c.frames = .call caller :: frames →
      Effect locate c ⟨control, frames, c.machine.leaveCall caller⟩

section Fits
variable {locate : Locator} {final : Awaited} {frames : List Frame} {m : Machine}

/-- After an error no frame waits in vain. -/
theorem fits_failed {e : RuntimeError} : Fits final ⟨.done (.failed e), frames, m⟩ := nofun

theorem fits_ofExcept {line : Nat} {r : Except Mishap Value} (h : Frame.Fit final .value frames) :
    (ofExcept line r frames m).Fits final := by
  cases r with
  | ok v => rintro _ ⟨⟩; exact h
  | error cause => exact fits_failed

theorem fits_exec {s : Stmt} (h : Frame.Fit final .statement frames) :
    (exec s frames m).Fits final := by
  cases s with
  | var line name initializer => cases initializer <;> (rintro _ ⟨⟩; first | exact h | exact ⟨rfl, h⟩)
  | result line value => cases value <;> (rintro _ ⟨⟩; first | exact h | exact ⟨rfl, h⟩)
  | function line name params body => rintro _ ⟨⟩; exact h
  | _ => rintro _ ⟨⟩; exact ⟨rfl, h⟩

theorem fits_eval {e : Expr} (h : Frame.Fit final .value frames) :
    (eval locate e frames m).Fits final := by
  cases e with
  | reference line name id =>
    simp only [eval]
    split
    · rintro _ ⟨⟩; exact h
    · exact fits_failed
  | literal | grouping => rintro _ ⟨⟩; exact h
  | _ => rintro _ ⟨⟩; exact ⟨rfl, h⟩

theorem fits_arguments {line : Nat} {callee : Value} {args : List Value} {rest : List Expr}
    (h : Frame.Fit final .value frames) :
    (arguments line callee args rest frames m).Fits final := by
  cases rest with
  | nil =>
    simp only [arguments, apply]
    split
    · split
      · rintro _ ⟨⟩; exact h
      · exact fits_failed
    · exact fits_failed
  | cons e rest => rintro _ ⟨⟩; exact ⟨rfl, h⟩

theorem fits_resume {v : Value} {f : Frame} (h : Frame.Fit final .value (f :: frames)) :
    (resume locate v f frames m).Fits final := by
  obtain ⟨hf, h⟩ := h
  cases f with
  | unary line op => exact fits_ofExcept h
  | right line op left => exact fits_ofExcept h
  | left line op right => rintro _ ⟨⟩; exact ⟨rfl, h⟩
  | logical op right =>
    simp only [resume]
    split <;> (rintro _ ⟨⟩; exact h)
  | assign line name id =>
    simp only [resume]
    split
    · rintro _ ⟨⟩; exact h
    · exact fits_failed
  | callee line args => exact fits_arguments h
  | argument line callee args rest => exact fits_arguments h
  | print line =>
    simp only [resume, print]
    split
    · rintro _ ⟨⟩; exact h
    · exact fits_failed
  | branch thenBranch elseBranch =>
    simp only [resume]
    split
    · rintro _ ⟨⟩; exact h
    · split <;> (rintro _ ⟨⟩; exact h)
  | test condition body =>
    simp only [resume]
    split
    · rintro _ ⟨⟩; exact ⟨rfl, h⟩
    · rintro _ ⟨⟩; exact h
  | discard | var | result => rintro _ ⟨⟩; exact h
  | again | sequence | program | block | call => cases hf

/-- Frames go on to get what they wait for. -/
theorem Fits.step {c : Config} (h : c.Fits final) : (c.step locate).Fits final := by
  obtain ⟨control, frames, m⟩ := c
  cases control with
  | eval e => exact fits_eval (h .value rfl)
  | exec s => exact fits_exec (h .statement rfl)
  | execAll ss => cases ss <;> (rintro _ ⟨⟩; first | exact h .statement rfl | exact ⟨rfl, h .statement rfl⟩)
  | program ss => cases ss <;> (rintro _ ⟨⟩; first | exact h .statement rfl | exact ⟨rfl, h .statement rfl⟩)
  | call f args line =>
    simp only [Config.step, call]
    split
    · rintro _ ⟨⟩; exact ⟨rfl, h .value rfl⟩
    · exact fits_failed
  | done s =>
    cases frames with
    | nil => exact h
    | cons f frames =>
      cases s with
      | value v => exact fits_resume (h .value rfl)
      | normal =>
        obtain ⟨hf, h⟩ := h .statement rfl
        cases f with
        | again => rintro _ ⟨⟩; exact ⟨rfl, h⟩
        | sequence | program | block | call => rintro _ ⟨⟩; exact h
        | _ => cases hf
      | returned v =>
        obtain ⟨hf, h⟩ := h .statement rfl
        cases f with
        | again | sequence | program | block | call => rintro _ ⟨⟩; exact h
        | _ => cases hf
      | failed e => cases f <;> exact fits_failed

end Fits

section Values
variable {locate : Locator} {c : Config} {frames : List Frame} {m : Machine}

theorem provides_all {control : Control} (hc : ∀ v ∈ control.values, c.Provides locate v)
    (hf : ∀ v ∈ frames.flatMap Frame.values, v ∈ c.values) :
    ∀ v ∈ values ⟨control, frames, m⟩, c.Provides locate v := by
  intro v hv
  rcases List.mem_append.mp hv with hv | hv
  · exact hc v hv
  · exact .inr (.inl (hf v hv))

/-- Where the values were at hand before. -/
theorem provides_of_subset {c' : Config} (h : c'.values ⊆ c.values) :
    ∀ v ∈ c'.values, c.Provides locate v :=
  fun _ hv => .inr (.inl (h hv))

/-- Where all values that are left wait on frames. -/
theorem provides_frames {control : Control} (hc : control.values = [])
    (hf : ∀ v ∈ frames.flatMap Frame.values, v ∈ c.values) :
    ∀ v ∈ values ⟨control, frames, m⟩, c.Provides locate v := by
  refine provides_all ?_ hf
  rw [hc]
  exact List.forall_mem_nil _

theorem provides_ofExcept {line : Nat} {r : Except Mishap Value}
    (hr : ∀ v, r = .ok v → ∀ f, v ≠ .function f)
    (hf : ∀ v ∈ frames.flatMap Frame.values, v ∈ c.values) :
    ∀ v ∈ (ofExcept line r frames m).values, c.Provides locate v := by
  cases r with
  | ok v => exact provides_all (by rintro _ (_ | ⟨_, ⟨⟩⟩); exact .inl (hr v rfl)) hf
  | error cause => exact provides_frames rfl hf

theorem provides_eval {e : Expr} :
    ∀ v ∈ (eval locate e frames m).values, Provides locate ⟨.eval e, frames, m⟩ v := by
  have hf : ∀ v ∈ frames.flatMap Frame.values, v ∈ values ⟨.eval e, frames, m⟩ := fun v hv => hv
  cases e with
  | literal line l =>
    refine provides_all ?_ hf
    rintro _ (_ | ⟨_, ⟨⟩⟩)
    exact .inl (Value.ofLiteral_ne_function l)
  | reference line name id =>
    simp only [eval]
    split
    · next v hv =>
      obtain ⟨h, hl, hr⟩ := Option.bind_eq_some_iff.mp hv
      refine provides_all ?_ hf
      rintro _ (_ | ⟨_, ⟨⟩⟩)
      exact .inr (.inr ⟨name, id, h, hl, hr⟩)
    · exact provides_frames rfl hf
  | _ => exact provides_of_subset (List.Subset.refl _)

theorem provides_exec {s : Stmt} :
    ∀ v ∈ (exec s frames m).values, Provides locate ⟨.exec s, frames, m⟩ v := by
  cases s with
  | var line name initializer => cases initializer <;> exact provides_of_subset (List.Subset.refl _)
  | result line value =>
    cases value with
    | none =>
      refine provides_all ?_ fun v hv => hv
      rintro _ (_ | ⟨_, ⟨⟩⟩)
      exact .inl (Value.ofLiteral_ne_function .nil)
    | some e => exact provides_of_subset (List.Subset.refl _)
  | _ => exact provides_of_subset (List.Subset.refl _)

theorem arguments_values {line : Nat} {callee : Value} {args : List Value} {rest : List Expr} :
    (arguments line callee args rest frames m).values ⊆
      callee :: args ++ frames.flatMap Frame.values := by
  cases rest with
  | nil =>
    simp only [arguments, apply]
    split
    · split <;> simp [values, Control.values, fail]
    · simp [values, Control.values, fail]
  | cons e rest => simp [arguments, values, Control.values, Frame.values]

theorem provides_resume {v : Value} {f : Frame} :
    ∀ w ∈ (resume locate v f frames m).values, Provides locate ⟨.done (.value v), f :: frames, m⟩ w := by
  have hf : ∀ w ∈ frames.flatMap Frame.values, w ∈ values ⟨.done (.value v), f :: frames, m⟩ := by
    simp +contextual [values]
  have hv : ∀ w ∈ (Control.done (.value v)).values,
      Provides locate ⟨.done (.value v), f :: frames, m⟩ w :=
    fun w hw => .inr (.inl (List.mem_append_left _ hw))
  cases f with
  | unary line op => exact provides_ofExcept (fun w hw => UnaryOp.apply_ne_function hw) hf
  | right line op left => exact provides_ofExcept (fun w hw => BinaryOp.apply_ne_function hw) hf
  | left line op right =>
    exact provides_of_subset (by simp [resume, values, Control.values, Frame.values])
  | logical op right =>
    simp only [resume]
    split
    · exact provides_all hv hf
    · exact provides_frames rfl hf
  | assign line name id =>
    simp only [resume]
    split
    · exact provides_all hv hf
    · exact provides_frames rfl hf
  | callee line args =>
    refine provides_of_subset (List.Subset.trans arguments_values ?_)
    simp [values, Control.values, Frame.values]
  | argument line callee args rest =>
    refine provides_of_subset (List.Subset.trans arguments_values ?_)
    simp [values, Control.values, Frame.values]
  | print line =>
    simp only [resume, print]
    split <;> exact provides_frames rfl hf
  | result => exact provides_all hv hf
  | branch thenBranch elseBranch =>
    simp only [resume]
    split
    · exact provides_frames rfl hf
    · split <;> exact provides_frames rfl hf
  | test condition body =>
    simp only [resume]
    split
    · exact provides_frames rfl (by simpa [Frame.values] using hf)
    · exact provides_frames rfl hf
  | _ => exact provides_frames rfl hf

/-- All values that are at hand after a step are provided before it. -/
theorem step_provides (locate : Locator) (c : Config) :
    ∀ v ∈ (c.step locate).values, c.Provides locate v := by
  obtain ⟨control, frames, m⟩ := c
  cases control with
  | eval e => exact provides_eval
  | exec s => exact provides_exec
  | execAll ss => cases ss <;> exact provides_of_subset (List.Subset.refl _)
  | program ss => cases ss <;> exact provides_of_subset (List.Subset.refl _)
  | call f args line =>
    simp only [step, call]
    split <;> exact provides_of_subset (List.subset_append_right _ _)
  | done s =>
    cases frames with
    | nil => exact provides_of_subset (List.Subset.refl _)
    | cons f frames =>
      have hf {k : Control} : ∀ v ∈ frames.flatMap Frame.values, v ∈ values ⟨k, f :: frames, m⟩ := by
        simp +contextual [values]
      cases s with
      | value v => exact provides_resume
      | normal =>
        cases f with
        | again => exact provides_frames rfl (by simpa [Frame.values] using hf)
        | call =>
          refine provides_all ?_ hf
          rintro _ (_ | ⟨_, ⟨⟩⟩)
          exact .inl (Value.ofLiteral_ne_function .nil)
        | _ => exact provides_frames rfl hf
      | returned v =>
        have hv : ∀ w ∈ [v], Provides locate ⟨.done (.returned v), f :: frames, m⟩ w := fun w hw =>
          .inr (.inl (List.mem_append_left _ hw))
        cases f with
        | program => exact provides_frames rfl hf
        | _ => exact provides_all hv hf
      | failed e => cases f <;> exact provides_frames rfl hf

end Values

section Effect
variable {locate : Locator} {c : Config} {frames : List Frame} {m : Machine}

theorem effect_ofExcept {line : Nat} {r : Except Mishap Value}
    (hf : frames.filter Frame.isBoundary = c.boundaries) :
    c.Effect locate (ofExcept line r frames c.machine) := by
  cases r <;> exact .stay _ hf

theorem effect_eval {e : Expr} :
    Effect locate ⟨.eval e, frames, m⟩ (eval locate e frames m) := by
  cases e with
  | reference line name id =>
    simp only [eval]
    split <;> exact .stay _ rfl
  | _ => exact .stay _ rfl

theorem effect_exec {s : Stmt} : Effect locate ⟨.exec s, frames, m⟩ (exec s frames m) := by
  cases s with
  | var line name initializer =>
    cases initializer with
    | none => exact .define _ rfl nofun
    | some e => exact .stay _ rfl
  | block line body => exact .openBlock rfl
  | function line name params body =>
    refine .define _ rfl ?_
    rintro _ ⟨⟩
    exact .inl rfl
  | result line value => cases value <;> exact .stay _ rfl
  | _ => exact .stay _ rfl

theorem effect_arguments {line : Nat} {callee : Value} {args : List Value} {rest : List Expr}
    (hf : frames.filter Frame.isBoundary = c.boundaries) :
    c.Effect locate (arguments line callee args rest frames c.machine) := by
  cases rest with
  | nil =>
    simp only [arguments, apply]
    split
    · split <;> exact .stay _ hf
    · exact .stay _ hf
  | cons e rest => exact .stay _ hf

theorem effect_resume {v : Value} {f : Frame} (h : f.awaits.1 = .value) :
    Effect locate ⟨.done (.value v), f :: frames, m⟩ (resume locate v f frames m) := by
  have hv : v ∈ values ⟨.done (.value v), f :: frames, m⟩ := List.mem_cons_self
  cases f with
  | unary line op => exact effect_ofExcept rfl
  | right line op left => exact effect_ofExcept rfl
  | logical op right =>
    simp only [resume]
    split <;> exact .stay _ rfl
  | assign line name id =>
    simp only [resume]
    split
    · next a ha => exact .assign rfl ha hv
    · exact .stay _ rfl
  | callee line args => exact effect_arguments rfl
  | argument line callee args rest => exact effect_arguments rfl
  | print line =>
    simp only [resume, print]
    split <;> exact .stay _ rfl
  | var name => exact .define _ rfl fun _ _ => .inr hv
  | branch thenBranch elseBranch =>
    simp only [resume]
    split
    · exact .stay _ rfl
    · split <;> exact .stay _ rfl
  | test condition body =>
    simp only [resume]
    split <;> exact .stay _ rfl
  | left | discard | result => exact .stay _ rfl
  | again | sequence | program | block | call => cases h

/-- Where frames get what they wait for, a step has one of the seven effects. -/
theorem Fits.effect {final : Awaited} (h : c.Fits final) : c.Effect locate (c.step locate) := by
  obtain ⟨control, frames, m⟩ := c
  cases control with
  | eval e => exact effect_eval
  | exec s => exact effect_exec
  | execAll ss => cases ss <;> exact .stay _ rfl
  | program ss => cases ss <;> exact .stay _ rfl
  | call f args line =>
    simp only [Config.step, call]
    split
    · next hmay => exact .enterCall ⟨⟨line, rfl⟩, hmay⟩ rfl
    · exact .stay _ rfl
  | done s =>
    cases frames with
    | nil => exact .stay _ rfl
    | cons f frames =>
      cases s with
      | value v => exact effect_resume (h .value rfl).1
      | normal =>
        have hf := (h .statement rfl).1
        cases f with
        | block outer => exact .closeBlock rfl
        | call caller => exact .leaveCall rfl
        | again | sequence | program => exact .stay _ rfl
        | _ => cases hf
      | returned v =>
        cases f with
        | block outer => exact .closeBlock rfl
        | call caller => exact .leaveCall rfl
        | _ => exact .stay _ rfl
      | failed e =>
        cases f with
        | block outer => exact .closeBlock rfl
        | call caller => exact .leaveCall rfl
        | _ => exact .stay _ rfl

end Effect

end Config

inductive Part where
  | expr (e : Expr)
  | stmt (s : Stmt)
  | body (ss : List Stmt) (scope : ScopeId)
  | call (f : Function) (args : List Value) (line : Nat)

namespace Part

/-- Statements that run in another scope come back from there. -/
def start (m : Machine) : Part → Config
  | expr e => ⟨.eval e, [], m⟩
  | stmt s => ⟨.exec s, [], m⟩
  | body ss scope => ⟨.execAll ss, [.block m.current], { m with current := scope }⟩
  | call f args line => ⟨.call f args line, [], m⟩

def final : Part → Awaited
  | expr _ | call _ _ _ => .value
  | stmt _ | body _ _ => .statement

theorem fits_start (p : Part) (m : Machine) : (p.start m).Fits p.final := by
  cases p <;> (rintro _ ⟨⟩; first | rfl | exact ⟨rfl, rfl⟩)

end Part
end LoxLang
