import LoxLang.Proofs.Machine.Restore
import LoxLang.Proofs.Scoping.Returns

/-!
Where a `return` leads. In the run of an accepted program a call waits below every `return` that is carried
out, and the innermost one gets the value; nothing else takes it, and nothing runs on the way.
-/
namespace LoxLang

namespace Frame

def called (frames : List Frame) : Bool := frames.any isCall

/-- The innermost call, and what lies inside it. -/
theorem exists_call {frames : List Frame} (h : called frames = true) :
    ∃ inner caller outer, frames = inner ++ .call caller :: outer ∧ called inner = false := by
  induction frames with
  | nil => cases h
  | cons f frames ih =>
    by_cases hf : f.isCall
    · cases f with
      | call caller => exact ⟨[], caller, frames, rfl, rfl⟩
      | _ => cases hf
    · rw [Bool.not_eq_true] at hf
      obtain ⟨inner, caller, outer, rfl, hinner⟩ := ih (by rwa [called, List.any_cons, hf] at h)
      exact ⟨f :: inner, caller, outer, rfl, by rwa [called, List.any_cons, hf]⟩

/-- Without a call below it, the frame holds no `return`; with one, it is not the frame of a program. -/
def Keeps (called : Bool) : Frame → Prop
  | branch thenBranch elseBranch =>
    called = false → thenBranch.KeepsReturns ∧ ∀ s ∈ elseBranch, s.KeepsReturns
  | test _ body | again _ body => called = false → body.KeepsReturns
  | sequence rest => called = false → Stmt.AllKeepReturns rest
  | program rest => called = false ∧ Stmt.AllKeepReturns rest
  | result => called = true
  | _ => True

def AllKeep : List Frame → Prop
  | [] => True
  | f :: fs => f.Keeps (called fs) ∧ AllKeep fs

/-- A program's frame has no call below it. -/
theorem AllKeep.not_mem_program {inner outer : List Frame} {caller : ScopeId}
    (h : AllKeep (inner ++ .call caller :: outer)) (rest : List Stmt) : .program rest ∉ inner := by
  induction inner with
  | nil => exact List.not_mem_nil
  | cons f inner ih =>
    rintro (_ | hmem)
    · have hnone := h.1.1
      simp [called, isCall] at hnone
    · exact ih h.2 ‹_›

end Frame

def Control.Keeps (called : Bool) : Control → Prop
  | .exec s => called = false → s.KeepsReturns
  | .execAll ss => called = false → Stmt.AllKeepReturns ss
  | .program ss => called = false ∧ Stmt.AllKeepReturns ss
  | .done (.returned _) => called = true
  | _ => True

namespace Config

structure Keeps (c : Config) : Prop where
  control : c.control.Keeps (Frame.called c.frames)
  frames : Frame.AllKeep c.frames

section Step
variable {locate : Locator} {frames : List Frame} {m : Machine}

theorem keeps_ofExcept {line : Nat} {r : Except Mishap Value} (hf : Frame.AllKeep frames) :
    (ofExcept line r frames m).Keeps := by
  cases r <;> exact ⟨trivial, hf⟩

theorem keeps_eval {e : Expr} (hf : Frame.AllKeep frames) : (eval locate e frames m).Keeps := by
  cases e with
  | reference line name id =>
    simp only [eval]
    split <;> exact ⟨trivial, hf⟩
  | literal | grouping => exact ⟨trivial, hf⟩
  | _ => exact ⟨trivial, trivial, hf⟩

theorem keeps_exec {s : Stmt} (hs : Frame.called frames = false → s.KeepsReturns)
    (hf : Frame.AllKeep frames) : (exec s frames m).Keeps := by
  cases s with
  | var line name initializer =>
    cases initializer with
    | none => exact ⟨trivial, hf⟩
    | some e => exact ⟨trivial, trivial, hf⟩
  | function line name params body => exact ⟨trivial, hf⟩
  | expression | print => exact ⟨trivial, trivial, hf⟩
  | block line body => exact ⟨hs, trivial, hf⟩
  | branch line condition thenBranch elseBranch =>
    refine ⟨trivial, fun hnone => ?_, hf⟩
    have hs := hs hnone
    cases elseBranch with
    | none => exact ⟨hs, nofun⟩
    | some s => exact ⟨hs.1, by rintro _ ⟨⟩; exact hs.2⟩
  | loop line condition body => exact ⟨trivial, hs, hf⟩
  | result line value =>
    have hcalled : Frame.called frames = true := by
      by_contra hnone
      exact hs (Bool.not_eq_true _ ▸ hnone)
    cases value with
    | none => exact ⟨hcalled, hf⟩
    | some e => exact ⟨trivial, hcalled, hf⟩

theorem keeps_arguments {line : Nat} {callee : Value} {args : List Value} {rest : List Expr}
    (hf : Frame.AllKeep frames) : (arguments line callee args rest frames m).Keeps := by
  cases rest with
  | nil =>
    simp only [arguments, apply]
    split
    · split <;> exact ⟨trivial, hf⟩
    · exact ⟨trivial, hf⟩
  | cons e rest => exact ⟨trivial, trivial, hf⟩

theorem keeps_resume {v : Value} {f : Frame} (h : f.Keeps (Frame.called frames))
    (hf : Frame.AllKeep frames) : (resume locate v f frames m).Keeps := by
  cases f with
  | unary | right => exact keeps_ofExcept hf
  | left => exact ⟨trivial, trivial, hf⟩
  | logical | assign | print =>
    simp only [resume, print]
    split <;> exact ⟨trivial, hf⟩
  | callee | argument => exact keeps_arguments hf
  | result => exact ⟨h, hf⟩
  | branch thenBranch elseBranch =>
    simp only [resume]
    split
    · exact ⟨fun hnone => (h hnone).1, hf⟩
    · split
      · next s => exact ⟨fun hnone => (h hnone).2 s rfl, hf⟩
      · exact ⟨trivial, hf⟩
  | test condition body =>
    simp only [resume]
    split
    · exact ⟨h, h, hf⟩
    · exact ⟨trivial, hf⟩
  | _ => exact ⟨trivial, hf⟩

theorem Keeps.step {c : Config} (h : c.Keeps) : (c.step locate).Keeps := by
  obtain ⟨control, frames, m⟩ := c
  obtain ⟨hcontrol, hf⟩ := h
  cases control with
  | eval e => exact keeps_eval hf
  | exec s => exact keeps_exec hcontrol hf
  | execAll ss =>
    cases ss with
    | nil => exact ⟨trivial, hf⟩
    | cons s ss => exact ⟨fun hnone => (hcontrol hnone).1, fun hnone => (hcontrol hnone).2, hf⟩
  | program ss =>
    cases ss with
    | nil => exact ⟨trivial, hf⟩
    | cons s ss => exact ⟨fun _ => hcontrol.2.1, ⟨hcontrol.1, hcontrol.2.2⟩, hf⟩
  | call f args line =>
    simp only [Config.step, call]
    split
    · exact ⟨fun hnone => (by cases hnone), trivial, hf⟩
    · exact ⟨trivial, hf⟩
  | done s =>
    cases frames with
    | nil => exact ⟨hcontrol, hf⟩
    | cons f frames =>
      obtain ⟨h, hf⟩ := hf
      cases s with
      | value v => exact keeps_resume h hf
      | normal =>
        cases f with
        | again condition body => exact ⟨trivial, h, hf⟩
        | sequence | program => exact ⟨h, hf⟩
        | _ => exact ⟨trivial, hf⟩
      | returned v =>
        cases f with
        | program rest => exact ⟨h, hf⟩
        | call caller => exact ⟨trivial, hf⟩
        | _ => exact ⟨hcontrol, hf⟩
      | failed e => cases f <;> exact ⟨trivial, hf⟩

theorem Keeps.iterate {c : Config} (h : c.Keeps) (n : Nat) : ((Config.step locate)^[n] c).Keeps := by
  induction n generalizing c with
  | zero => exact h
  | succ n ih => exact ih h.step

/-- Only a call or the end of a program's statement takes a returned value; anything else is left. -/
theorem iterate_returned {v : Value} {inner : List Frame} (hcalls : Frame.called inner = false)
    (hprograms : ∀ rest, Frame.program rest ∉ inner) {i : Nat} (hi : i ≤ inner.length) :
    ∃ scope, (Config.step locate)^[i] ⟨.done (.returned v), inner ++ frames, m⟩ =
      ⟨.done (.returned v), inner.drop i ++ frames, { m with current := scope }⟩ := by
  induction inner generalizing i m with
  | nil =>
    obtain rfl : i = 0 := Nat.le_zero.mp hi
    exact ⟨m.current, rfl⟩
  | cons f inner ih =>
    cases i with
    | zero => exact ⟨m.current, rfl⟩
    | succ i =>
      obtain ⟨hf, hcalls⟩ := Bool.or_eq_false_iff.mp hcalls
      have hinner : ∀ rest, Frame.program rest ∉ inner := fun rest h =>
        hprograms rest (List.mem_cons_of_mem f h)
      have hlast := Nat.le_of_succ_le_succ hi
      cases f with
      | call caller => exact absurd hf nofun
      | program rest => exact absurd List.mem_cons_self (hprograms rest)
      | block outer =>
        obtain ⟨scope, h⟩ := ih (m := { m with current := outer }) hcalls hinner hlast
        exact ⟨scope, h⟩
      | _ => exact ih hcalls hinner hlast

end Step

/-- The innermost call gets the returned value and goes on with it. On the way there frames are dropped and
scopes are left, and nothing else happens. -/
def TakenByCall (locate : Locator) (v : Value) (frames : List Frame) (m : Machine) : Prop :=
  ∃ inner caller outer, frames = inner ++ .call caller :: outer ∧
    (∀ i ≤ inner.length, ∃ scope, (Config.step locate)^[i] ⟨.done (.returned v), frames, m⟩ =
      ⟨.done (.returned v), inner.drop i ++ .call caller :: outer, { m with current := scope }⟩) ∧
    (Config.step locate)^[inner.length + 1] ⟨.done (.returned v), frames, m⟩ =
      ⟨.done (.value v), outer, m.leaveCall caller⟩

section Run
variable {locate : Locator} {c : Config}

theorem Keeps.takenByCall {v : Value} {frames : List Frame} {m : Machine}
    (h : Keeps ⟨.done (.returned v), frames, m⟩) : TakenByCall locate v frames m := by
  obtain ⟨inner, caller, outer, rfl, hcalls⟩ := Frame.exists_call h.control
  have hprograms := h.frames.not_mem_program
  refine ⟨inner, caller, outer, rfl, fun i hi => iterate_returned hcalls hprograms hi, ?_⟩
  obtain ⟨scope, hscope⟩ : ∃ scope, (Config.step locate)^[inner.length] _ = _ :=
    iterate_returned hcalls hprograms (Nat.le_refl _)
  rw [Function.iterate_succ_apply', hscope, List.drop_length]
  rfl

theorem Fits.iterate {final : Awaited} (h : c.Fits final) (n : Nat) :
    ((Config.step locate)^[n] c).Fits final := by
  induction n generalizing c with
  | zero => exact h
  | succ n ih => exact ih h.step

/-- Where no call is left, no returned value is. -/
theorem Keeps.normal_or_failed (h : c.Keeps) (hfit : c.Fits .statement) {n : Nat} {signal : Signal}
    {m : Machine} (hrun : c.runFor locate n = some (signal, m)) :
    signal = .normal ∨ ∃ e, signal = .failed e := by
  have hkeeps : ((Config.step locate)^[n] c).Keeps := h.iterate n
  have hfits : ((Config.step locate)^[n] c).Fits .statement := hfit.iterate n
  rw [runFor_eq_some.mp hrun] at hkeeps hfits
  cases signal with
  | value v => cases hfits _ rfl
  | normal => exact .inl rfl
  | returned v => cases hkeeps.control
  | failed e => exact .inr ⟨e, rfl⟩

end Run
end Config

/-- No statement of an accepted program ends with a returned value, and neither does the program, whatever
functions the machine knows: at each moment of the run, the innermost call takes a returned value. -/
theorem Machine.return_taken_by_call {program : List Stmt} {T : Distances}
    (hT : Scoping.distances program = .ok T) (m : Machine) (control : Control)
    (hcontrol : control = .program program ∨ ∃ s ∈ program, control = .exec s) :
    (∀ steps signal m', m.run steps control = some (signal, m') →
      signal = .normal ∨ ∃ e, signal = .failed e) ∧
    ∀ k v frames m',
      (Config.step .byDistance)^[k] ⟨control, [], m⟩ = ⟨.done (.returned v), frames, m'⟩ →
        Config.TakenByCall .byDistance v frames m' := by
  have hprogram := Scoping.allKeepReturns_of_distances hT
  have hkeeps : Config.Keeps ⟨control, [], m⟩ := by
    obtain rfl | ⟨s, hs, rfl⟩ := hcontrol
    · exact ⟨⟨rfl, hprogram⟩, trivial⟩
    · exact ⟨fun _ => Stmt.keepsReturns_of_mem hprogram hs, trivial⟩
  have hfit : Config.Fits .statement ⟨control, [], m⟩ := by
    obtain rfl | ⟨s, hs, rfl⟩ := hcontrol <;> rintro _ ⟨⟩ <;> rfl
  refine ⟨fun steps signal m' hrun => hkeeps.normal_or_failed hfit hrun, fun k v frames m' hk => ?_⟩
  have hthen : ((Config.step .byDistance)^[k] ⟨control, [], m⟩).Keeps := hkeeps.iterate k
  rw [hk] at hthen
  exact hthen.takenByCall

/-- A function that returns from within a block. -/
theorem Machine.return_taken_by_call_in_block :
    let body : List Stmt := [.block 1 [.result 1 (some (.literal 1 (.string "x")))]]
    let call : Stmt := .print 1 (.call 1 (.reference 1 "f" 0) [])
    let program : List Stmt := [.function 1 "f" [] body, call]
    let m := start none (.empty none)
    Scoping.distances program = .ok ∅ ∧ (∃ m', m.run 22 (.program program) = some (.normal, m')) ∧
      ∃ frames m', (Config.step .byDistance)^[15] ⟨.program program, [], m⟩ =
          ⟨.done (.returned (.string "x")), frames, m'⟩ ∧
        frames.length = 6 ∧ Config.TakenByCall .byDistance (.string "x") frames m' := by
  intro body call program m
  have hT : Scoping.distances program = .ok ∅ := by rfl
  have hrun : (m.run 22 (.program program)).map Prod.fst = some .normal := by rfl
  obtain ⟨⟨signal, m'⟩, hrun, rfl⟩ := Option.map_eq_some_iff.mp hrun
  obtain ⟨-, htaken⟩ := return_taken_by_call hT m (.program program) (.inl rfl)
  let c := (Config.step .byDistance)^[15] ⟨.program program, [], m⟩
  have hc : c = ⟨.done (.returned (.string "x")), c.frames, c.machine⟩ := by rfl
  exact ⟨hT, ⟨m', hrun⟩, c.frames, c.machine, hc, by rfl, htaken 15 _ _ _ hc⟩

end LoxLang
