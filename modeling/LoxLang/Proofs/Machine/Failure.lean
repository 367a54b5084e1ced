import LoxLang.Proofs.Machine.Run

/-!
Failure: each error is raised for one of four reasons, and then the run does nothing but end with it.
-/
namespace LoxLang

/-- What is written comes after what was there. -/
theorem Output.exists_write_eq (o : Output) (text : String) :
    ∃ rest, (o.write text).bytes = o.bytes ++ rest := by
  unfold write
  split <;> exact ⟨_, rfl⟩

namespace Config

inductive LooksUp : Config → Nat → Name → NodeId → Prop where
  | reference (line : Nat) (name : Name) (id : NodeId) (frames : List Frame) (m : Machine) :
    LooksUp ⟨.eval (.reference line name id), frames, m⟩ line name id
  | assign (line : Nat) (name : Name) (id : NodeId) (v : Value) (frames : List Frame) (m : Machine) :
    LooksUp ⟨.done (.value v), .assign line name id :: frames, m⟩ line name id

def Raises (locate : Locator) (c : Config) (e : RuntimeError) : Prop :=
  (c.step locate).control = .done (.failed e) ∧ ∀ e', c.control ≠ .done (.failed e')

variable {locate : Locator} {c : Config} {frames : List Frame} {m : Machine} {e : RuntimeError}

def misuses : Mishap → Prop
  | .operandNotNumber | .operandsNotNumbers | .operandsNotAddable | .notCallable
  | .wrongArity _ _ => True
  | _ => False

def AtCall (c : Config) (line : Nat) : Prop := ∃ f args, c.control = .call f args line

def Prints (c : Config) (line : Nat) (text : String) : Prop :=
  ∃ v fs, c.control = .done (.value v) ∧ c.frames = .print line :: fs ∧ text = v.text ++ "\n"

inductive FailsBy (locate : Locator) (c : Config) : RuntimeError → Prop where
  | undefined {line : Nat} {name : Name} {id : NodeId} :
    c.LooksUp line name id →
      (locate c.machine name id).bind (c.machine.store.read? · name) = none →
        FailsBy locate c ⟨.undefinedVariable name, line⟩
  | misuse {cause : Mishap} {line : Nat} : misuses cause → FailsBy locate c ⟨cause, line⟩
  | overflow {line : Nat} :
    c.AtCall line → c.machine.mayCall = false → FailsBy locate c ⟨.stackOverflow, line⟩
  | full {line : Nat} {text : String} :
    c.Prints line text → c.machine.output.fits text = false → FailsBy locate c ⟨.outputFull, line⟩

theorem UnaryOp.misuses_of_error {op : UnaryOp} {v : Value} {cause : Mishap}
    (h : op.apply v = .error cause) : misuses cause := by
  unfold UnaryOp.apply at h
  split at h <;> cases h
  trivial

theorem BinaryOp.misuses_of_error {op : BinaryOp} {v w : Value} {cause : Mishap}
    (h : op.apply v w = .error cause) : misuses cause := by
  have hnumbers {f : Float → Float → Value} (h : Value.onNumbers f v w = .error cause) :
      misuses cause := by
    unfold Value.onNumbers at h
    split at h <;> cases h
    trivial
  cases op
  case add =>
    simp only [BinaryOp.apply, Value.add] at h
    split at h <;> cases h
    trivial
  case equal | notEqual => cases h
  all_goals exact hnumbers h

theorem failsBy_ofExcept {c : Config} {l : Nat} {r : Except Mishap Value}
    (hr : ∀ cause, r = .error cause → misuses cause)
    (h : (ofExcept l r frames m).control = .done (.failed e)) : c.FailsBy locate e := by
  cases r with
  | ok v => cases h
  | error cause => cases h; exact .misuse (hr cause rfl)

theorem failsBy_eval {x : Expr} (h : (eval locate x frames m).control = .done (.failed e)) :
    FailsBy locate ⟨.eval x, frames, m⟩ e := by
  cases x with
  | reference l name id =>
    simp only [eval] at h
    split at h
    · cases h
    · next hnone => cases h; exact .undefined (.reference ..) hnone
  | _ => cases h

theorem exec_ne_failed (s : Stmt) : (exec s frames m).control ≠ .done (.failed e) := by
  unfold exec
  split <;> simp [normal]

theorem failsBy_arguments {c : Config} {l : Nat} {callee : Value} {args : List Value}
    {rest : List Expr}
    (h : (arguments l callee args rest frames m).control = .done (.failed e)) :
    c.FailsBy locate e := by
  unfold arguments at h
  split at h
  · unfold apply at h
    split at h
    · split at h <;> cases h
      exact .misuse trivial
    · cases h
      exact .misuse trivial
  · cases h

theorem failsBy_print {l : Nat} {v : Value}
    (h : (print l v frames m).control = .done (.failed e)) :
    FailsBy locate ⟨.done (.value v), .print l :: frames, m⟩ e := by
  unfold print at h
  dsimp only at h
  split at h
  · cases h
  · next hfits => cases h; exact .full ⟨v, frames, rfl, rfl, rfl⟩ (Bool.eq_false_iff.mpr hfits)

theorem failsBy_resume {v : Value} {f : Frame}
    (h : (resume locate v f frames m).control = .done (.failed e)) :
    FailsBy locate ⟨.done (.value v), f :: frames, m⟩ e := by
  cases f with
  | unary l op => exact failsBy_ofExcept (fun _ => UnaryOp.misuses_of_error) h
  | right l op left => exact failsBy_ofExcept (fun _ => BinaryOp.misuses_of_error) h
  | assign l x id =>
    simp only [resume] at h
    split at h
    · cases h
    · next hnone =>
      cases h
      have hnone : (locate m x id).bind (m.store.read? · x) = none := by rw [hnone]; rfl
      exact .undefined (.assign ..) hnone
  | callee l args => exact failsBy_arguments h
  | argument l callee args rest => exact failsBy_arguments h
  | print l => exact failsBy_print h
  | logical | test =>
    simp only [resume] at h
    split at h <;> cases h
  | branch =>
    simp only [resume] at h
    split at h
    · cases h
    · split at h <;> cases h
  | _ => cases h

/-- Each failure has one of four reasons. -/
theorem Raises.failsBy {c : Config} (h : c.Raises locate e) : c.FailsBy locate e := by
  obtain ⟨hstep, hfresh⟩ := h
  obtain ⟨control, frames, m⟩ := c
  cases control with
  | eval x => exact failsBy_eval hstep
  | exec s => exact absurd hstep (exec_ne_failed s)
  | execAll ss => cases ss <;> cases hstep
  | program ss => cases ss <;> cases hstep
  | call f args l =>
    simp only [step, call] at hstep
    split at hstep
    · cases hstep
    · next hmay => cases hstep; exact .overflow ⟨f, args, rfl⟩ (Bool.eq_false_iff.mpr hmay)
  | done s =>
    cases frames with
    | nil => exact absurd hstep (hfresh e)
    | cons f frames =>
      cases s with
      | value v => exact failsBy_resume hstep
      | normal => cases f <;> cases hstep
      | returned v => cases f <;> cases hstep
      | failed e' => exact absurd rfl (hfresh e')

/-- An error takes one frame after the other away and changes nothing else than the scope and the depth. -/
theorem step_failed (locate : Locator) (h : c.control = .done (.failed e)) :
    (c.step locate).control = .done (.failed e) ∧ (c.step locate).frames = c.frames.tail ∧
      (c.step locate).machine.reset = c.machine.reset := by
  obtain ⟨control, frames, m⟩ := c
  obtain rfl : control = .done (.failed e) := h
  cases frames with
  | nil => exact ⟨rfl, rfl, rfl⟩
  | cons f frames => cases f <;> exact ⟨rfl, rfl, rfl⟩

theorem iterate_failed (locate : Locator) (h : c.control = .done (.failed e)) (n : Nat) :
    ((step locate)^[n] c).control = .done (.failed e) ∧
      ((step locate)^[n] c).frames = c.frames.drop n ∧
      ((step locate)^[n] c).machine.reset = c.machine.reset := by
  induction n with
  | zero => exact ⟨h, rfl, rfl⟩
  | succ n ih =>
    obtain ⟨hcontrol, hframes, hreset⟩ := ih
    obtain ⟨hcontrol', hframes', hreset'⟩ := step_failed locate hcontrol
    rw [Function.iterate_succ_apply']
    exact ⟨hcontrol', by rw [hframes', hframes, List.tail_drop], hreset'.trans hreset⟩

/-- Once all frames are away, the run has failed. -/
theorem exists_runFor_of_failed (locate : Locator) (h : c.control = .done (.failed e)) :
    ∃ m', c.runFor locate c.frames.length = some (.failed e, m') ∧ m'.reset = c.machine.reset := by
  obtain ⟨hcontrol, hframes, hreset⟩ := iterate_failed locate h c.frames.length
  rw [List.drop_length] at hframes
  generalize hend : (step locate)^[c.frames.length] c = c' at hcontrol hframes hreset
  obtain ⟨control, frames, m'⟩ := c'
  obtain rfl : control = .done (.failed e) := hcontrol
  obtain rfl : frames = [] := hframes
  exact ⟨m', runFor_eq_some.mpr hend, hreset⟩

/-- An error that a run ends with was raised on the way. -/
theorem exists_raises {n : Nat} (hc : ∀ e', c.control ≠ .done (.failed e'))
    (h : ((step locate)^[n] c).control = .done (.failed e)) :
    ∃ k < n, ((step locate)^[k] c).Raises locate e := by
  induction n generalizing c with
  | zero => exact absurd h (hc e)
  | succ n ih =>
    by_cases hstep : ∃ e', (c.step locate).control = .done (.failed e')
    · obtain ⟨e', he'⟩ := hstep
      obtain ⟨hcontrol, -, -⟩ := iterate_failed locate he' n
      obtain rfl : e' = e := by
        rw [Function.iterate_succ_apply, hcontrol] at h
        cases h
        rfl
      exact ⟨0, Nat.succ_pos n, he', hc⟩
    · obtain ⟨k, hk, hraises⟩ := ih (fun e' he' => hstep ⟨e', he'⟩) h
      exact ⟨k + 1, Nat.succ_lt_succ hk, hraises⟩

/-- What has been written stays. -/
theorem iterate_output (locate : Locator) (n : Nat) (c : Config) :
    ∃ rest, ((step locate)^[n] c).machine.output.bytes = c.machine.output.bytes ++ rest := by
  induction n with
  | zero => exact ⟨.empty, ByteArray.append_empty.symm⟩
  | succ n ih =>
    obtain ⟨rest, hrest⟩ := ih
    rw [Function.iterate_succ_apply']
    obtain hsame | ⟨text, hwrite⟩ := (step_leaves locate ((step locate)^[n] c)).output
    · exact ⟨rest, by rw [hsame, hrest]⟩
    · obtain ⟨more, hmore⟩ := ((step locate)^[n] c).machine.output.exists_write_eq text
      exact ⟨rest ++ more, by rw [hwrite, hmore, hrest, ByteArray.append_assoc]⟩

end Config
end LoxLang
