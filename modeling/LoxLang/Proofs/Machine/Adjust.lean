import LoxLang.Proofs.Machine.Lookup
import LoxLang.Proofs.Machine.Run

/-!
Machines that differ in what a run leaves as it is: the table, the limit of calls and the capacity of the
output. As long as these decide nothing differently, both machines do the same.
-/
namespace LoxLang

structure Adjustment where
  distances : Distances → Distances := id
  limit : Option Nat → Option Nat := id
  capacity : Option Nat → Option Nat := id

def Output.adjust (o : Output) (a : Adjustment) : Output := { o with capacity := a.capacity o.capacity }

def Machine.adjust (m : Machine) (a : Adjustment) : Machine :=
  { m with
    distances := a.distances m.distances
    limit := a.limit m.limit
    output := m.output.adjust a }

def Config.adjust (c : Config) (a : Adjustment) : Config := { c with machine := c.machine.adjust a }

def Output.Agrees (o : Output) (a : Adjustment) (text : String) : Prop :=
  (o.adjust a).fits text = o.fits text ∧ (o.adjust a).write text = (o.write text).adjust a

theorem Machine.bindParams_adjust (params : List Name) (args : List Value) (m : Machine)
    (a : Adjustment) : bindParams params args (m.adjust a) = (bindParams params args m).adjust a := by
  induction params generalizing args m with
  | nil => rfl
  | cons name names ih =>
    cases args with
    | nil => rfl
    | cons v vs => exact ih vs (m.define name v)

namespace Config

variable {locate locate' : Locator} {a : Adjustment} {frames : List Frame} {m : Machine}

theorem arguments_adjust (line : Nat) (callee : Value) (args : List Value) (rest : List Expr) :
    arguments line callee args rest frames (m.adjust a) =
      (arguments line callee args rest frames m).adjust a := by
  unfold arguments
  split
  · unfold apply
    split
    · split <;> rfl
    · rfl
  · rfl

theorem call_adjust {f : Function} {args : List Value} {line : Nat}
    (h : (m.adjust a).mayCall = m.mayCall) :
    call f args line frames (m.adjust a) = (call f args line frames m).adjust a := by
  have henter : (m.adjust a).enterCall f args = (m.enterCall f args).adjust a :=
    Machine.bindParams_adjust f.params args
      ({ m with depth := m.depth + 1 : Machine }.openScope f.closure) a
  unfold call
  rw [henter, h]
  split <;> rfl

theorem print_adjust {line : Nat} {v : Value} (h : m.output.Agrees a (v.text ++ "\n")) :
    print line v frames (m.adjust a) = (print line v frames m).adjust a := by
  have hfits : (m.adjust a).output.fits (v.text ++ "\n") = m.output.fits (v.text ++ "\n") := h.1
  have hwrite : (m.adjust a).output.write (v.text ++ "\n") = (m.output.write (v.text ++ "\n")).adjust a :=
    h.2
  unfold print
  simp only [hfits, hwrite]
  split <;> rfl

theorem ofExcept_adjust (line : Nat) (r : Except Mishap Value) :
    ofExcept line r frames (m.adjust a) = (ofExcept line r frames m).adjust a := by
  cases r <;> rfl

theorem resume_adjust {v : Value} {f : Frame}
    (hlocate : ∀ line name id, f = .assign line name id →
      locate' (m.adjust a) name id = locate m name id)
    (hprint : ∀ line, f = .print line → m.output.Agrees a (v.text ++ "\n")) :
    resume locate' v f frames (m.adjust a) = (resume locate v f frames m).adjust a := by
  cases f with
  | unary line op => exact ofExcept_adjust line _
  | right line op left => exact ofExcept_adjust line _
  | callee line args => exact arguments_adjust line v [] args
  | argument line callee args rest => exact arguments_adjust line callee _ rest
  | print line => exact print_adjust (hprint line rfl)
  | assign line name id =>
    simp only [resume, hlocate line name id rfl]
    split <;> rfl
  | logical | test =>
    simp only [resume]
    split <;> rfl
  | branch thenBranch elseBranch =>
    simp only [resume]
    split
    · rfl
    · split <;> rfl
  | _ => rfl

theorem eval_reference_adjust {line : Nat} {name : Name} {id : NodeId}
    (h : locate' (m.adjust a) name id = locate m name id) :
    eval locate' (.reference line name id) frames (m.adjust a) =
      (eval locate (.reference line name id) frames m).adjust a := by
  have hstore : (m.adjust a).store = m.store := rfl
  simp only [eval, h, hstore]
  cases (locate m name id).bind (m.store.read? · name) <;> rfl

/-- A table matters where a scope is looked up, a limit where a call begins and a capacity where a text
is written. -/
theorem step_adjust {c : Config}
    (hlocate : ∀ line name id, c.LooksUp line name id →
      locate' (c.machine.adjust a) name id = locate c.machine name id)
    (hcall : ∀ line, c.AtCall line → (c.machine.adjust a).mayCall = c.machine.mayCall)
    (hprint : ∀ line text, c.Prints line text → c.machine.output.Agrees a text) :
    (c.adjust a).step locate' = (c.step locate).adjust a := by
  obtain ⟨control, frames, m⟩ := c
  cases control with
  | eval e =>
    cases e with
    | reference line name id => exact eval_reference_adjust (hlocate line name id (.reference ..))
    | _ => rfl
  | exec s =>
    cases s with
    | var line name initializer => cases initializer <;> rfl
    | result line value => cases value <;> rfl
    | _ => rfl
  | execAll ss => cases ss <;> rfl
  | program ss => cases ss <;> rfl
  | call f args line => exact call_adjust (hcall line ⟨f, args, rfl⟩)
  | done s =>
    cases frames with
    | nil => rfl
    | cons f frames =>
      cases s with
      | value v =>
        exact resume_adjust (fun line name id hf => hlocate line name id (hf ▸ .assign ..))
          fun line hf => hprint line _ ⟨v, frames, rfl, congrArg (· :: frames) hf, rfl⟩
      | _ => cases f <;> rfl

/-- Where each step is the same, so are the steps together. -/
theorem iterate_adjust {c : Config} {n : Nat}
    (h : ∀ k < n, (((step locate)^[k] c).adjust a).step locate' =
      (((step locate)^[k] c).step locate).adjust a) :
    (step locate')^[n] (c.adjust a) = ((step locate)^[n] c).adjust a := by
  induction n with
  | zero => rfl
  | succ n ih =>
    rw [Function.iterate_succ_apply', Function.iterate_succ_apply',
      ih fun k hk => h k (Nat.lt_succ_of_lt hk), h n (Nat.lt_succ_self n)]

theorem runFor_adjust {c : Config} {n : Nat}
    (h : ∀ k < n, (((step locate)^[k] c).adjust a).step locate' =
      (((step locate)^[k] c).step locate).adjust a) :
    (c.adjust a).runFor locate' n = (c.runFor locate n).map fun (s, m) => (s, m.adjust a) := by
  rw [runFor_eq_result?, runFor_eq_result?, iterate_adjust h]
  obtain ⟨control, frames, m⟩ := (step locate)^[n] c
  cases control <;> cases frames <;> rfl

end Config
end LoxLang
