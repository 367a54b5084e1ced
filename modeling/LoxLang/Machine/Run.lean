import LoxLang.Machine.Step

/-! Runs. A run that does not end within its steps has no result. -/
namespace LoxLang

def Config.runFor (locate : Locator) : Nat → Config → Option (Signal × Machine)
  | _, ⟨.done s, [], m⟩ => some (s, m)
  | 0, _ => none
  | n + 1, c => runFor locate n (c.step locate)

theorem Config.runFor_succ {locate : Locator} {n : Nat} {c : Config} {r : Signal × Machine}
    (h : runFor locate n c = some r) : runFor locate (n + 1) c = some r := by
  induction n generalizing c with
  | zero =>
    unfold runFor at h ⊢
    split at h <;> simp_all
  | succ n ih =>
    unfold runFor at h ⊢
    split at h <;> simp_all

/-- More steps keep a result. -/
theorem Config.runFor_le {locate : Locator} {m n : Nat} {c : Config} {r : Signal × Machine}
    (hle : m ≤ n) (h : runFor locate m c = some r) : runFor locate n c = some r := by
  induction hle with
  | refl => exact h
  | step _ ih => exact runFor_succ ih

/-- Enough for any run that a computer will see the end of. -/
def stepsAllowed : Nat := Nat.pow 2 62

namespace Machine

def run (steps : Nat) (m : Machine) (control : Control) : Option (Signal × Machine) :=
  Config.runFor .byDistance steps ⟨control, [], m⟩

def interpret (steps : Nat) (m : Machine) (program : List Stmt) :
    Option (Option RuntimeError × Machine) :=
  (m.run steps (.program program)).map fun
    | (.failed e, m) => (some e, m.reset)
    | (_, m) => (none, m)

end Machine
end LoxLang
