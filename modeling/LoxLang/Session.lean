import LoxLang.Machine.Run
import LoxLang.Parse.Program

/-!
Sessions: sources run one after another on the same machine, so that globals and functions stay.
A source that is rejected is not run at all.
-/
namespace LoxLang

inductive Outcome where
  | completed
  | rejected (faults : List Diagnostic)
  | failed (e : RuntimeError)

namespace Outcome

def exitCode : Outcome → UInt32
  | completed => 0
  | rejected _ => 65
  | failed _ => 70

def report : Outcome → String
  | completed => ""
  | rejected faults => String.join (faults.map (·.message ++ "\n"))
  | failed e => e.message ++ "\n"

end Outcome

structure Accepted where
  program : List Stmt
  distances : Distances

/-- The scope pass only sees programs without other faults. -/
def Parsed.accept (p : Parsed) : Except (List Diagnostic) Accepted :=
  if p.faults.isEmpty then (Scoping.distances p.program).map (⟨p.program, ·⟩)
  else .error p.faults

structure Session where
  machine : Machine
  nextId : NodeId

namespace Session

def start (limit : Option Nat) (output : Output) : Session := ⟨.start limit output, 0⟩

/-- The ids of a rejected source stay used. -/
def run (steps : Nat) (s : Session) (source : String) : Option (Outcome × Session) :=
  let p := Parsed.ofSource source s.nextId
  match p.accept with
  | .error faults => some (.rejected faults, { s with nextId := p.nextId })
  | .ok a =>
    ((s.machine.addDistances a.distances).interpret steps a.program).map fun
      | (none, m) => (.completed, ⟨m, p.nextId⟩)
      | (some e, m) => (.failed e, ⟨m, p.nextId⟩)

end Session

def runSource (steps : Nat) (source : String) : Option (Outcome × String) :=
  ((Session.start (some Machine.defaultLimit) (.empty none)).run steps source).map fun (o, s) =>
    (o, s.machine.output.textFrom 0)

end LoxLang
