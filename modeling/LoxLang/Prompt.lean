import LoxLang.Session
import LoxLang.Tree.PrefixForm

/-!
What a command writes: running a script, showing its tree, and the prompt, which reads a line at a
time and keeps one session over all of them.
-/
namespace LoxLang

structure Reply where
  exitCode : UInt32
  out : String
  err : String

def Reply.said (text : String) : Reply := ⟨0, text, ""⟩

def Reply.more (w r : Reply) : Reply := { w with out := w.out ++ r.out, err := w.err ++ r.err }

inductive Mode where
  | run
  | showTree

def Reply.ofTree (source : String) : Reply :=
  let p := Parsed.ofSource source 0
  if p.faults.isEmpty then ⟨0, Stmt.programText p.program, ""⟩
  else
    let o := Outcome.rejected p.faults
    ⟨o.exitCode, "", o.report⟩

def Session.reply (steps : Nat) (s : Session) (source : String) : Option (Reply × Session) :=
  let before := s.machine.output.bytes.size
  (s.run steps source).map fun (o, s) => (⟨o.exitCode, s.machine.output.textFrom before, o.report⟩, s)

def Mode.reply (steps : Nat) (mode : Mode) (s : Session) (source : String) : Option (Reply × Session) :=
  match mode with
  | .run => s.reply steps source
  | .showTree => some (.ofTree source, s)

namespace Prompt

/-- The first line, without its end, and the bytes after it; the last line may lack an end. -/
def firstLine (bytes : List UInt8) : List UInt8 × List UInt8 :=
  let line := bytes.takeWhile (· ≠ 10)
  let rest := bytes.dropWhile (· ≠ 10)
  if rest.isEmpty then (line, [])
  else (if line.getLast? = some 13 then line.dropLast else line, rest.tail)

def linesWithin : Nat → List UInt8 → List (List UInt8)
  | 0, _ => []
  | _, [] => []
  | n + 1, bytes =>
    let (line, rest) := firstLine bytes
    line :: linesWithin n rest

/-- The lines before the first that is not UTF-8. -/
def lines (input : ByteArray) : List String :=
  let texts := (linesWithin input.size input.data.toList).map fun line =>
    String.fromUTF8? ⟨line.toArray⟩
  (texts.takeWhile Option.isSome).filterMap id

def sign : String := "> "

/-- Faults and errors do not end the prompt; the end of the lines does. The lines may come one at a time. -/
def dialogue {m : Type → Type} {ρ : Type} [Monad m] [ForIn (OptionT m) ρ String] (write : Reply → m Unit)
    (steps : Nat) (mode : Mode) (s : Session) (lines : ρ) : OptionT m Unit := do
  let mut s := s
  write (.said sign)
  for line in lines do
    let (r, next) ← OptionT.mk (pure (mode.reply steps s line))
    write r
    write (.said sign)
    s := next
  write (.said "\n")

def keep (r : Reply) : StateM Reply Unit := modify (·.more r)

def kept (steps : Nat) (mode : Mode) (s : Session) (lines : List String) (w : Reply) : Option Reply :=
  let (ended?, w) := (dialogue keep steps mode s lines).run.run w
  ended?.map fun _ => w

def reply (steps : Nat) (mode : Mode) (limit : Nat) (input : ByteArray) : Option Reply :=
  kept steps mode (.start (some limit) (.empty none)) (lines input) (.said "")

end Prompt
end LoxLang
