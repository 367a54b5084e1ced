import LoxLang.Tree
import LoxLang.Diagnostic

/-!
Reading tokens: a parser moves a cursor over the tokens before the end, records faults on the way,
and either gives a tree, stops at a fault, or runs out of fuel.
-/
namespace LoxLang

structure Cursor where
  rest : List Token
  /-- The line of the token read last. -/
  line : Nat
  /-- The line of the end, where the tokens name it. -/
  endLine : Option Nat
  nextId : NodeId
  faults : Array Diagnostic

namespace Cursor

/-- Reading stops at the first end token. -/
def start (tokens : List Token) (firstId : NodeId) : Cursor where
  rest := tokens.takeWhile (·.kind ≠ .eof)
  line := 1
  endLine := (tokens.find? (·.kind = .eof)).map Token.line
  nextId := firstId
  faults := #[]

def faultHere (c : Cursor) (cause : Cause) : Diagnostic :=
  match c.rest with
  | t :: _ => ⟨t.line, .at t.lexeme, cause⟩
  | [] => ⟨c.endLine.getD c.line, .atEnd, cause⟩

def record (c : Cursor) (d : Diagnostic) : Cursor := { c with faults := c.faults.push d }

/-- Past the next semicolon or up to the next statement keyword, and past one token at least. -/
def skipTokens : List Token → Nat → List Token × Nat
  | [], line => ([], line)
  | t :: rest, _ =>
    if t.kind = .semicolon || rest.head?.any (·.kind.startsStatement) then (rest, t.line)
    else skipTokens rest t.line

def skipStatement (c : Cursor) : Cursor :=
  let (rest, line) := skipTokens c.rest c.line
  { c with rest, line }

end Cursor

inductive Reading (α : Type) where
  | outOfFuel
  | fault (d : Diagnostic) (c : Cursor)
  | done (a : α) (c : Cursor)

def Parser (α : Type) := Cursor → Reading α

def maxArguments : Nat := 255

namespace Parser

@[inline] protected def pure (a : α) : Parser α := fun c => .done a c

@[inline] protected def bind (p : Parser α) (f : α → Parser β) : Parser β := fun c =>
  match p c with
  | .outOfFuel => .outOfFuel
  | .fault d c => .fault d c
  | .done a c => f a c

instance : Monad Parser where
  pure := Parser.pure
  bind := Parser.bind

instance : LawfulMonad Parser := .mk' _
  (by intro α p; funext c; simp only [Functor.map, Parser.bind]; cases p c <;> rfl)
  (by intros; rfl)
  (by intro α β γ p f g; funext c; simp only [bind, Parser.bind]; cases p c <;> rfl)

def outOfFuel : Parser α := fun _ => .outOfFuel

def take? (f : Token → Option α) : Parser (Option α) := fun c =>
  match c.rest with
  | [] => .done none c
  | t :: rest =>
    match f t with
    | some a => .done (some a) { c with rest, line := t.line }
    | none => .done none c

def accept? (kind : Kind) : Parser (Option Token) :=
  take? fun t => if t.kind = kind then some t else none

def nextIs (kind : Kind) : Parser Bool := fun c => .done (c.rest.head?.any (·.kind = kind)) c

def atEnd : Parser Bool := fun c => .done c.rest.isEmpty c

def fail (cause : Cause) : Parser α := fun c => .fault (c.faultHere cause) c

def report (d : Diagnostic) : Parser Unit := fun c => .done () (c.record d)

/-- Reports the item that makes a list too long, and no later one. -/
def limitCount (count : Nat) (cause : Cause) : Parser Unit := fun c =>
  .done () (if count = maxArguments then c.record (c.faultHere cause) else c)

def expect (kind : Kind) (what : Expectation) : Parser Token := do
  match ← accept? kind with
  | some t => pure t
  | none => fail (.expected what)

def freshId : Parser NodeId := fun c => .done c.nextId { c with nextId := c.nextId + 1 }

def recovering (p : Parser α) : Parser (Option α) := fun c =>
  match p c with
  | .outOfFuel => .outOfFuel
  | .fault d c => .done none (c.record d).skipStatement
  | .done a c => .done (some a) c

end Parser

end LoxLang
