/-!
Tokens: the kinds of pieces that a source is cut into, and the pieces that reach the parser.
-/
namespace LoxLang

abbrev Name := String

inductive Literal where
  | nil
  | bool (b : Bool)
  | number (x : Float)
  | string (s : String)

inductive Kind where
  | leftParen | rightParen | leftBrace | rightBrace
  | comma | dot | minus | plus | semicolon | slash | star
  | bang | bangEqual | equal | equalEqual
  | greater | greaterEqual | less | lessEqual
  | identifier | string | unterminatedString | number
  | kwAnd | kwClass | kwElse | kwFalse | kwFun | kwFor | kwIf | kwNil | kwOr
  | kwPrint | kwReturn | kwSuper | kwThis | kwTrue | kwVar | kwWhile
  | comment | newline | blank | eof
deriving DecidableEq, Repr

namespace Kind

def keywords : List (String × Kind) :=
  [("and", kwAnd), ("class", kwClass), ("else", kwElse), ("false", kwFalse), ("fun", kwFun),
   ("for", kwFor), ("if", kwIf), ("nil", kwNil), ("or", kwOr), ("print", kwPrint),
   ("return", kwReturn), ("super", kwSuper), ("this", kwThis), ("true", kwTrue),
   ("var", kwVar), ("while", kwWhile)]

def ofWord (word : String) : Kind := (keywords.lookup word).getD identifier

def isToken : Kind → Bool
  | unterminatedString | comment | newline | blank => false
  | _ => true

/-- The keywords at which parsing resumes after a fault. -/
def startsStatement : Kind → Bool
  | kwClass | kwFun | kwVar | kwFor | kwIf | kwWhile | kwPrint | kwReturn => true
  | _ => false

end Kind

structure Token where
  kind : Kind
  lexeme : String
  line : Nat
  literal : Option Literal

def Token.eof (line : Nat) : Token := ⟨.eof, "", line, none⟩

end LoxLang
