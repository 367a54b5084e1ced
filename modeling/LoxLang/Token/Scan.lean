import LoxLang.Token.Piece
import LoxLang.Diagnostic
import LoxLang.Number.Text

/-! The tokens and the lexical faults of a source, each on the line its piece ends on. -/
namespace LoxLang

def Piece.located (line : Nat) : List Piece → List (Nat × Piece)
  | [] => []
  | p :: ps =>
    let line := line + p.text.count '\n'
    (line, p) :: located line ps

def Literal.ofText? : Kind → List Char → Option Literal
  | .number, text => some (.number (Number.ofNumeral text))
  | .string, text => some (.string (.ofList (text.tail.dropLast)))
  | _, _ => none

def Token.ofPiece? (line : Nat) (p : Piece) : Option Token :=
  match p.kind with
  | some kind =>
    if kind.isToken then some ⟨kind, .ofList p.text, line, Literal.ofText? kind p.text⟩ else none
  | none => none

def Diagnostic.ofPiece? (line : Nat) (p : Piece) : Option Diagnostic :=
  match p.kind with
  | none => some ⟨line, .unmatched, .unexpectedCharacter⟩
  | some .unterminatedString => some ⟨line, .unmatched, .unterminatedString⟩
  | some _ => none

structure Scan where
  tokens : List Token
  faults : List Diagnostic

def scan (source : String) : Scan :=
  let chars := source.toList
  let pieces := Piece.located 1 (Piece.ofChars chars)
  { tokens := pieces.filterMap (fun (line, p) => Token.ofPiece? line p) ++
      [Token.eof (1 + chars.count '\n')]
    faults := pieces.filterMap fun (line, p) => Diagnostic.ofPiece? line p }

end LoxLang
