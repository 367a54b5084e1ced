import LoxLang.Parse.Statement
import LoxLang.Token.Scan

/-! From tokens, and from a source, to the statements that parse, the faults, and the next free id. -/
namespace LoxLang

structure Parsed where
  program : List Stmt
  faults : List Diagnostic
  nextId : NodeId

/- From one token to the next a parser goes at most a dozen levels down. -/
def Parser.fuel (tokens : List Token) : Nat := 16 * (tokens.length + 1)

def Parsed.ofTokens (tokens : List Token) (firstId : NodeId) : Parsed :=
  match Parser.program (Parser.fuel tokens) (Cursor.start tokens firstId) with
  | .done program c => ⟨program, c.faults.toList, c.nextId⟩
  | .fault d c => ⟨[], c.faults.toList ++ [d], c.nextId⟩
  | .outOfFuel => ⟨[], [], firstId⟩

/-- Lexical faults come first, then the others in the order of their finding. -/
def Parsed.ofSource (source : String) (firstId : NodeId) : Parsed :=
  let s := scan source
  let p := Parsed.ofTokens s.tokens firstId
  { p with faults := s.faults ++ p.faults }

end LoxLang
