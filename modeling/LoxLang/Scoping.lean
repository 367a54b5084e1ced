import LoxLang.Tree
import LoxLang.Diagnostic
import Std.Data.TreeMap

/-!
Lexical scoping. One pass over a program finds for each reference to a local variable how many scopes
out its declaration lies; globals are left out. It also finds the declarations and returns that are
out of place.
-/
namespace LoxLang

abbrev Distances := Std.TreeMap NodeId Nat

namespace Scoping

/-- The names declared in one block or function so far, each `true` once its declaration is complete. -/
abbrev Names := List (Name × Bool)

structure Pass where
  /-- Innermost first; the globals are not among them. -/
  scopes : List Names
  functionDepth : Nat
  distances : Distances
  faults : Array Diagnostic

namespace Pass

def start : Pass := ⟨[], 0, ∅, #[]⟩

def fault (line : Nat) (lexeme : String) (cause : Cause) (p : Pass) : Pass :=
  { p with faults := p.faults.push ⟨line, .at lexeme, cause⟩ }

def opened (p : Pass) : Pass := { p with scopes := [] :: p.scopes }

def closed (p : Pass) : Pass := { p with scopes := p.scopes.tail }

def mark (name : Name) (complete : Bool) (p : Pass) : Pass :=
  match p.scopes with
  | [] => p
  | names :: outer => { p with scopes := ((name, complete) :: names) :: outer }

def declares (p : Pass) (name : Name) : Bool :=
  (p.scopes.head?.bind (·.lookup name)).isSome

def declare (name : Name) (line : Nat) (p : Pass) : Pass :=
  let p := if p.declares name then p.fault line name .alreadyDeclared else p
  p.mark name false

def complete (name : Name) (p : Pass) : Pass := p.mark name true

/-- Declarations that are not complete are passed over. -/
def distance? (p : Pass) (name : Name) : Option Nat :=
  p.scopes.findIdx? fun names => names.lookup name = some true

def bind (name : Name) (id : NodeId) (p : Pass) : Pass :=
  match p.distance? name with
  | some d => { p with distances := p.distances.insert id d }
  | none => p

def enterFunction (p : Pass) : Pass := { p.opened with functionDepth := p.functionDepth + 1 }

def leaveFunction (p : Pass) : Pass := { p.closed with functionDepth := p.functionDepth - 1 }

def parameters (line : Nat) : List Name → Pass → Pass
  | [], p => p
  | name :: names, p => parameters line names ((p.declare name line).complete name)

end Pass

def refersOnlyTo (name : Name) : Expr → Bool
  | .grouping _ inner => refersOnlyTo name inner
  | .reference _ read _ => read = name
  | _ => false

mutual

def expr : Expr → Pass → Pass
  | .literal _ _, p => p
  | .grouping _ inner, p => expr inner p
  | .unary _ _ operand, p => expr operand p
  | .binary _ _ left right, p => expr right (expr left p)
  | .logical _ _ left right, p => expr right (expr left p)
  | .reference _ name id, p => p.bind name id
  | .assign _ name id value, p => (expr value p).bind name id
  | .call _ callee arguments, p => exprs arguments (expr callee p)

def exprs : List Expr → Pass → Pass
  | [], p => p
  | e :: es, p => exprs es (expr e p)

end

def initializer (line : Nat) (name : Name) (e : Expr) (p : Pass) : Pass :=
  let own := !p.scopes.isEmpty && refersOnlyTo name e
  expr e (if own then p.fault line name .ownInitializer else p)

mutual

def stmt : Stmt → Pass → Pass
  | .expression _ e, p => expr e p
  | .print _ e, p => expr e p
  | .var line name none, p => (p.declare name line).complete name
  | .var line name (some e), p => (initializer line name e (p.declare name line)).complete name
  | .block _ body, p => (stmts body p.opened).closed
  | .branch _ condition thenBranch none, p => stmt thenBranch (expr condition p)
  | .branch _ condition thenBranch (some elseBranch), p =>
    stmt elseBranch (stmt thenBranch (expr condition p))
  | .loop _ condition body, p => stmt body (expr condition p)
  | .function line name params body, p =>
    let p := ((p.declare name line).complete name).enterFunction
    (stmts body (p.parameters line params)).leaveFunction
  | .result line value, p =>
    let p := if p.functionDepth = 0 then p.fault line "return" .topLevelReturn else p
    match value with
    | none => p
    | some e => expr e p

def stmts : List Stmt → Pass → Pass
  | [], p => p
  | s :: ss, p => stmts ss (stmt s p)

end

def distances (program : List Stmt) : Except (List Diagnostic) Distances :=
  let p := stmts program .start
  if p.faults.isEmpty then .ok p.distances else .error p.faults.toList

end Scoping
end LoxLang
