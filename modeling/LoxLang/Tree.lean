import LoxLang.Token

/-!
The program tree. Every node knows its source line; the nodes that read or assign a variable carry
an id of their own, under which the scope pass files how far out the variable lies.
-/
namespace LoxLang

/-- Ids are 64-bit words and wrap around. -/
abbrev NodeId := UInt64

inductive UnaryOp where
  | negate | not
deriving DecidableEq, Repr

inductive BinaryOp where
  | add | subtract | multiply | divide
  | less | greater | lessEqual | greaterEqual
  | equal | notEqual
deriving DecidableEq, Repr

inductive LogicalOp where
  | and | or
deriving DecidableEq, Repr

inductive Expr where
  | literal (line : Nat) (value : Literal)
  | grouping (line : Nat) (inner : Expr)
  | unary (line : Nat) (op : UnaryOp) (operand : Expr)
  | binary (line : Nat) (op : BinaryOp) (left right : Expr)
  | logical (line : Nat) (op : LogicalOp) (left right : Expr)
  | reference (line : Nat) (name : Name) (id : NodeId)
  | assign (line : Nat) (name : Name) (id : NodeId) (value : Expr)
  | call (line : Nat) (callee : Expr) (arguments : List Expr)

inductive Stmt where
  | expression (line : Nat) (expr : Expr)
  | print (line : Nat) (expr : Expr)
  | var (line : Nat) (name : Name) (initializer : Option Expr)
  | block (line : Nat) (body : List Stmt)
  | branch (line : Nat) (condition : Expr) (thenBranch : Stmt) (elseBranch : Option Stmt)
  | loop (line : Nat) (condition : Expr) (body : Stmt)
  | function (line : Nat) (name : Name) (params : List Name) (body : List Stmt)
  | result (line : Nat) (value : Option Expr)

def Expr.line : Expr → Nat
  | literal line _ | grouping line _ | unary line _ _ | binary line _ _ _ | logical line _ _ _
  | reference line _ _ | assign line _ _ _ | call line _ _ => line

def Stmt.ofExpr (e : Expr) : Stmt := .expression e.line e

/-- A `for` loop is a `while` loop: the increment ends the body, the initializer comes before. -/
def Stmt.forLoop (line : Nat) (initializer : Option Stmt) (condition increment : Option Expr)
    (body : Stmt) : Stmt :=
  let body := match increment with
    | some e => .block line [body, .ofExpr e]
    | none => body
  let loop := .loop line (condition.getD (.literal line (.bool true))) body
  match initializer with
  | some s => .block line [s, loop]
  | none => loop

def UnaryOp.symbol : UnaryOp → String
  | negate => "-"
  | not => "!"

def BinaryOp.symbol : BinaryOp → String
  | add => "+"
  | subtract => "-"
  | multiply => "*"
  | divide => "/"
  | less => "<"
  | greater => ">"
  | lessEqual => "<="
  | greaterEqual => ">="
  | equal => "=="
  | notEqual => "!="

def LogicalOp.symbol : LogicalOp → String
  | and => "and"
  | or => "or"

def UnaryOp.ofKind? : Kind → Option UnaryOp
  | .minus => some negate
  | .bang => some not
  | _ => none

def BinaryOp.ofKind? : Kind → Option BinaryOp
  | .plus => some add
  | .minus => some subtract
  | .star => some multiply
  | .slash => some divide
  | .less => some less
  | .greater => some greater
  | .lessEqual => some lessEqual
  | .greaterEqual => some greaterEqual
  | .equalEqual => some equal
  | .bangEqual => some notEqual
  | _ => none

def LogicalOp.ofKind? : Kind → Option LogicalOp
  | .kwAnd => some and
  | .kwOr => some or
  | _ => none

end LoxLang
