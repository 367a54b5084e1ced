import LoxLang.Parse.Cursor

/-!
Expressions. A level of the binary operators holds operands of the next tighter level; all levels
associate to the left, assignment to the right.
-/
namespace LoxLang

inductive Level where
  | or | and | equality | comparison | term | factor | unary
deriving DecidableEq, Repr

def BinaryOp.level : BinaryOp → Level
  | equal | notEqual => .equality
  | less | greater | lessEqual | greaterEqual => .comparison
  | add | subtract => .term
  | multiply | divide => .factor

def LogicalOp.level : LogicalOp → Level
  | or => .or
  | and => .and

namespace Level

def tighter : Level → Level
  | or => and
  | and => equality
  | equality => comparison
  | comparison => term
  | term => factor
  | factor | unary => unary

def join? (level : Level) (t : Token) : Option (Expr → Expr → Expr) :=
  match LogicalOp.ofKind? t.kind with
  | some op => if op.level = level then some (.logical t.line op) else none
  | none =>
    match BinaryOp.ofKind? t.kind with
    | some op => if op.level = level then some (.binary t.line op) else none
    | none => none

end Level

def Expr.ofConstant? (t : Token) : Option Expr :=
  match t.kind with
  | .kwFalse => some (.literal t.line (.bool false))
  | .kwTrue => some (.literal t.line (.bool true))
  | .kwNil => some (.literal t.line .nil)
  | .number | .string => some (.literal t.line (t.literal.getD .nil))
  | _ => none

namespace Parser

/-- Only a variable can be assigned to; for anything else the value is dropped. -/
def assignment (equals : Token) (target value : Expr) : Parser Expr :=
  match target with
  | .reference line name id => pure (.assign line name id value)
  | _ => do
    report ⟨equals.line, .at equals.lexeme, .invalidAssignmentTarget⟩
    pure target

def unaryNode? (t : Token) : Option (Expr → Expr) :=
  (UnaryOp.ofKind? t.kind).map (Expr.unary t.line)

mutual

def expression : Nat → Parser Expr
  | 0 => outOfFuel
  | n + 1 => do
    let target ← operands n .or
    match ← accept? .equal with
    | none => pure target
    | some equals => assignment equals target (← expression n)

def operands : Nat → Level → Parser Expr
  | 0, _ => outOfFuel
  | n + 1, .unary => do
    match ← take? unaryNode? with
    | some node => return node (← operands n .unary)
    | none => calls n (← primary n)
  | n + 1, level => do operators n level (← operands n level.tighter)

def operators : Nat → Level → Expr → Parser Expr
  | 0, _, _ => outOfFuel
  | n + 1, level, left => do
    match ← take? level.join? with
    | none => pure left
    | some join => operators n level (join left (← operands n level.tighter))

def calls : Nat → Expr → Parser Expr
  | 0, _ => outOfFuel
  | n + 1, callee => do
    match ← accept? .leftParen with
    | none => pure callee
    | some _ =>
      let args ← argumentList n
      let paren ← expect .rightParen .parenAfterArguments
      calls n (.call paren.line callee args)

def argumentList : Nat → Parser (List Expr)
  | 0 => outOfFuel
  | n + 1 => do if ← nextIs .rightParen then pure [] else arguments n 0

def arguments : Nat → Nat → Parser (List Expr)
  | 0, _ => outOfFuel
  | n + 1, count => do
    limitCount count .tooManyArguments
    let e ← expression n
    match ← accept? .comma with
    | none => pure [e]
    | some _ => return e :: (← arguments n (count + 1))

def primary : Nat → Parser Expr
  | 0 => outOfFuel
  | n + 1 => do
    match ← take? Expr.ofConstant? with
    | some e => pure e
    | none =>
      match ← accept? .identifier with
      | some t => return .reference t.line t.lexeme (← freshId)
      | none =>
        match ← accept? .leftParen with
        | some paren =>
          let inner ← expression n
          let _ ← expect .rightParen .parenAfterExpression
          pure (.grouping paren.line inner)
        | none => fail (.expected .expression)

end

end Parser
end LoxLang
