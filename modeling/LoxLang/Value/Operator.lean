import LoxLang.Value

/-! What can go wrong in a running program, and the operators on values. -/
namespace LoxLang

inductive Mishap where
  | undefinedVariable (name : Name)
  | operandNotNumber
  | operandsNotNumbers
  | operandsNotAddable
  | notCallable
  | wrongArity (expected found : Nat)
  | stackOverflow
  | outputFull
deriving DecidableEq, Repr

def Mishap.message : Mishap → String
  | undefinedVariable name => "Undefined variable '" ++ name ++ "'."
  | operandNotNumber => "Operand must be a number."
  | operandsNotNumbers => "Operands must be numbers."
  | operandsNotAddable => "Operands must be two numbers or two strings."
  | notCallable => "Not a callable expression."
  | wrongArity expected found =>
    "Expected " ++ toString expected ++ " arguments but got " ++ toString found ++ "."
  | stackOverflow => "Stack overflow."
  | outputFull => "Failed to write output: failed to write whole buffer"

structure RuntimeError where
  cause : Mishap
  line : Nat
deriving DecidableEq, Repr

def RuntimeError.message (e : RuntimeError) : String :=
  e.cause.message ++ "\n[line " ++ toString e.line ++ "]"

def UnaryOp.apply : UnaryOp → Value → Except Mishap Value
  | negate, .number x => .ok (.number (-x))
  | negate, _ => .error .operandNotNumber
  | not, v => .ok (.bool !v.truthy)

def Value.add : Value → Value → Except Mishap Value
  | .number x, .number y => .ok (.number (x + y))
  | .string s, .string t => .ok (.string (s ++ t))
  | _, _ => .error .operandsNotAddable

def Value.onNumbers (f : Float → Float → Value) : Value → Value → Except Mishap Value
  | .number x, .number y => .ok (f x y)
  | _, _ => .error .operandsNotNumbers

def BinaryOp.apply : BinaryOp → Value → Value → Except Mishap Value
  | add => Value.add
  | subtract => Value.onNumbers fun x y => .number (x - y)
  | multiply => Value.onNumbers fun x y => .number (x * y)
  | divide => Value.onNumbers fun x y => .number (x / y)
  | less => Value.onNumbers fun x y => .bool (x < y)
  | greater => Value.onNumbers fun x y => .bool (x > y)
  | lessEqual => Value.onNumbers fun x y => .bool (x ≤ y)
  | greaterEqual => Value.onNumbers fun x y => .bool (x ≥ y)
  | equal => fun v w => .ok (.bool (v.equal w))
  | notEqual => fun v w => .ok (.bool !v.equal w)

def LogicalOp.stopsAt : LogicalOp → Value → Bool
  | or, v => v.truthy
  | and, v => !v.truthy

end LoxLang
