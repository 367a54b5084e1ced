import LoxLang.Tree
import LoxLang.Number.Text

/-! Values that a running program computes with. Two functions are equal only if they are the same. -/
namespace LoxLang

abbrev ScopeId := Nat

structure Function where
  identity : Nat
  name : Name
  params : List Name
  body : List Stmt
  closure : ScopeId

def Function.arity (f : Function) : Nat := f.params.length

inductive Value where
  | nil
  | bool (b : Bool)
  | number (x : Float)
  | string (s : String)
  | function (f : Function)

namespace Value

def ofLiteral : Literal → Value
  | .nil => nil
  | .bool b => bool b
  | .number x => number x
  | .string s => string s

def truthy : Value → Bool
  | nil => false
  | bool b => b
  | _ => true

def number? : Value → Option Float
  | number x => some x
  | _ => none

/-- Numbers compare as doubles: a NaN differs from itself, and the two zeros are equal. -/
def equal : Value → Value → Bool
  | nil, nil => true
  | bool a, bool b => a == b
  | number x, number y => x == y
  | string s, string t => s == t
  | function f, function g => f.identity == g.identity
  | _, _ => false

def typeName : Value → String
  | nil => "nil"
  | bool _ => "boolean"
  | number _ => "number"
  | string _ => "string"
  | function _ => "function"

def text : Value → String
  | nil => "nil"
  | bool true => "true"
  | bool false => "false"
  | number x => Number.text x
  | string s => s
  | function f => "<fn " ++ f.name ++ ">"

end Value
end LoxLang
