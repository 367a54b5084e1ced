import LoxLang.Store
import LoxLang.Scoping
import LoxLang.Value.Operator
import LoxLang.Machine.Output

/-!
The machine that runs programs. It holds the store and the state that all parts of a program share;
what is left to do stands in a control and a stack of frames, so that deep programs need no deep
recursion and every moment of a run is a configuration.
-/
namespace LoxLang

structure Machine where
  store : Store
  current : ScopeId
  distances : Distances
  output : Output
  /-- How many calls are active. -/
  depth : Nat
  /-- How many may be; no limit when absent. -/
  limit : Option Nat
  /-- The identity that the next function gets. -/
  functions : Nat

def globals : ScopeId := 0

namespace Machine

def defaultLimit : Nat := 1024

def start (limit : Option Nat) (output : Output) : Machine where
  store := Store.empty.alloc none
  current := globals
  distances := ∅
  output := output
  depth := 0
  limit := limit
  functions := 0

def addDistances (m : Machine) (distances : Distances) : Machine :=
  { m with distances := distances.foldl (fun t id d => t.insert id d) m.distances }

def reset (m : Machine) : Machine := { m with current := globals, depth := 0 }

def define (m : Machine) (name : Name) (v : Value) : Machine :=
  { m with store := m.store.define m.current name v }

def openScope (m : Machine) (enclosing : ScopeId) : Machine :=
  let id := m.store.next
  { m with store := m.store.alloc (some enclosing), current := id }

def declareFunction (m : Machine) (name : Name) (params : List Name) (body : List Stmt) : Machine :=
  let f : Function := ⟨m.functions, name, params, body, m.current⟩
  { m.define name (.function f) with functions := f.identity + 1 }

/-- Surplus arguments are dropped, and parameters without one stay unbound. -/
def bindParams : List Name → List Value → Machine → Machine
  | name :: names, v :: vs, m => bindParams names vs (m.define name v)
  | _, _, m => m

def mayCall (m : Machine) : Bool := m.limit.all (m.depth < ·)

def enterCall (m : Machine) (f : Function) (args : List Value) : Machine :=
  bindParams f.params args ({ m with depth := m.depth + 1 }.openScope f.closure)

def leaveCall (m : Machine) (caller : ScopeId) : Machine :=
  { m with current := caller, depth := m.depth - 1 }

end Machine

abbrev Locator := Machine → Name → NodeId → Option ScopeId

/-- By the distance on file, and among the globals where there is none. -/
def Locator.byDistance : Locator := fun m name id =>
  match m.distances[id]? with
  | some d => m.store.holderAt? m.current d name
  | none => m.store.holder? globals name

def Locator.byName : Locator := fun m name _ => m.store.holder? m.current name

inductive Signal where
  | value (v : Value)
  | normal
  | returned (v : Value)
  | failed (e : RuntimeError)

inductive Control where
  | eval (e : Expr)
  | exec (s : Stmt)
  | execAll (ss : List Stmt)
  | program (ss : List Stmt)
  | call (f : Function) (args : List Value) (line : Nat)
  | done (s : Signal)

/-- What waits for the part that runs now to end. -/
inductive Frame where
  | unary (line : Nat) (op : UnaryOp)
  | left (line : Nat) (op : BinaryOp) (right : Expr)
  | right (line : Nat) (op : BinaryOp) (left : Value)
  | logical (op : LogicalOp) (right : Expr)
  | assign (line : Nat) (name : Name) (id : NodeId)
  | callee (line : Nat) (args : List Expr)
  /-- `args` are the values so far, the last one first. -/
  | argument (line : Nat) (callee : Value) (args : List Value) (rest : List Expr)
  | discard
  | print (line : Nat)
  | var (name : Name)
  | result
  | branch (thenBranch : Stmt) (elseBranch : Option Stmt)
  | test (condition : Expr) (body : Stmt)
  | again (condition : Expr) (body : Stmt)
  | sequence (rest : List Stmt)
  | program (rest : List Stmt)
  | block (outer : ScopeId)
  | call (caller : ScopeId)

structure Config where
  control : Control
  frames : List Frame
  machine : Machine

end LoxLang
