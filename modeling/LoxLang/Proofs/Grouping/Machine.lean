import LoxLang.Machine
import LoxLang.Proofs.Grouping.Tree

/-!
The machine without the parentheses in what it knows: in the bodies of its functions, in what comes next
and in what waits. Each operation on the store gives with and without them the same.
-/
namespace LoxLang

def Function.ungrouped (f : Function) : Function := { f with body := Stmt.allUngrouped f.body }

def Value.ungrouped : Value → Value
  | .function f => .function f.ungrouped
  | v => v

def Bindings.ungrouped (b : Bindings) : Bindings := ⟨b.entries.map fun (n, v) => (n, v.ungrouped)⟩

def Scope.ungrouped (s : Scope) : Scope := { s with bindings := s.bindings.ungrouped }

def Store.ungrouped (st : Store) : Store := ⟨st.scopes.map Scope.ungrouped⟩

def Machine.ungrouped (m : Machine) : Machine := { m with store := m.store.ungrouped }

def Signal.ungrouped : Signal → Signal
  | .value v => .value v.ungrouped
  | .normal => .normal
  | .returned v => .returned v.ungrouped
  | .failed e => .failed e

def Control.ungrouped : Control → Control
  | .eval e => .eval e.ungrouped
  | .exec s => .exec s.ungrouped
  | .execAll ss => .execAll (Stmt.allUngrouped ss)
  | .program ss => .program (Stmt.allUngrouped ss)
  | .call f args line => .call f.ungrouped (args.map Value.ungrouped) line
  | .done s => .done s.ungrouped

def Frame.ungrouped : Frame → Frame
  | .left line op e => .left line op e.ungrouped
  | .right line op v => .right line op v.ungrouped
  | .logical op e => .logical op e.ungrouped
  | .callee line args => .callee line (Expr.allUngrouped args)
  | .argument line f args rest =>
    .argument line f.ungrouped (args.map Value.ungrouped) (Expr.allUngrouped rest)
  | .branch thenBranch elseBranch => .branch thenBranch.ungrouped (elseBranch.map Stmt.ungrouped)
  | .test condition body => .test condition.ungrouped body.ungrouped
  | .again condition body => .again condition.ungrouped body.ungrouped
  | .sequence rest => .sequence (Stmt.allUngrouped rest)
  | .program rest => .program (Stmt.allUngrouped rest)
  | f => f

def Config.ungrouped (c : Config) : Config :=
  ⟨c.control.ungrouped, c.frames.map Frame.ungrouped, c.machine.ungrouped⟩

namespace Bindings

theorem get?_ungrouped (b : Bindings) (name : Name) :
    b.ungrouped.get? name = (b.get? name).map Value.ungrouped := by
  obtain ⟨entries⟩ := b
  induction entries with
  | nil => rfl
  | cons e entries ih =>
    obtain ⟨n, v⟩ := e
    simp only [ungrouped, get?, List.map_cons, List.lookup_cons] at ih ⊢
    cases name == n with
    | true => rfl
    | false => exact ih

theorem setEntry_ungrouped (name : Name) (v : Value) (entries : List (Name × Value)) :
    (setEntry name v entries).map (fun (n, v) => (n, v.ungrouped)) =
      setEntry name v.ungrouped (entries.map fun (n, v) => (n, v.ungrouped)) := by
  induction entries with
  | nil => rfl
  | cons e entries ih =>
    simp only [setEntry, List.map_cons]
    split
    · rfl
    · exact congrArg _ ih

theorem set_ungrouped (b : Bindings) (name : Name) (v : Value) :
    (b.set name v).ungrouped = b.ungrouped.set name v.ungrouped :=
  congrArg mk (setEntry_ungrouped name v b.entries)

end Bindings

namespace Store
variable (st : Store)

@[simp] theorem next_ungrouped : st.ungrouped.next = st.next := Array.size_map

@[simp] theorem read?_ungrouped (id : ScopeId) (name : Name) :
    st.ungrouped.read? id name = (st.read? id name).map Value.ungrouped := by
  simp only [read?, ungrouped, Array.getElem?_map]
  cases st.scopes[id]? with
  | none => rfl
  | some scope => exact scope.bindings.get?_ungrouped name

@[simp] theorem enclosing?_ungrouped (id : ScopeId) :
    st.ungrouped.enclosing? id = st.enclosing? id := by
  simp only [enclosing?, ungrouped, Array.getElem?_map]
  cases st.scopes[id]? <;> rfl

theorem alloc_ungrouped (outer : Option ScopeId) :
    (st.alloc outer).ungrouped = st.ungrouped.alloc outer := by
  simp only [alloc, ungrouped, Array.map_push]
  rfl

theorem define_ungrouped (id : ScopeId) (name : Name) (v : Value) :
    (st.define id name v).ungrouped = st.ungrouped.define id name v.ungrouped := by
  refine congrArg mk (Array.ext_getElem? fun i => ?_)
  simp only [define, ungrouped, Array.getElem?_map, Array.getElem?_modify]
  split
  · cases st.scopes[i]? with
    | none => rfl
    | some scope => simp [Scope.ungrouped, Bindings.set_ungrouped]
  · rfl

@[simp] theorem ancestor?_ungrouped (id : ScopeId) (d : Nat) :
    st.ungrouped.ancestor? id d = st.ancestor? id d := by
  induction d generalizing id with
  | zero => rfl
  | succ d ih => simp only [ancestor?, enclosing?_ungrouped, ih]

@[simp] theorem holderWithin?_ungrouped (name : Name) (links : Nat) (id : ScopeId) :
    st.ungrouped.holderWithin? name links id = st.holderWithin? name links id := by
  induction links generalizing id with
  | zero => rfl
  | succ links ih =>
    have hlinks : st.ungrouped.holderWithin? name links = st.holderWithin? name links := funext ih
    simp [holderWithin?, hlinks]

theorem holder?_ungrouped (id : ScopeId) (name : Name) :
    st.ungrouped.holder? id name = st.holder? id name := by
  have hsize : st.ungrouped.scopes.size = st.scopes.size := st.next_ungrouped
  rw [holder?, hsize, holderWithin?_ungrouped, holder?]

theorem holderAt?_ungrouped (id : ScopeId) (d : Nat) (name : Name) :
    st.ungrouped.holderAt? id d name = st.holderAt? id d name := by
  simp [holderAt?]

end Store

namespace Machine
variable (m : Machine)

theorem byDistance_ungrouped (name : Name) (id : NodeId) :
    Locator.byDistance m.ungrouped name id = Locator.byDistance m name id := by
  simp only [Locator.byDistance, ungrouped, Store.holderAt?_ungrouped, Store.holder?_ungrouped]

theorem define_ungrouped (name : Name) (v : Value) :
    (m.define name v).ungrouped = m.ungrouped.define name v.ungrouped := by
  simp only [define, ungrouped, Store.define_ungrouped]

theorem openScope_ungrouped (outer : ScopeId) :
    (m.openScope outer).ungrouped = m.ungrouped.openScope outer := by
  simp only [openScope, ungrouped, Store.alloc_ungrouped, Store.next_ungrouped]

theorem declareFunction_ungrouped (name : Name) (params : List Name) (body : List Stmt) :
    (m.declareFunction name params body).ungrouped =
      m.ungrouped.declareFunction name params (Stmt.allUngrouped body) := by
  simp only [declareFunction, define, ungrouped, Store.define_ungrouped]
  rfl

theorem bindParams_ungrouped (names : List Name) (args : List Value) :
    (bindParams names args m).ungrouped =
      bindParams names (args.map Value.ungrouped) m.ungrouped := by
  induction names generalizing args m with
  | nil => rfl
  | cons name names ih =>
    cases args with
    | nil => rfl
    | cons v args =>
      rw [List.map_cons, bindParams, bindParams, ih, define_ungrouped]

theorem enterCall_ungrouped (f : Function) (args : List Value) :
    (m.enterCall f args).ungrouped = m.ungrouped.enterCall f.ungrouped (args.map Value.ungrouped) := by
  simp only [enterCall, bindParams_ungrouped, openScope_ungrouped]
  rfl

end Machine
end LoxLang
