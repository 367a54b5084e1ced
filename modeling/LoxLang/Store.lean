import LoxLang.Value

/-!
The store of scopes. Each scope binds names and links to the scope around it; a name is looked up
along these links, or in the scope a given number of links out.
-/
namespace LoxLang

structure Bindings where
  entries : List (Name × Value)

namespace Bindings

def empty : Bindings := ⟨[]⟩

def get? (b : Bindings) (name : Name) : Option Value := b.entries.lookup name

def setEntry (name : Name) (v : Value) : List (Name × Value) → List (Name × Value)
  | [] => [(name, v)]
  | (n, w) :: rest => if n = name then (name, v) :: rest else (n, w) :: setEntry name v rest

def set (b : Bindings) (name : Name) (v : Value) : Bindings := ⟨setEntry name v b.entries⟩

@[simp] theorem get?_empty (name : Name) : empty.get? name = none := rfl

theorem lookup_setEntry (name n : Name) (v : Value) (es : List (Name × Value)) :
    (setEntry name v es).lookup n = if n = name then some v else es.lookup n := by
  induction es with
  | nil =>
    by_cases h : n = name
    · simp [setEntry, h]
    · have : (n == name) = false := by simp [h]
      simp [setEntry, List.lookup_cons, h, this]
  | cons e es ih =>
    obtain ⟨m, w⟩ := e
    unfold setEntry
    split
    · next h =>
      subst h
      by_cases hn : n = m
      · simp [hn]
      · have : (n == m) = false := by simp [hn]
        simp [List.lookup_cons, hn, this]
    · next h =>
      by_cases hn : n = m
      · subst hn
        simp [h]
      · have : (n == m) = false := by simp [hn]
        simp [List.lookup_cons, this, ih]

theorem get?_set (b : Bindings) (name n : Name) (v : Value) :
    (b.set name v).get? n = if n = name then some v else b.get? n :=
  lookup_setEntry name n v b.entries

end Bindings

structure Scope where
  bindings : Bindings
  enclosing : Option ScopeId

structure Store where
  scopes : Array Scope

namespace Store

def empty : Store := ⟨#[]⟩

def next (s : Store) : ScopeId := s.scopes.size

def alloc (s : Store) (enclosing : Option ScopeId) : Store :=
  ⟨s.scopes.push ⟨.empty, enclosing⟩⟩

def enclosing? (s : Store) (id : ScopeId) : Option ScopeId := s.scopes[id]?.bind (·.enclosing)

def read? (s : Store) (id : ScopeId) (name : Name) : Option Value :=
  s.scopes[id]?.bind (·.bindings.get? name)

def define (s : Store) (id : ScopeId) (name : Name) (v : Value) : Store :=
  ⟨s.scopes.modify id fun scope => { scope with bindings := scope.bindings.set name v }⟩

def ancestor? (s : Store) (id : ScopeId) : Nat → Option ScopeId
  | 0 => some id
  | d + 1 => (s.enclosing? id).bind (s.ancestor? · d)

def holderWithin? (s : Store) (name : Name) : Nat → ScopeId → Option ScopeId
  | 0, _ => none
  | links + 1, id =>
    if (s.read? id name).isSome then some id
    else (s.enclosing? id).bind (s.holderWithin? name links)

/- No chain of links is longer than the number of scopes. -/
def holder? (s : Store) (id : ScopeId) (name : Name) : Option ScopeId :=
  s.holderWithin? name s.scopes.size id

def holderAt? (s : Store) (id : ScopeId) (distance : Nat) (name : Name) : Option ScopeId :=
  (s.ancestor? id distance).filter fun h => (s.read? h name).isSome

def get? (s : Store) (id : ScopeId) (name : Name) : Option Value :=
  (s.holder? id name).bind (s.read? · name)

def getAt? (s : Store) (id : ScopeId) (distance : Nat) (name : Name) : Option Value :=
  (s.holderAt? id distance name).bind (s.read? · name)

def assign? (s : Store) (id : ScopeId) (name : Name) (v : Value) : Option Store :=
  (s.holder? id name).map (s.define · name v)

def assignAt? (s : Store) (id : ScopeId) (distance : Nat) (name : Name) (v : Value) : Option Store :=
  (s.holderAt? id distance name).map (s.define · name v)

theorem read?_define (s : Store) (id i : ScopeId) (name n : Name) (v : Value) :
    (s.define id name v).read? i n =
      if i = id ∧ n = name ∧ id < s.next then some v else s.read? i n := by
  simp only [define, read?, next, Array.getElem?_modify]
  by_cases hi : id = i
  · subst hi
    by_cases hs : id < s.scopes.size
    · by_cases hn : n = name <;> simp [hs, hn, Bindings.get?_set]
    · simp [hs]
  · simp [hi, Ne.symm hi]

@[simp] theorem enclosing?_define (s : Store) (id i : ScopeId) (name : Name) (v : Value) :
    (s.define id name v).enclosing? i = s.enclosing? i := by
  simp only [define, enclosing?, Array.getElem?_modify]
  by_cases hi : id = i
  · subst hi; cases s.scopes[id]? <;> simp
  · simp [hi]

@[simp] theorem next_define (s : Store) (id : ScopeId) (name : Name) (v : Value) :
    (s.define id name v).next = s.next := by simp [define, next]

@[simp] theorem ancestor?_define (s : Store) (id i : ScopeId) (name : Name) (v : Value) (d : Nat) :
    (s.define id name v).ancestor? i d = s.ancestor? i d := by
  induction d generalizing i with
  | zero => rfl
  | succ d ih => simp only [ancestor?, enclosing?_define, ih]

@[simp] theorem next_alloc (s : Store) (e : Option ScopeId) : (s.alloc e).next = s.next + 1 := by
  simp [alloc, next]

theorem read?_alloc (s : Store) (e : Option ScopeId) (i : ScopeId) (n : Name) :
    (s.alloc e).read? i n = s.read? i n := by
  simp only [alloc, read?, Array.getElem?_push]
  split <;> simp_all

theorem enclosing?_alloc (s : Store) (e : Option ScopeId) (i : ScopeId) :
    (s.alloc e).enclosing? i = if i = s.next then e else s.enclosing? i := by
  simp only [alloc, enclosing?, next, Array.getElem?_push]
  split <;> simp_all

end Store
end LoxLang
