import LoxLang.Proofs.Machine.Outline
import LoxLang.Proofs.Machine.Stands
import LoxLang.Proofs.Renaming.Alike

/-!
Stores that are alike but for two names that are exchanged in some scopes. Functions in them have bodies
that are alike, seen from the scope that the function keeps.
-/
namespace LoxLang

abbrev Exchanging := ScopeId → Bool

/-- From this scope outward all scopes are there, and they exchange the names as the marks say. -/
def Store.Marked (st : Store) (M : Exchanging) (id : ScopeId) (marks : Marks) : Prop :=
  ∀ d a, st.ancestor? id d = some a → a < st.next ∧ M a = marks d

section Definitions
variable (T : Distances) (x y : Name)

inductive Value.Alike (st : Store) (M : Exchanging) : Value → Value → Prop where
  | same (v : Value) : (∀ f, v ≠ .function f) → Value.Alike st M v v
  | function {marks : Marks} (b : Bool) (identity : Nat) (name : Name) (params : List Name)
      {body body' : List Stmt} {closure : ScopeId} :
    st.Marked M closure marks → Stmt.AllAlike T x y (marks.push b) body body' →
      Value.Alike st M (.function ⟨identity, name, params, body, closure⟩)
        (.function ⟨identity, name, params.map (exchange x y b), body', closure⟩)

structure Store.Alike (M : Exchanging) (st st' : Store) : Prop where
  next : st'.next = st.next
  enclosing : ∀ id, st'.enclosing? id = st.enclosing? id
  globals : M globals = false
  read : ∀ id n, Option.Rel (Value.Alike T x y st M) (st.read? id n)
    (st'.read? id (exchange x y (M id) n))

end Definitions

def Store.Keeps (st : Store) (M : Exchanging) (st₂ : Store) (M₂ : Exchanging) : Prop :=
  ∀ id marks, st.Marked M id marks → st₂.Marked M₂ id marks

section
variable {T : Distances} {x y : Name} {st st' : Store} {M : Exchanging}

namespace Store

theorem keeps_define (st : Store) (M : Exchanging) (id : ScopeId) (name : Name) (v : Value) :
    st.Keeps M (st.define id name v) M := by
  intro i marks h d a ha
  rw [next_define]
  exact h d a (by simpa using ha)

theorem ancestor?_alloc {id : ScopeId} (e : Option ScopeId) {d : Nat}
    (h : ∀ d a, st.ancestor? id d = some a → a < st.next) :
    (st.alloc e).ancestor? id d = st.ancestor? id d := by
  induction d generalizing id with
  | zero => rfl
  | succ d ih =>
    have hne : id ≠ st.next := Nat.ne_of_lt (h 0 id rfl)
    rw [Store.ancestor?, Store.ancestor?, enclosing?_alloc, if_neg hne]
    cases ho : st.enclosing? id with
    | none => rfl
    | some outer => exact ih fun d a ha => h (d + 1) a (by rw [Store.ancestor?, ho]; exact ha)

theorem keeps_alloc (st : Store) (M : Exchanging) (e : Option ScopeId) (b : Bool) :
    st.Keeps M (st.alloc e) (Function.update M st.next b) := by
  intro id marks h d a ha
  rw [ancestor?_alloc e fun d a ha => (h d a ha).1] at ha
  obtain ⟨hlt, hm⟩ := h d a ha
  rw [next_alloc, Function.update_of_ne (Nat.ne_of_lt hlt)]
  exact ⟨Nat.lt_succ_of_lt hlt, hm⟩

/-- A new scope, seen from inside. -/
theorem Marked.alloc {outer : ScopeId} {marks : Marks} (h : st.Marked M outer marks) (b : Bool) :
    (st.alloc (some outer)).Marked (Function.update M st.next b) st.next (marks.push b) := by
  intro d a ha
  cases d with
  | zero =>
    cases ha
    exact ⟨by simp, by simp [Marks.push]⟩
  | succ d =>
    rw [Store.ancestor?, enclosing?_alloc, if_pos rfl] at ha
    exact st.keeps_alloc M (some outer) b outer marks h d a ha

end Store

theorem Value.Alike.keep {st₂ : Store} {M₂ : Exchanging} {v v' : Value}
    (h : Value.Alike T x y st M v v') (hk : st.Keeps M st₂ M₂) : Value.Alike T x y st₂ M₂ v v' := by
  cases h with
  | same v hv => exact .same v hv
  | function b identity name params hm hb => exact .function b identity name params (hk _ _ hm) hb

namespace Store.Alike

theorem define {v v' : Value} (h : Store.Alike T x y M st st') (id : ScopeId) (name : Name)
    (hv : Value.Alike T x y st M v v') :
    Store.Alike T x y M (st.define id name v) (st'.define id (exchange x y (M id) name) v') where
  next := by simpa using h.next
  enclosing i := by simpa using h.enclosing i
  globals := h.globals
  read i n := by
    have hk := st.keeps_define M id name v
    have hold : Option.Rel (Value.Alike T x y (st.define id name v) M) (st.read? i n)
        (st'.read? i (exchange x y (M i) n)) := rel_imp (h.read i n) fun _ _ hr => hr.keep hk
    rw [Store.read?_define, Store.read?_define, h.next]
    by_cases hi : i = id
    · subst hi
      simp only [(exchange_injective x y (M i)).eq_iff]
      split
      · exact .some (hv.keep hk)
      · exact hold
    · rw [if_neg fun hn => hi hn.1, if_neg fun hn => hi hn.1]
      exact hold

theorem alloc (h : Store.Alike T x y M st st') (h0 : 0 < st.next) (e : Option ScopeId) (b : Bool) :
    Store.Alike T x y (Function.update M st.next b) (st.alloc e) (st'.alloc e) where
  next := by simpa using h.next
  enclosing i := by rw [Store.enclosing?_alloc, Store.enclosing?_alloc, h.next, h.enclosing i]
  globals := by
    have hne : LoxLang.globals ≠ st.next := Nat.ne_of_lt h0
    rw [Function.update_of_ne hne]
    exact h.globals
  read i n := by
    rw [Store.read?_alloc, Store.read?_alloc]
    by_cases hi : i = st.next
    · have hnone (s : Store) (hs : s.next = st.next) (n : Name) : s.read? i n = none := by
        rw [hi, ← hs]
        simp [Store.read?, Store.next]
      rw [hnone st rfl, hnone st' h.next]
      exact .none
    · rw [Function.update_of_ne hi]
      exact rel_imp (h.read i n) fun _ _ hr => hr.keep (st.keeps_alloc M e b)

theorem ancestor? (h : Store.Alike T x y M st st') (id : ScopeId) (d : Nat) :
    st'.ancestor? id d = st.ancestor? id d := by
  induction d generalizing id with
  | zero => rfl
  | succ d ih =>
    rw [Store.ancestor?, Store.ancestor?, h.enclosing id]
    cases st.enclosing? id with
    | none => rfl
    | some outer => exact ih outer

theorem read?_isSome (h : Store.Alike T x y M st st') (id : ScopeId) (n : Name) :
    (st'.read? id (exchange x y (M id) n)).isSome = (st.read? id n).isSome :=
  isSome_eq_of_rel (h.read id n)

end Store.Alike

theorem Value.Alike.outline {v v' : Value} (h : Value.Alike T x y st M v v') :
    v'.outline = v.outline := by
  cases h <;> rfl

end
end LoxLang
