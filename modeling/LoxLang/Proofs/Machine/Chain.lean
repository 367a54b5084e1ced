import Mathlib.Logic.Function.Basic
import LoxLang.Machine
import LoxLang.Proofs.Scoping.Layers

/-!
Chains: the scopes met on the way from a scope to the globals, beside the layers of the text that they
are instances of. A store only grows, and a chain stays what it is.
-/
namespace LoxLang

/-- For each scope the names that its block or function declares. -/
abbrev Labels := ScopeId → List Name

namespace Store

/-- The scopes from `id` outward bind all that the layers show, and the globals come after them. -/
def Chain (st : Store) (W : Labels) (id : ScopeId) : Layers → Prop
  | [] => id = globals
  | l :: ls =>
    id ≠ globals ∧ id < st.next ∧ W id = l.declared ∧
      (∀ n ∈ l.visible, (st.read? id n).isSome) ∧
        ∃ outer, outer < id ∧ st.enclosing? id = some outer ∧ Chain st W outer ls

structure Grows (st : Store) (W : Labels) (st' : Store) (W' : Labels) : Prop where
  next : st.next ≤ st'.next
  enclosing : ∀ id < st.next, st'.enclosing? id = st.enclosing? id
  bound : ∀ id n, (st.read? id n).isSome → (st'.read? id n).isSome
  labels : ∀ id < st.next, W' id = W id

section
variable {st st' : Store} {W W' : Labels}

theorem grows_define (st : Store) (W : Labels) (id : ScopeId) (name : Name) (v : Value) :
    st.Grows W (st.define id name v) W where
  next := by simp
  enclosing i _ := st.enclosing?_define id i name v
  bound i n h := by
    rw [read?_define]
    split
    · rfl
    · exact h
  labels _ _ := rfl

theorem grows_alloc (st : Store) (W : Labels) (outer : Option ScopeId) (names : List Name) :
    st.Grows W (st.alloc outer) (Function.update W st.next names) where
  next := by simp
  enclosing i hi := by rw [enclosing?_alloc, if_neg (Nat.ne_of_lt hi)]
  bound i n h := by rwa [read?_alloc]
  labels i hi := Function.update_of_ne (Nat.ne_of_lt hi) names W

theorem Chain.grow {id : ScopeId} {ls : Layers} (h : st.Chain W id ls) (hg : st.Grows W st' W') :
    st'.Chain W' id ls := by
  induction ls generalizing id with
  | nil => exact h
  | cons l ls ih =>
    obtain ⟨h0, hlt, hw, hv, outer, ho, he, hc⟩ := h
    exact ⟨h0, Nat.lt_of_lt_of_le hlt hg.next, (hg.labels id hlt).trans hw,
      fun n hn => hg.bound id n (hv n hn), outer, ho, (hg.enclosing id hlt).trans he, ih hc⟩

theorem Chain.lt_next {id : ScopeId} {ls : Layers} (h : st.Chain W id ls) (h0 : 0 < st.next) :
    id < st.next := by
  cases ls with
  | nil => exact h ▸ h0
  | cons l ls => exact h.2.1

/-- A declaration binds its name in the innermost scope. -/
theorem Chain.define {id : ScopeId} {ls : Layers} (h : st.Chain W id ls) (name : Name) (v : Value) :
    (st.define id name v).Chain W id (ls.reveal name) := by
  have hg := st.grows_define W id name v
  cases ls with
  | nil => exact h
  | cons l ls =>
    obtain ⟨h0, hlt, hw, hv, outer, ho, he, hc⟩ := h.grow hg
    refine ⟨h0, hlt, hw, fun n hn => ?_, outer, ho, he, hc⟩
    rcases List.mem_cons.mp hn with rfl | hn
    · rw [read?_define, if_pos ⟨rfl, rfl, by simpa using hlt⟩]
      rfl
    · exact hv n hn

theorem Chain.alloc {id : ScopeId} {ls : Layers} (h : st.Chain W id ls) (h0 : 0 < st.next)
    (names : List Name) :
    (st.alloc (some id)).Chain (Function.update W st.next names) st.next (⟨[], names⟩ :: ls) := by
  refine ⟨Nat.ne_of_gt h0, by simp, by simp, nofun, id, h.lt_next h0, ?_, ?_⟩
  · rw [enclosing?_alloc, if_pos rfl]
  · exact h.grow (st.grows_alloc W (some id) names)

theorem Chain.weaken {id : ScopeId} {l l' : Layer} {ls : Layers} (h : st.Chain W id (l :: ls))
    (hv : ∀ n ∈ l'.visible, n ∈ l.visible) (hd : l'.declared = l.declared) :
    st.Chain W id (l' :: ls) := by
  obtain ⟨h0, hlt, hw, hb, ho⟩ := h
  exact ⟨h0, hlt, hw.trans hd.symm, fun n hn => hb n (hv n hn), ho⟩

/-- The scope so many links out belongs to the layer so far out. -/
theorem Chain.ancestor? {id : ScopeId} {ls : Layers} (h : st.Chain W id ls) {d : Nat} {l : Layer}
    (hd : ls[d]? = some l) :
    ∃ a, st.ancestor? id d = some a ∧ st.Chain W a (l :: ls.drop (d + 1)) := by
  induction ls generalizing id d with
  | nil => cases hd
  | cons l' ls ih =>
    cases d with
    | zero =>
      obtain rfl : l' = l := by simpa using hd
      exact ⟨id, rfl, h⟩
    | succ d =>
      obtain ⟨-, -, -, -, outer, -, he, hc⟩ := h
      obtain ⟨a, ha, hca⟩ := ih hc (by simpa using hd)
      exact ⟨a, by rw [Store.ancestor?, he]; exact ha, hca⟩

end
end Store
end LoxLang
