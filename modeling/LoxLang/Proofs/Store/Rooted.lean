import LoxLang.Proofs.Store.Slots

/-!
Rooted stores. All links lead to the globals in the end, so a search along them comes to an end, and a store
that grows keeps its links and its names.
-/
namespace LoxLang
namespace Store

/-- Only the globals lie in no other scope, and functions in variables keep scopes that are there. -/
structure Rooted (st : Store) : Prop where
  nonempty : 0 < st.next
  nested : st.Nested
  root : ∀ id < st.next, st.enclosing? id = none → id = globals
  closures : ∀ id name f, st.read? id name = some (.function f) → f.closure < st.next

inductive Search (st : Store) (name : Name) : ScopeId → Option ScopeId → Prop where
  | found {id : ScopeId} : (st.read? id name).isSome → Search st name id (some id)
  | outward {id outer : ScopeId} {h? : Option ScopeId} :
    st.read? id name = none → st.enclosing? id = some outer → Search st name outer h? →
      Search st name id h?
  | missing {id : ScopeId} :
    st.read? id name = none → st.enclosing? id = none → Search st name id none

structure GrowsTo (st st' : Store) : Prop where
  next : st.next ≤ st'.next
  enclosing : ∀ id < st.next, st'.enclosing? id = st.enclosing? id
  bound : ∀ id name, (st.read? id name).isSome → (st'.read? id name).isSome

section
variable {st st' st'' : Store} {W W' : Labels} {id outer : ScopeId} {name : Name} {v : Value} {k : Nat}

theorem GrowsTo.refl (st : Store) : st.GrowsTo st := ⟨Nat.le_refl _, fun _ _ => rfl, fun _ _ h => h⟩

theorem GrowsTo.trans (h : st.GrowsTo st') (h' : st'.GrowsTo st'') : st.GrowsTo st'' where
  next := Nat.le_trans h.next h'.next
  enclosing id hid := (h'.enclosing id (Nat.lt_of_lt_of_le hid h.next)).trans (h.enclosing id hid)
  bound id name hb := h'.bound id name (h.bound id name hb)

theorem Grows.growsTo (h : st.Grows W st' W') : st.GrowsTo st' := ⟨h.next, h.enclosing, h.bound⟩

theorem growsTo_define (st : Store) (id : ScopeId) (name : Name) (v : Value) :
    st.GrowsTo (st.define id name v) :=
  (st.grows_define (fun _ => []) id name v).growsTo

theorem growsTo_alloc (st : Store) (outer : Option ScopeId) : st.GrowsTo (st.alloc outer) :=
  (st.grows_alloc (fun _ => []) outer []).growsTo

theorem Rooted.define (h : st.Rooted) (hv : ∀ f, v = .function f → f.closure < st.next) :
    (st.define id name v).Rooted where
  nonempty := by simpa using h.nonempty
  nested := h.nested.define id name v
  root i hi ho := h.root i (by simpa using hi) (by simpa using ho)
  closures i n f hf := by
    rw [next_define]
    rw [read?_define] at hf
    split at hf
    · exact hv f (Option.some_inj.mp hf)
    · exact h.closures i n f hf

theorem Rooted.alloc (h : st.Rooted) (ho : outer < st.next) : (st.alloc (some outer)).Rooted where
  nonempty := by simp
  nested := h.nested.alloc (by rintro _ ⟨⟩; exact ho)
  root i hi hnone := by
    rw [next_alloc] at hi
    rw [enclosing?_alloc] at hnone
    split at hnone
    · cases hnone
    · next hne => exact h.root i (Nat.lt_of_le_of_ne (Nat.le_of_lt_succ hi) hne) hnone
  closures i n f hf := by
    rw [read?_alloc] at hf
    rw [next_alloc]
    exact Nat.lt_succ_of_lt (h.closures i n f hf)

theorem Rooted.enclosing_globals (h : st.Rooted) : st.enclosing? globals = none :=
  Option.eq_none_iff_forall_ne_some.mpr fun outer ho => Nat.not_lt_zero outer (h.nested globals outer ho)

/-- From each scope so many links lead to the globals, and no more. -/
theorem Rooted.exists_links (h : st.Rooted) (hid : id < st.next) :
    ∃ n, st.ancestor? id n = some globals ∧ ∀ d, (st.ancestor? id d).isSome ↔ d ≤ n := by
  induction id using Nat.strong_induction_on with
  | _ id ih =>
    cases ho : st.enclosing? id with
    | none =>
      refine ⟨0, congrArg some (h.root id hid ho), fun d => ?_⟩
      cases d with
      | zero => simp [ancestor?]
      | succ d => simp [ancestor?, ho]
    | some outer =>
      have hlt := h.nested id outer ho
      obtain ⟨n, hn, hlinks⟩ := ih outer hlt (Nat.lt_trans hlt hid)
      refine ⟨n + 1, ancestor?_succ_eq_some.mpr ⟨outer, ho, hn⟩, fun d => ?_⟩
      cases d with
      | zero => simp [ancestor?]
      | succ d => rw [ancestor?, ho, Option.bind_some, hlinks, Nat.add_le_add_iff_right]

/-- Links lead to older scopes, so there are enough of them before the search is given up. -/
theorem Nested.search_holderWithin? (h : st.Nested) (hk : id < k) :
    st.Search name id (st.holderWithin? name k id) := by
  induction k generalizing id with
  | zero => exact absurd hk (Nat.not_lt_zero id)
  | succ k ih =>
    rw [holderWithin?]
    cases hread : st.read? id name with
    | some v => exact .found (by rw [hread]; rfl)
    | none =>
      rw [Option.isSome_none, if_neg (by simp)]
      cases ho : st.enclosing? id with
      | none => exact .missing hread ho
      | some outer =>
        have hlt := Nat.lt_of_lt_of_le (h id outer ho) (Nat.le_of_lt_succ hk)
        exact .outward hread ho (ih hlt)

theorem Nested.search_holder? (h : st.Nested) (hid : id < st.next) (name : Name) :
    st.Search name id (st.holder? id name) :=
  h.search_holderWithin? hid

end
end Store
end LoxLang
