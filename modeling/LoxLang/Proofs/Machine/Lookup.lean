import LoxLang.Proofs.Scoping.Table
import LoxLang.Proofs.Machine.Failure

/-!
Lookup by distance: in a scoped configuration whose nodes have the distances of their layers, the
scope at the distance on file is there and binds the name, and only globals can be undefined.
-/
namespace LoxLang

namespace Store

variable {Q : Layers → Name → NodeId → Prop} {st : Store} {W : Labels}

/-- The scope at the distance of a name binds it. -/
theorem Chain.ancestor?_of_distance? {id : ScopeId} {ls : Layers} {name : Name} {d : Nat}
    (h : st.Chain W id ls) (hd : ls.distance? name = some d) :
    ∃ a, st.ancestor? id d = some a ∧ (st.read? a name).isSome := by
  obtain ⟨l, hl, hname⟩ := Layers.distance?_eq_some hd
  obtain ⟨a, ha, hc⟩ := h.ancestor? hl
  exact ⟨a, ha, hc.2.2.2.1 name hname⟩

theorem holderAt?_eq_some {id a : ScopeId} {d : Nat} {name : Name} :
    st.holderAt? id d name = some a ↔ st.ancestor? id d = some a ∧ (st.read? a name).isSome := by
  rw [holderAt?, Option.filter_eq_some_iff]

theorem getAt?_isSome {id a : ScopeId} {d : Nat} {name : Name}
    (h : st.holderAt? id d name = some a) : (st.getAt? id d name).isSome := by
  rw [getAt?, h]
  exact (holderAt?_eq_some.mp h).2

theorem assignAt?_isSome {id a : ScopeId} {d : Nat} {name : Name}
    (h : st.holderAt? id d name = some a) (v : Value) : (st.assignAt? id d name v).isSome := by
  rw [assignAt?, h]
  rfl

theorem holderWithin?_read {name : Name} {n : Nat} {id h : ScopeId}
    (hh : st.holderWithin? name n id = some h) : (st.read? h name).isSome := by
  induction n generalizing id with
  | zero => cases hh
  | succ n ih =>
    rw [holderWithin?] at hh
    split at hh
    · next hread => cases hh; exact hread
    · obtain ⟨outer, -, ho⟩ := Option.bind_eq_some_iff.mp hh
      exact ih ho

/-- Around the globals lies nothing. -/
theorem holder?_globals (h0 : 0 < st.next) (he : st.enclosing? globals = none) (name : Name) :
    st.holder? globals name = if (st.read? globals name).isSome then some globals else none := by
  obtain ⟨n, hn⟩ := Nat.exists_eq_succ_of_ne_zero (Nat.ne_of_gt h0)
  have hn : st.scopes.size = n + 1 := hn
  rw [holder?, hn, holderWithin?, he]
  rfl

theorem Scoped.holder?_globals (h : st.Scoped Q W) (name : Name) :
    st.holder? globals name = if (st.read? globals name).isSome then some globals else none :=
  Store.holder?_globals h.nonempty h.enclosing_globals name

end Store

theorem Locator.byDistance_some {m : Machine} {name : Name} {id : NodeId} {d : Nat}
    (h : m.distances[id]? = some d) : byDistance m name id = m.store.holderAt? m.current d name := by
  rw [byDistance, h]

theorem Locator.byDistance_none {m : Machine} {name : Name} {id : NodeId}
    (h : m.distances[id]? = none) : byDistance m name id = m.store.holder? globals name := by
  rw [byDistance, h]

theorem Locator.finds_byDistance : Locator.byDistance.Finds := by
  intro m name id h hh
  unfold byDistance at hh
  split at hh
  · exact (Store.holderAt?_eq_some.mp hh).2
  · exact Store.holderWithin?_read hh

namespace Config

variable {Q : Layers → Name → NodeId → Prop} {c : Config} {line : Nat} {name : Name} {id : NodeId}

/-- A node is looked up in the layers of the current chain. -/
theorem Scoped.chain_of_looksUp (h : c.Scoped Q) (hl : c.LooksUp line name id) :
    ∃ W ls, c.machine.store.Scoped Q W ∧ c.machine.store.Chain W c.machine.current ls ∧
      Q ls name id := by
  obtain ⟨W, hm, hc⟩ := h
  cases hl with
  | reference =>
    obtain ⟨ls, hch, he, -⟩ := hc
    exact ⟨W, ls, hm, hch, he⟩
  | assign =>
    obtain ⟨ls, hch, -, hf⟩ := hc
    exact ⟨W, ls, hm, hch, hf.1⟩

/-- The scope at the distance on file binds the name. -/
theorem Scoped.holderAt?_of_looksUp {d : Nat} (h : c.Scoped Q)
    (hQ : ∀ ls name id, Q ls name id → Bound c.machine.distances ls name id)
    (hl : c.LooksUp line name id) (hd : c.machine.distances[id]? = some d) :
    ∃ a, c.machine.store.holderAt? c.machine.current d name = some a := by
  obtain ⟨W, ls, -, hch, hq⟩ := h.chain_of_looksUp hl
  have hbound : ls.distance? name = some d := (hQ ls name id hq).symm.trans hd
  obtain ⟨a, ha⟩ := hch.ancestor?_of_distance? hbound
  exact ⟨a, Store.holderAt?_eq_some.mpr ha⟩

/-- Only a reference or an assignment can find a variable undefined. -/
theorem looksUp_of_raises {locate : Locator} {n : Name}
    (h : c.Raises locate ⟨.undefinedVariable n, line⟩) (hf : locate.Finds) :
    ∃ id, c.LooksUp line n id ∧ locate c.machine n id = none := by
  cases h.failsBy with
  | misuse hm => cases hm
  | @undefined _ _ id hl hnone =>
    refine ⟨id, hl, ?_⟩
    cases ha : locate c.machine n id with
    | none => rfl
    | some a =>
      rw [ha, Option.bind_some] at hnone
      exact absurd hnone (Option.isSome_iff_ne_none.mp (hf c.machine n id a ha))

end Config
end LoxLang
