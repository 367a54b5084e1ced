import Mathlib.Data.Nat.Find
import LoxLang.Proofs.Machine.Isolation

/-!
The laws of slots. Scopes share the scopes around them, so a write through one scope shows through others:
exactly through those that find the name in the scope that was written.
-/
namespace LoxLang

namespace Store

inductive Act where
  | root
  | child (outer : ScopeId)
  | define (id : ScopeId) (name : Name) (v : Value)
  | assign (id : ScopeId) (name : Name) (v : Value)
  | assignAt (id : ScopeId) (distance : Nat) (name : Name) (v : Value)

def Act.scope? : Act → Option ScopeId
  | root => none
  | child id | define id _ _ | assign id _ _ | assignAt id _ _ _ => some id

/-- An assignment that finds no slot changes nothing. -/
def perform (st : Store) : Act → Store
  | .root => st.alloc none
  | .child outer => st.alloc (some outer)
  | .define id name v => st.define id name v
  | .assign id name v => (st.assign? id name v).getD st
  | .assignAt id distance name v => (st.assignAt? id distance name v).getD st

inductive Grown : Store → Prop where
  | empty : Grown .empty
  | perform {st : Store} (act : Act) :
    Grown st → (∀ id ∈ act.scope?, id < st.next) → Grown (st.perform act)

def Nested (st : Store) : Prop := ∀ id outer, st.enclosing? id = some outer → outer < id

structure Meets (st : Store) (f : ScopeId) (name : Name) (n : Nat) (h : ScopeId) : Prop where
  ancestor : st.ancestor? f n = some h
  unbound : ∀ m < n, ∀ a, st.ancestor? f m = some a → st.read? a name = none

/-- `h` is the nearest scope from `f` that binds the name, and it lies `n` links out. -/
structure Finds (st : Store) (f : ScopeId) (name : Name) (n : Nat) (h : ScopeId) : Prop
    extends Meets st f name n h where
  bound : (st.read? h name).isSome

/-- What a write of `v` to a slot of `h` changes: the reads that come to this slot. -/
structure Writes (st : Store) (h : ScopeId) (name : Name) (v : Value) (st' : Store) : Prop where
  get : ∀ f, (∃ n, st.Finds f name n h) → st'.get? f name = some v
  get_other : ∀ f y, ¬(y = name ∧ ∃ n, st.Finds f name n h) → st'.get? f y = st.get? f y
  getAt : ∀ f n, st.ancestor? f n = some h → st'.getAt? f n name = some v
  getAt_other : ∀ f n y, ¬(y = name ∧ st.ancestor? f n = some h) →
    st'.getAt? f n y = st.getAt? f n y

section
variable {st : Store} {id f h h' outer : ScopeId} {name y : Name} {n n' d k : Nat} {v : Value}

theorem Nested.alloc (hst : st.Nested) {outer? : Option ScopeId}
    (houter : ∀ outer ∈ outer?, outer < st.next) : (st.alloc outer?).Nested := by
  intro i o ho
  rw [enclosing?_alloc] at ho
  split at ho
  · next hi => exact hi ▸ houter o ho
  · exact hst i o ho

theorem Nested.define (hst : st.Nested) (id : ScopeId) (name : Name) (v : Value) :
    (st.define id name v).Nested := fun i o ho => hst i o (by simpa using ho)

/-- A write that succeeds is a definition where the name is bound. -/
theorem assign?_eq_some {st' : Store} : st.assign? id name v = some st' ↔
    ∃ h, st.holder? id name = some h ∧ st.define h name v = st' :=
  Option.map_eq_some_iff

theorem assignAt?_eq_some {st' : Store} : st.assignAt? id d name v = some st' ↔
    ∃ h, st.holderAt? id d name = some h ∧ st.define h name v = st' :=
  Option.map_eq_some_iff

theorem Grown.nested (hst : st.Grown) : st.Nested := by
  induction hst with
  | empty =>
    intro i o ho
    simp [enclosing?, Store.empty] at ho
  | @perform st act _ hact ih =>
    cases act with
    | root => exact ih.alloc (by simp)
    | child outer => exact ih.alloc hact
    | define id name v => exact ih.define id name v
    | assign id name v =>
      rw [Store.perform]
      cases hassign : st.assign? id name v with
      | none => exact ih
      | some st' =>
        obtain ⟨h, -, rfl⟩ := assign?_eq_some.mp hassign
        exact ih.define h name v
    | assignAt id d name v =>
      rw [Store.perform]
      cases hassign : st.assignAt? id d name v with
      | none => exact ih
      | some st' =>
        obtain ⟨h, -, rfl⟩ := assignAt?_eq_some.mp hassign
        exact ih.define h name v

/-- The scope `n + 1` links out is `n` links out from the one around. -/
theorem ancestor?_succ_eq_some :
    st.ancestor? f (n + 1) = some h ↔
      ∃ outer, st.enclosing? f = some outer ∧ st.ancestor? outer n = some h :=
  Option.bind_eq_some_iff

theorem finds_zero : st.Finds f name 0 h ↔ f = h ∧ (st.read? f name).isSome := by
  constructor
  · rintro ⟨⟨hf, -⟩, hbound⟩
    cases hf
    exact ⟨rfl, hbound⟩
  · rintro ⟨rfl, hbound⟩
    exact ⟨⟨rfl, fun m hm => absurd hm (Nat.not_lt_zero m)⟩, hbound⟩

/-- A scope that does not bind the name finds it where the scope around does. -/
theorem finds_succ : st.Finds f name (n + 1) h ↔
    st.read? f name = none ∧ ∃ outer, st.enclosing? f = some outer ∧ st.Finds outer name n h := by
  constructor
  · rintro ⟨⟨hf, hbefore⟩, hbound⟩
    obtain ⟨outer, ho, hh⟩ := ancestor?_succ_eq_some.mp hf
    refine ⟨hbefore 0 (Nat.succ_pos n) f rfl, outer, ho, ⟨hh, fun m hm a ha => ?_⟩, hbound⟩
    exact hbefore (m + 1) (Nat.succ_lt_succ hm) a (ancestor?_succ_eq_some.mpr ⟨outer, ho, ha⟩)
  · rintro ⟨hnone, outer, ho, ⟨hh, hbefore⟩, hbound⟩
    refine ⟨⟨ancestor?_succ_eq_some.mpr ⟨outer, ho, hh⟩, fun m hm a ha => ?_⟩, hbound⟩
    cases m with
    | zero => cases ha; exact hnone
    | succ m =>
      obtain ⟨o, ho', ha⟩ := ancestor?_succ_eq_some.mp ha
      obtain rfl : outer = o := Option.some_inj.mp (ho.symm.trans ho')
      exact hbefore m (Nat.lt_of_succ_lt_succ hm) a ha

/-- The search finds the nearest scope, as long as it may follow more links than there are scopes. -/
theorem Nested.holderWithin?_eq_some (hst : st.Nested) (hk : f < k) :
    st.holderWithin? name k f = some h ↔ ∃ n, st.Finds f name n h := by
  induction k generalizing f with
  | zero => exact absurd hk (Nat.not_lt_zero f)
  | succ k ih =>
    rw [holderWithin?]
    cases hread : st.read? f name with
    | some w =>
      simp only [Option.isSome_some, if_true, Option.some.injEq]
      refine ⟨fun hf => ⟨0, finds_zero.mpr ⟨hf, by rw [hread]; rfl⟩⟩, ?_⟩
      rintro ⟨n, hn⟩
      cases n with
      | zero => exact (finds_zero.mp hn).1
      | succ n => rw [(finds_succ.mp hn).1] at hread; cases hread
    | none =>
      simp only [Option.isSome_none, Bool.false_eq_true, if_false, Option.bind_eq_some_iff]
      constructor
      · rintro ⟨outer, ho, hh⟩
        have hlt := Nat.lt_of_lt_of_le (hst f outer ho) (Nat.le_of_lt_succ hk)
        obtain ⟨n, hn⟩ := (ih hlt).mp hh
        exact ⟨n + 1, finds_succ.mpr ⟨hread, outer, ho, hn⟩⟩
      · rintro ⟨n, hn⟩
        cases n with
        | zero => have hbound := (finds_zero.mp hn).2; rw [hread] at hbound; cases hbound
        | succ n =>
          obtain ⟨-, outer, ho, hn⟩ := finds_succ.mp hn
          have hlt := Nat.lt_of_lt_of_le (hst f outer ho) (Nat.le_of_lt_succ hk)
          exact ⟨outer, ho, (ih hlt).mpr ⟨n, hn⟩⟩

/-- Only scopes that are there find a name. -/
theorem Finds.lt_next (hf : st.Finds f name n h) : f < st.next := by
  cases n with
  | zero =>
    obtain ⟨w, hw⟩ := Option.isSome_iff_exists.mp (finds_zero.mp hf).2
    exact lt_next_of_read? hw
  | succ n =>
    obtain ⟨-, outer, ho, -⟩ := finds_succ.mp hf
    exact lt_next_of_enclosing? ho

theorem Nested.holder?_eq_some (hst : st.Nested) :
    st.holder? f name = some h ↔ ∃ n, st.Finds f name n h := by
  by_cases hf : f < st.next
  · exact hst.holderWithin?_eq_some hf
  · have hnone : st.holder? f name = none := by
      have hread : st.scopes[f]? = none := Array.getElem?_eq_none (Nat.le_of_not_lt hf)
      rw [holder?]
      cases st.scopes.size with
      | zero => rfl
      | succ k => rw [holderWithin?, read?, enclosing?, hread]; rfl
    rw [hnone]
    constructor
    · intro hh
      cases hh
    · rintro ⟨n, hn⟩
      exact absurd hn.lt_next hf

theorem Nested.get?_of_finds (hst : st.Nested) (hf : st.Finds f name n h) :
    st.get? f name = st.read? h name := by
  rw [get?, hst.holder?_eq_some.mpr ⟨n, hf⟩, Option.bind_some]

theorem Nested.get?_eq_none (hst : st.Nested) (hf : ∀ n h, ¬st.Finds f name n h) :
    st.get? f name = none := by
  rw [get?, Option.bind_eq_none_iff]
  intro h hh
  obtain ⟨n, hn⟩ := hst.holder?_eq_some.mp hh
  exact absurd hn (hf n h)

theorem getAt?_eq_bind : st.getAt? f n name = (st.ancestor? f n).bind (st.read? · name) := by
  rw [getAt?, holderAt?]
  cases st.ancestor? f n with
  | none => rfl
  | some a => cases hread : st.read? a name <;> simp [Option.filter, hread]

/-- The first scope that binds the name is the same in two stores that bind it in the same scopes up to
there. -/
theorem Finds.congr {st' : Store} (hf : st.Finds f name n h)
    (hancestor : ∀ m, st'.ancestor? f m = st.ancestor? f m)
    (hread : ∀ m ≤ n, ∀ a, st.ancestor? f m = some a → st'.read? a name = st.read? a name) :
    st'.Finds f name n h where
  ancestor := (hancestor n).trans hf.ancestor
  unbound m hm a ha := by
    rw [hancestor] at ha
    rw [hread m (Nat.le_of_lt hm) a ha]
    exact hf.unbound m hm a ha
  bound := by
    rw [hread n (Nat.le_refl n) h hf.ancestor]
    exact hf.bound

/-- A scope reads another name, or a name that it finds before the scope that is written, as before. -/
theorem Nested.get?_define_of_not_meets (hst : st.Nested)
    (hf : ¬(y = name ∧ ∃ n, st.Meets f name n id)) : (st.define id name v).get? f y = st.get? f y := by
  have hst' := hst.define id name v
  have hancestor (m : Nat) := st.ancestor?_define id f name v m
  -- No scope up to the nearest one that binds the name is the one that is written.
  have hsame {n : Nat} (hbefore : ∀ m < n, ∀ a, st.ancestor? f m = some a → st.read? a y = none) :
      ∀ m ≤ n, ∀ a, st.ancestor? f m = some a → (st.define id name v).read? a y = st.read? a y := by
    intro m hm a ha
    rw [read?_define, if_neg]
    rintro ⟨rfl, rfl, -⟩
    exact hf ⟨rfl, m, ha, fun i hi => hbefore i (Nat.lt_of_lt_of_le hi hm)⟩
  by_cases hfinds : ∃ n h, st.Finds f y n h
  · obtain ⟨n, h, hn⟩ := hfinds
    have hkept := hsame hn.unbound
    rw [hst.get?_of_finds hn, hst'.get?_of_finds (hn.congr hancestor hkept),
      hkept n (Nat.le_refl n) h hn.ancestor]
  · rw [hst.get?_eq_none fun n h hn => hfinds ⟨n, h, hn⟩]
    refine hst'.get?_eq_none fun n h hn => hfinds ⟨n, h, ?_⟩
    have hbefore : ∀ m < n, ∀ a, st.ancestor? f m = some a → st.read? a y = none := by
      intro m hm a ha
      have hnone := hn.unbound m hm a ((hancestor m).trans ha)
      rw [read?_define] at hnone
      split at hnone
      · cases hnone
      · exact hnone
    refine hn.congr (fun m => (hancestor m).symm) fun m hm a ha => (hsame hbefore m hm a ?_).symm
    exact (hancestor m).symm.trans ha

/-- A scope that comes to the one that is written before it finds the name reads what is written. -/
theorem Nested.get?_define_of_meets (hst : st.Nested) (hid : id < st.next)
    (hf : ∃ n, st.Meets f name n id) : (st.define id name v).get? f name = some v := by
  classical
  have hread : (st.define id name v).read? id name = some v := by
    rw [read?_define, if_pos ⟨rfl, rfl, hid⟩]
  -- The first time that it comes there, no scope before is the one that is written.
  have hfirst := Nat.find_spec hf
  have hbefore : ∀ m < Nat.find hf, ∀ a, st.ancestor? f m = some a →
      (st.define id name v).read? a name = none := by
    intro m hm a ha
    rw [read?_define, if_neg]
    · exact hfirst.unbound m hm a ha
    · rintro ⟨rfl, -, -⟩
      exact Nat.find_min hf hm ⟨ha, fun i hi => hfirst.unbound i (Nat.lt_trans hi hm)⟩
  have hfinds : (st.define id name v).Finds f name (Nat.find hf) id :=
    ⟨⟨by rw [ancestor?_define]; exact hfirst.ancestor,
      fun m hm a ha => hbefore m hm a (by rwa [ancestor?_define] at ha)⟩, by rw [hread]; rfl⟩
  rw [(hst.define id name v).get?_of_finds hfinds, hread]

/-- Where a scope binds the name, it is met before the name is found just where the name is found in it. -/
theorem meets_iff_finds (hbound : (st.read? h name).isSome) :
    (∃ n, st.Meets f name n h) ↔ ∃ n, st.Finds f name n h :=
  exists_congr fun _ => ⟨fun hn => ⟨hn, hbound⟩, fun hn => hn.toMeets⟩

theorem Nested.writes_define (hst : st.Nested) (hbound : (st.read? h name).isSome) :
    st.Writes h name v (st.define h name v) := by
  obtain ⟨w, hw⟩ := Option.isSome_iff_exists.mp hbound
  have hread : (st.define h name v).read? h name = some v := by
    rw [read?_define, if_pos ⟨rfl, rfl, lt_next_of_read? hw⟩]
  constructor
  case get =>
    intro f hf
    exact hst.get?_define_of_meets (lt_next_of_read? hw) ((meets_iff_finds hbound).mpr hf)
  case get_other =>
    intro f y hf
    exact hst.get?_define_of_not_meets fun hy => hf ⟨hy.1, (meets_iff_finds hbound).mp hy.2⟩
  case getAt =>
    intro f n hn
    rw [getAt?_eq_bind, ancestor?_define, hn, Option.bind_some, hread]
  case getAt_other =>
    intro f n y hn
    rw [getAt?_eq_bind, getAt?_eq_bind, ancestor?_define]
    refine Option.bind_congr fun a ha => ?_
    rw [read?_define, if_neg]
    rintro ⟨rfl, rfl, -⟩
    exact hn ⟨rfl, ha⟩

/-- A read and a write find the same slot. -/
theorem isSome_get? : (st.get? f name).isSome = (st.holder? f name).isSome := by
  rw [get?]
  cases hh : st.holder? f name with
  | none => rfl
  | some h => exact holderWithin?_read hh

theorem isSome_getAt? : (st.getAt? f n name).isSome = (st.holderAt? f n name).isSome := by
  rw [getAt?]
  cases hh : st.holderAt? f n name with
  | none => rfl
  | some h => exact (holderAt?_eq_some.mp hh).2

theorem isSome_assign? : (st.assign? f name v).isSome = (st.get? f name).isSome := by
  rw [assign?, Option.isSome_map, isSome_get?]

theorem isSome_assignAt? : (st.assignAt? f n name v).isSome = (st.getAt? f n name).isSome := by
  rw [assignAt?, Option.isSome_map, isSome_getAt?]

end

/-- The laws of slots. An assignment succeeds where a read does, and then it changes the reads that come to
the slot it has written, and no other; a definition changes the reads that come to its scope before they
find the name; and a name is read at the least distance where it is bound. -/
theorem slot_laws {st : Store} (hst : st.Grown) {e : ScopeId} (he : e < st.next) (x : Name) (v : Value) :
    ((st.assign? e x v).isSome ↔ (st.get? e x).isSome) ∧
    (∀ d, (st.assignAt? e d x v).isSome ↔ (st.getAt? e d x).isSome) ∧
    (∀ st', st.assign? e x v = some st' → ∃ d h, st.Finds e x d h ∧ st.Writes h x v st') ∧
    (∀ d st', st.assignAt? e d x v = some st' →
      ∃ h, st.ancestor? e d = some h ∧ (st.read? h x).isSome ∧ st.Writes h x v st') ∧
    (st.get? e x = none → st.perform (.assign e x v) = st) ∧
    (∀ d, st.getAt? e d x = none → st.perform (.assignAt e d x v) = st) ∧
    (∀ f, (∃ n, st.Meets f x n e) → (st.define e x v).get? f x = some v) ∧
    (∀ f y, ¬(y = x ∧ ∃ n, st.Meets f x n e) → (st.define e x v).get? f y = st.get? f y) ∧
    (∀ d h, st.Finds e x d h → st.get? e x = st.getAt? e d x) ∧
    ((∀ d h, ¬st.Finds e x d h) → st.get? e x = none) := by
  have hnested := hst.nested
  refine ⟨by rw [isSome_assign?], fun d => by rw [isSome_assignAt?], fun st' hassign => ?_,
    fun d st' hassign => ?_, fun hnone => ?_, fun d hnone => ?_,
    fun f hf => hnested.get?_define_of_meets he hf,
    fun f y hf => hnested.get?_define_of_not_meets hf, fun d h hd => ?_, hnested.get?_eq_none⟩
  · obtain ⟨h, hholder, rfl⟩ := assign?_eq_some.mp hassign
    obtain ⟨d, hd⟩ := hnested.holder?_eq_some.mp hholder
    exact ⟨d, h, hd, hnested.writes_define hd.bound⟩
  · obtain ⟨h, hholder, rfl⟩ := assignAt?_eq_some.mp hassign
    obtain ⟨hancestor, hbound⟩ := holderAt?_eq_some.mp hholder
    exact ⟨h, hancestor, hbound, hnested.writes_define hbound⟩
  · have hfails : st.assign? e x v = none := by
      rw [← Option.not_isSome_iff_eq_none, isSome_assign?, hnone]
      simp
    rw [perform, hfails, Option.getD_none]
  · have hfails : st.assignAt? e d x v = none := by
      rw [← Option.not_isSome_iff_eq_none, isSome_assignAt?, hnone]
      simp
    rw [perform, hfails, Option.getD_none]
  · rw [hnested.get?_of_finds hd, getAt?_eq_bind, hd.ancestor, Option.bind_some]

/-- A scope inside one that hides `x`, and a sibling of that one, which still reads the outer `x`. -/
theorem slot_laws_siblings :
    let st := [.root, .define 0 "x" (.bool true), .child 0, .define 1 "x" (.bool false), .child 1,
      .child 0].foldl perform .empty
    (st.Grown ∧ 2 < st.next) ∧ ∃ st' d h, st.assign? 2 "x" .nil = some st' ∧
      st.Finds 2 "x" d h ∧ st.Writes h "x" .nil st' ∧
      st'.get? 1 "x" = some .nil ∧ st'.get? 3 "x" = some (.bool true) := by
  intro st
  have hroot : Grown _ := .perform .root .empty (by simp [Act.scope?])
  have houter : Grown _ := .perform (.define 0 "x" (.bool true)) hroot (by rintro _ ⟨⟩; decide)
  have hchild : Grown _ := .perform (.child 0) houter (by rintro _ ⟨⟩; decide)
  have hinner : Grown _ := .perform (.define 1 "x" (.bool false)) hchild (by rintro _ ⟨⟩; decide)
  have hgrandchild : Grown _ := .perform (.child 1) hinner (by rintro _ ⟨⟩; decide)
  have hgrown : st.Grown := .perform (.child 0) hgrandchild (by rintro _ ⟨⟩; decide)
  have he : 2 < st.next := by decide
  have hassign : st.assign? 2 "x" .nil = some (st.define 1 "x" .nil) := rfl
  obtain ⟨d, h, hfinds, hwrites⟩ := (slot_laws hgrown he "x" .nil).2.2.1 _ hassign
  exact ⟨⟨hgrown, he⟩, _, d, h, hassign, hfinds, hwrites, rfl, rfl⟩

end Store
end LoxLang
