import LoxLang.Proofs.Machine.Effect
import LoxLang.Proofs.Machine.Lookup

/-!
Isolation: a part of a program reads and changes only the scopes that it can reach from where it
starts, and it changes only those that lie around code that runs.
-/
namespace LoxLang

namespace Store

/-- From one of the roots the scope is reached along links and through functions in variables. -/
inductive Reaches (st : Store) (root : ScopeId → Prop) : ScopeId → Prop where
  | root {id : ScopeId} : root id → Reaches st root id
  | enclosing {id outer : ScopeId} :
    Reaches st root id → st.enclosing? id = some outer → Reaches st root outer
  | closure {id : ScopeId} {name : Name} {f : Function} :
    Reaches st root id → st.read? id name = some (.function f) → Reaches st root f.closure

def Encloses (st : Store) (inner id : ScopeId) : Prop := ∃ d, st.ancestor? inner d = some id

section
variable {st : Store} {S : ScopeId → Prop} {id a : ScopeId} {name : Name}

def LinksIn (st : Store) (S : ScopeId → Prop) : Prop :=
  ∀ id outer, S id → st.enclosing? id = some outer → S outer

def FunctionsIn (st : Store) (S : ScopeId → Prop) : Prop :=
  ∀ id name f, S id → st.read? id name = some (.function f) → S f.closure

theorem Reaches.mem {root : ScopeId → Prop} (h : st.Reaches root id) (hl : st.LinksIn S)
    (hf : st.FunctionsIn S) (hr : ∀ id, root id → S id) : S id := by
  induction h with
  | root h => exact hr _ h
  | enclosing _ he ih => exact hl _ _ ih he
  | closure _ hread ih => exact hf _ _ _ ih hread

theorem LinksIn.ancestor? (h : st.LinksIn S) {d : Nat} (hid : S id)
    (ha : st.ancestor? id d = some a) : S a := by
  induction d generalizing id with
  | zero => cases ha; exact hid
  | succ d ih =>
    obtain ⟨outer, he, ho⟩ := Option.bind_eq_some_iff.mp ha
    exact ih (h id outer hid he) ho

theorem LinksIn.holderWithin? (h : st.LinksIn S) {n : Nat} (hid : S id)
    (ha : st.holderWithin? name n id = some a) : S a := by
  induction n generalizing id with
  | zero => cases ha
  | succ n ih =>
    rw [Store.holderWithin?] at ha
    split at ha
    · cases ha; exact hid
    · obtain ⟨outer, he, ho⟩ := Option.bind_eq_some_iff.mp ha
      exact ih (h id outer hid he) ho

theorem ancestor?_succ (st : Store) (id : ScopeId) (d : Nat) :
    st.ancestor? id (d + 1) = (st.ancestor? id d).bind st.enclosing? := by
  induction d generalizing id with
  | zero => cases h : st.enclosing? id <;> simp [Store.ancestor?, h]
  | succ d ih =>
    rw [Store.ancestor?, Store.ancestor?]
    cases st.enclosing? id with
    | none => rfl
    | some outer => exact ih outer

theorem Encloses.enclosing {inner outer : ScopeId} (h : st.Encloses inner id)
    (he : st.enclosing? id = some outer) : st.Encloses inner outer := by
  obtain ⟨d, hd⟩ := h
  exact ⟨d + 1, by rw [ancestor?_succ, hd]; exact he⟩

/-- Only scopes that are there have links. -/
theorem lt_next_of_enclosing? {outer : ScopeId} (h : st.enclosing? id = some outer) :
    id < st.next := by
  obtain ⟨scope, hs, -⟩ := Option.bind_eq_some_iff.mp h
  exact (Array.getElem?_eq_some_iff.mp hs).1

theorem lt_next_of_read? {v : Value} (h : st.read? id name = some v) : id < st.next := by
  obtain ⟨scope, hs, -⟩ := Option.bind_eq_some_iff.mp h
  exact (Array.getElem?_eq_some_iff.mp hs).1

theorem scopes_define_of_ne {h : ScopeId} (hne : id ≠ h) (v : Value) :
    (st.define h name v).scopes[id]? = st.scopes[id]? := by
  rw [define, Array.getElem?_modify, if_neg (Ne.symm hne)]

theorem scopes_alloc_of_lt {outer : Option ScopeId} (hid : id < st.next) :
    (st.alloc outer).scopes[id]? = st.scopes[id]? := by
  have hne : id ≠ st.scopes.size := Nat.ne_of_lt hid
  rw [alloc, Array.getElem?_push, if_neg hne]

theorem LinksIn.define {h : ScopeId} (hl : st.LinksIn S) (v : Value) :
    (st.define h name v).LinksIn S := by
  intro i o hi he
  rw [enclosing?_define] at he
  exact hl i o hi he

theorem LinksIn.alloc {outer : ScopeId} (h : st.LinksIn S) (ho : S outer) :
    (st.alloc (some outer)).LinksIn S := by
  intro i o hi he
  rw [enclosing?_alloc] at he
  split at he
  · cases he; exact ho
  · exact h i o hi he

theorem FunctionsIn.define {h : ScopeId} {v : Value} (hf : st.FunctionsIn S)
    (hv : ∀ f, v = .function f → S f.closure) : (st.define h name v).FunctionsIn S := by
  intro i n f hi hread
  rw [read?_define] at hread
  split at hread
  · cases hread; exact hv f rfl
  · exact hf i n f hi hread

theorem FunctionsIn.alloc (hf : st.FunctionsIn S) (outer : Option ScopeId) :
    (st.alloc outer).FunctionsIn S := by
  intro i n f hi hread
  rw [read?_alloc] at hread
  exact hf i n f hi hread

end
end Store

/-- Binding parameters keeps what each definition in the current scope keeps. -/
theorem Machine.bindParams_induct {motive : Store → Prop} (params : List Name) {args : List Value}
    {m : Machine} (h0 : motive m.store)
    (hdefine : ∀ st name, ∀ v ∈ args, motive st → motive (st.define m.current name v)) :
    motive (bindParams params args m).store := by
  induction params generalizing args m with
  | nil => exact h0
  | cons name names ih =>
    cases args with
    | nil => exact h0
    | cons v vs =>
      exact ih (hdefine _ name v List.mem_cons_self h0) fun st n w hw =>
        hdefine st n w (List.mem_cons_of_mem v hw)

def Frame.outer? : Frame → Option ScopeId
  | block outer => some outer
  | call caller => some caller
  | _ => none

namespace Config

def scopes (c : Config) : List ScopeId := c.machine.current :: c.boundaries.filterMap Frame.outer?

def callee? (c : Config) : Option Function :=
  match c.control with
  | .call f _ _ => if c.machine.mayCall then some f else none
  | _ => none

def called (locate : Locator) : Nat → Config → List Function
  | 0, _ => []
  | n + 1, c => c.callee?.toList ++ called locate n (c.step locate)

/-- The scopes that the machine is in are among these, and so is all that is around them or is new. -/
structure Within (K : ScopeId → Prop) (c : Config) : Prop where
  globals : K globals
  fresh : ∀ id, c.machine.store.next ≤ id → K id
  links : c.machine.store.LinksIn K
  scopes : ∀ id ∈ c.scopes, K id

structure Holds (K : ScopeId → Prop) (c : Config) : Prop where
  values : ∀ f, .function f ∈ c.values → K f.closure
  functions : c.machine.store.FunctionsIn K

variable {K : ScopeId → Prop} {c c' : Config} {final : Awaited}

theorem Within.current (h : c.Within K) : K c.machine.current := h.scopes _ List.mem_cons_self

theorem Within.located (h : c.Within K) {name : Name} {id : NodeId} {a : ScopeId}
    (ha : Locator.byDistance c.machine name id = some a) : K a := by
  unfold Locator.byDistance at ha
  split at ha
  · exact h.links.ancestor? h.current (Store.holderAt?_eq_some.mp ha).1
  · exact h.links.holderWithin? h.globals ha

/-- Each effect keeps the machine among the scopes that called functions come from. -/
theorem Effect.within (h : c.Effect .byDistance c') (hw : c.Within K)
    (hcall : ∀ f args, c.Calls f args → K f.closure) : c'.Within K := by
  obtain ⟨hglobals, hfresh, hlinks, hscopes⟩ := id hw
  cases h with
  | stay output hf => exact ⟨hglobals, hfresh, hlinks, by rw [scopes, boundaries, hf]; exact hscopes⟩
  | define functions hf | assign hf =>
    exact ⟨hglobals, by simpa [Machine.define] using hfresh, hlinks.define _,
      by rw [scopes, boundaries, hf]; exact hscopes⟩
  | openBlock hf =>
    refine ⟨hglobals, fun id hid => hfresh id ?_, hlinks.alloc hw.current, ?_⟩
    · exact Nat.le_of_succ_le (by simpa [Machine.openScope] using hid)
    · rw [scopes, boundaries, hf]
      rintro id (_ | ⟨_, hid⟩)
      · exact hfresh _ (Nat.le_refl _)
      · exact hscopes id hid
  | @enterCall control frames f args hf hb =>
    have hkeeps : (c.machine.enterCall f args).store.LinksIn K ∧
        ∀ id, (c.machine.enterCall f args).store.next ≤ id → K id := by
      refine Machine.bindParams_induct (motive := fun st => st.LinksIn K ∧ ∀ id, st.next ≤ id → K id)
        _ ⟨hlinks.alloc (hcall f args hf), fun id hid => hfresh id ?_⟩ ?_
      · exact Nat.le_of_succ_le (by simpa [Machine.openScope] using hid)
      · rintro st name v - ⟨hl, hn⟩
        exact ⟨hl.define v, by simpa using hn⟩
    refine ⟨hglobals, hkeeps.2, hkeeps.1, ?_⟩
    rw [scopes, boundaries, hb, Machine.enterCall_eq]
    rintro id (_ | ⟨_, hid⟩)
    · exact hfresh _ (Nat.le_refl _)
    · exact hscopes id hid
  | closeBlock hf | leaveCall hf =>
    refine ⟨hglobals, hfresh, hlinks, fun id hid => hscopes id ?_⟩
    rw [scopes, boundaries, hf]
    exact List.mem_cons_of_mem _ hid

/-- Each effect leaves the other scopes as they are. -/
theorem Effect.unchanged (h : c.Effect .byDistance c') (hw : c.Within K) {id : ScopeId}
    (hid : ¬ K id) : c'.machine.store.scopes[id]? = c.machine.store.scopes[id]? := by
  have hlt : id < c.machine.store.next := Nat.lt_of_not_le fun hle => hid (hw.fresh id hle)
  have hne {a : ScopeId} (ha : K a) : id ≠ a := fun h => hid (h ▸ ha)
  cases h with
  | stay | closeBlock | leaveCall => rfl
  | define => exact Store.scopes_define_of_ne (hne hw.current) _
  | assign hf ha => exact Store.scopes_define_of_ne (hne (hw.located ha)) _
  | openBlock => exact Store.scopes_alloc_of_lt hlt
  | enterCall =>
    refine Machine.bindParams_induct
      (motive := fun st => st.scopes[id]? = c.machine.store.scopes[id]?) _
      (Store.scopes_alloc_of_lt hlt) fun st name v _ hst => ?_
    exact (Store.scopes_define_of_ne (hne (hw.fresh _ (Nat.le_refl _))) v).trans hst

theorem Provides.closure {f : Function} (h : c.Provides .byDistance (.function f))
    (hw : c.Within K) (hh : c.Holds K) : K f.closure := by
  rcases h with h | h | ⟨name, id, a, ha, hread⟩
  · exact absurd rfl (h f)
  · exact hh.values f h
  · exact hh.functions a name f (hw.located ha) hread

theorem Calls.callee? {f : Function} {args : List Value} (h : c.Calls f args) :
    c.callee? = some f := by
  obtain ⟨⟨line, hc⟩, hmay⟩ := h
  rw [Config.callee?, hc]
  exact if_pos hmay

theorem Holds.callee? (h : c.Holds K) {f : Function} (hf : c.callee? = some f) : K f.closure := by
  unfold Config.callee? at hf
  split at hf
  · next hc =>
    split at hf
    · cases hf
      exact h.values f (List.mem_append_left _ (by rw [hc]; exact List.mem_cons_self))
    · cases hf
  · cases hf

/-- Functions that are made or passed on keep these scopes. -/
theorem Effect.functionsIn (h : c.Effect .byDistance c') (hw : c.Within K) (hh : c.Holds K) :
    c'.machine.store.FunctionsIn K := by
  cases h with
  | stay | closeBlock | leaveCall => exact hh.functions
  | define functions hf hv =>
    refine hh.functions.define fun f hf => ?_
    rcases hv f hf with hcur | hmem
    · rw [hcur]; exact hw.current
    · exact hh.values f (hf ▸ hmem)
  | assign hf ha hv => exact hh.functions.define fun f hf => hh.values f (hf ▸ hv)
  | openBlock => exact hh.functions.alloc _
  | @enterCall control frames f args hf =>
    refine Machine.bindParams_induct (motive := fun st => st.FunctionsIn K) _
      (hh.functions.alloc _) fun st name v hv hst => hst.define fun g hg => hh.values g ?_
    obtain ⟨⟨line, hc⟩, -⟩ := hf
    exact List.mem_append_left _ (by rw [hc]; exact List.mem_cons_of_mem _ (hg ▸ hv))

/-- A run leaves all scopes as they are but those that it starts in and called functions come from. -/
theorem Fits.iterate_unchanged (hfit : c.Fits final) (hw : c.Within K) {n : Nat}
    (hcalled : ∀ f ∈ c.called .byDistance n, K f.closure) {id : ScopeId} (hid : ¬ K id) :
    ((Config.step .byDistance)^[n] c).machine.store.scopes[id]? = c.machine.store.scopes[id]? := by
  induction n generalizing c with
  | zero => rfl
  | succ n ih =>
    have heffect : c.Effect .byDistance (c.step .byDistance) := hfit.effect
    have hwithin := heffect.within hw fun f args hf =>
      hcalled f (List.mem_append_left _ (by rw [hf.callee?]; exact List.mem_cons_self))
    rw [Function.iterate_succ_apply,
      ih hfit.step hwithin fun f hf => hcalled f (List.mem_append_right _ hf)]
    exact heffect.unchanged hw hid

/-- What a run calls, keeps and stores comes from the scopes that it starts with. -/
theorem Fits.iterate_holds (hfit : c.Fits final) (hw : c.Within K) (hh : c.Holds K) (n : Nat) :
    (∀ f ∈ c.called .byDistance n, K f.closure) ∧ ((Config.step .byDistance)^[n] c).Within K ∧
      ((Config.step .byDistance)^[n] c).Holds K := by
  induction n generalizing c with
  | zero => exact ⟨nofun, hw, hh⟩
  | succ n ih =>
    have heffect : c.Effect .byDistance (c.step .byDistance) := hfit.effect
    have hwithin := heffect.within hw fun f args hf => hh.callee? hf.callee?
    have hholds : (c.step .byDistance).Holds K :=
      ⟨fun f hf => (step_provides _ c _ hf).closure hw hh, heffect.functionsIn hw hh⟩
    obtain ⟨hcalled, hend⟩ := ih hfit.step hwithin hholds
    refine ⟨fun f hf => ?_, hend⟩
    rcases List.mem_append.mp hf with hf | hf
    · exact hh.callee? (Option.mem_toList.mp hf)
    · exact hcalled f hf

end Config

namespace Part

def scopes (m : Machine) : Part → List ScopeId
  | expr _ | stmt _ | call _ _ _ => [m.current]
  | body _ scope => [m.current, scope]

def functions : Part → List Function
  | call f args _ => f :: args.filterMap fun
    | .function g => some g
    | _ => none
  | _ => []

def Root (m : Machine) (p : Part) (id : ScopeId) : Prop :=
  id = globals ∨ id ∈ p.scopes m ∨ ∃ f ∈ p.functions, id = f.closure

variable {m : Machine} {p : Part} {K : ScopeId → Prop}

theorem within_start (hglobals : K globals) (hfresh : ∀ id, m.store.next ≤ id → K id)
    (hlinks : m.store.LinksIn K) (hscopes : ∀ id ∈ p.scopes m, K id) :
    (p.start m).Within K := by
  refine ⟨hglobals, ?_, ?_, ?_⟩
  · cases p <;> exact hfresh
  · cases p <;> exact hlinks
  · cases p <;> simpa [start, Config.scopes, Config.boundaries, Frame.isBoundary, Frame.outer?,
      scopes, and_comm] using hscopes

theorem holds_start (hfunctions : m.store.FunctionsIn K) (hgiven : ∀ f ∈ p.functions, K f.closure) :
    (p.start m).Holds K := by
  refine ⟨fun f hf => ?_, by cases p <;> exact hfunctions⟩
  cases p with
  | call g args line =>
    refine hgiven f ?_
    rcases List.mem_append.mp hf with hf | hf
    · rcases List.mem_cons.mp hf with hf | hf
      · cases hf; exact List.mem_cons_self
      · exact List.mem_cons_of_mem _ (List.mem_filterMap.mpr ⟨_, hf, rfl⟩)
    · cases hf
  | _ => simp [start, Config.values, Control.values, Frame.values] at hf

end Part

/-- A part of a program changes only scopes that it reaches, and among these only the globals and those
around it or around a function that it calls. Functions that it returns or stores where it reaches
come from there, or from scopes that it made. -/
theorem Machine.run_isolated (m : Machine) (hm : m.store.enclosing? globals = none) (p : Part)
    {steps : Nat} {signal : Signal} {m' : Machine}
    (hrun : Config.runFor .byDistance steps (p.start m) = some (signal, m')) :
    (∀ id < m.store.next, ¬ m.store.Reaches (p.Root m) id →
      m'.store.scopes[id]? = m.store.scopes[id]?) ∧
    (∀ f, .function f ∈ (Control.done signal).values ∨
        (∃ id name, (m.store.Reaches (p.Root m) id ∨ m.store.next ≤ id) ∧
          m'.store.read? id name = some (.function f)) →
      ∀ id, m'.store.Reaches (· = f.closure) id →
        m.store.Reaches (p.Root m) id ∨ m.store.next ≤ id) ∧
    ∀ id < m.store.next, m'.store.scopes[id]? ≠ m.store.scopes[id]? →
      id = globals ∨ (∃ scope ∈ p.scopes m, m.store.Encloses scope id) ∨
        ∃ f ∈ (p.start m).called .byDistance steps, m.store.Encloses f.closure id := by
  have hend := Config.runFor_eq_some.mp hrun
  have hstore : (p.start m).machine.store = m.store := by cases p <;> rfl
  have hfit := p.fits_start m
  -- what is reached or new is closed under links and functions
  let R : ScopeId → Prop := fun id => m.store.Reaches (p.Root m) id ∨ m.store.next ≤ id
  have hlinks : m.store.LinksIn R := fun id outer hid he =>
    .inl (.enclosing (hid.resolve_right (Nat.not_le_of_lt (Store.lt_next_of_enclosing? he))) he)
  have hfunctions : m.store.FunctionsIn R := fun id name f hid hread =>
    .inl (.closure (hid.resolve_right (Nat.not_le_of_lt (Store.lt_next_of_read? hread))) hread)
  have hwithin : (p.start m).Within R := Part.within_start (.inl (.root (.inl rfl)))
    (fun _ => .inr) hlinks fun id hid => .inl (.root (.inr (.inl hid)))
  have hholds : (p.start m).Holds R := Part.holds_start hfunctions fun f hf =>
    .inl (.root (.inr (.inr ⟨f, hf, rfl⟩)))
  obtain ⟨hcalled, hwithin', hholds'⟩ := hfit.iterate_holds hwithin hholds steps
  refine ⟨fun id hid hr => ?_, fun f hf id hid => ?_, fun id hid hchanged => ?_⟩
  · have h := hfit.iterate_unchanged hwithin hcalled (not_or.mpr ⟨hr, Nat.not_le_of_lt hid⟩)
    rwa [hend, hstore] at h
  · rw [hend] at hwithin' hholds'
    refine hid.mem hwithin'.links hholds'.functions ?_
    rintro _ rfl
    rcases hf with hf | ⟨i, name, hi, hread⟩
    · exact hholds'.values f (List.mem_append_left _ hf)
    · exact hholds'.functions i name f hi hread
  · -- the chains that count are closed under links alone
    by_contra hnot
    let K : ScopeId → Prop := fun id => m.store.next ≤ id ∨ id = globals ∨
      (∃ scope ∈ p.scopes m, m.store.Encloses scope id) ∨
        ∃ f ∈ (p.start m).called .byDistance steps, m.store.Encloses f.closure id
    have hlinks : m.store.LinksIn K := by
      rintro id outer (hid | rfl | ⟨scope, hscope, hid⟩ | ⟨f, hf, hid⟩) he
      · exact absurd (Store.lt_next_of_enclosing? he) (Nat.not_lt_of_le hid)
      · rw [hm] at he; cases he
      · exact .inr (.inr (.inl ⟨scope, hscope, hid.enclosing he⟩))
      · exact .inr (.inr (.inr ⟨f, hf, hid.enclosing he⟩))
    have hwithin : (p.start m).Within K := Part.within_start (.inr (.inl rfl)) (fun _ => .inl) hlinks
      fun id hid => .inr (.inr (.inl ⟨id, hid, 0, rfl⟩))
    have h := hfit.iterate_unchanged hwithin (n := steps)
      (fun f hf => .inr (.inr (.inr ⟨f, hf, 0, rfl⟩))) (not_or.mpr ⟨Nat.not_le_of_lt hid, hnot⟩)
    rw [hend, hstore] at h
    exact hchanged h

/-- Of two closures that one function made, the call of one leaves the scope of the other as it is. -/
theorem Machine.run_isolated_closures :
    let closure (k : Nat) : Value :=
      .function ⟨k, "set", [], [.expression 1 (.assign 1 "flag" 0 (.literal 1 (.bool true)))], k⟩
    let own : Scope := ⟨⟨[("flag", .bool false)]⟩, some globals⟩
    let m : Machine := { start none (.empty none) with
      store := ⟨#[⟨⟨[("a", closure 1), ("b", closure 2)]⟩, none⟩, own, own]⟩
      distances := (∅ : Distances).insert 0 1 }
    m.store.enclosing? globals = none ∧
      ∃ m', Config.runFor .byDistance 20 ((Part.expr (.call 1 (.reference 1 "a" 1) [])).start m) =
          some (.value .nil, m') ∧
        m'.store.read? 1 "flag" = some (.bool true) ∧ m'.store.scopes[2]? = some own := by
  intro closure own m
  let p : Part := .expr (.call 1 (.reference 1 "a" 1) [])
  have hresult : (Config.runFor .byDistance 20 (p.start m)).map
      (fun r => (r.1, r.2.store.read? 1 "flag")) = some (.value .nil, some (.bool true)) := by rfl
  obtain ⟨⟨signal, m'⟩, hrun, hread⟩ := Option.map_eq_some_iff.mp hresult
  obtain ⟨rfl, hread⟩ := Prod.mk.inj hread
  refine ⟨rfl, m', hrun, hread, ?_⟩
  have hcalled : ((p.start m).called .byDistance 20).map Function.closure = [1] := by rfl
  have hother : ∀ id ∈ [0, 1], ¬ m.store.Encloses id 2 := by
    rintro id hid ⟨d, hd⟩
    obtain rfl | rfl : id = 0 ∨ id = 1 := by simpa using hid
    · cases d <;> cases hd
    · rcases d with _ | _ | d <;> cases hd
  by_contra hchanged
  obtain h | ⟨id, hid, h⟩ | ⟨f, hf, h⟩ :=
    (run_isolated m rfl p hrun).2.2 2 (Nat.lt_succ_self 2) hchanged
  · cases h
  · obtain rfl := List.mem_singleton.mp hid
    exact hother 0 (by decide) h
  · have hf : f.closure ∈ [1] := hcalled ▸ List.mem_map_of_mem hf
    exact hother _ (List.mem_cons_of_mem _ hf) h

end LoxLang
