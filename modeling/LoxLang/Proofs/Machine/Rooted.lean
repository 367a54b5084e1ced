import LoxLang.Proofs.Machine.Declarations
import LoxLang.Proofs.Store.Rooted

/-!
Machines whose scopes are all there. Each effect of a step keeps the store rooted, and whatever a step does,
the store only grows.
-/
namespace LoxLang
namespace Config

variable {locate : Locator} {c c' : Config} {final : Awaited}

structure Rooted (c : Config) : Prop where
  store : c.machine.store.Rooted
  scopes : ∀ id ∈ c.scopes, id < c.machine.store.next
  values : ∀ f, .function f ∈ c.values → f.closure < c.machine.store.next

theorem Rooted.current (h : c.Rooted) : c.machine.current < c.machine.store.next :=
  h.scopes _ List.mem_cons_self

theorem Calls.mem_values {f : Function} {args : List Value} (h : c.Calls f args) :
    ∀ v ∈ .function f :: args, v ∈ c.values := by
  obtain ⟨⟨line, hcontrol⟩, -⟩ := h
  intro v hv
  exact List.mem_append_left _ (by rw [hcontrol]; exact hv)

/-- The function of a value that is provided keeps a scope that is there. -/
theorem Provides.closure_lt {f : Function} (h : c.Provides locate (.function f)) (hc : c.Rooted) :
    f.closure < c.machine.store.next := by
  rcases h with h | h | ⟨name, id, a, -, hread⟩
  · exact absurd rfl (h f)
  · exact hc.values f h
  · exact hc.store.closures a name f hread

/-- A call binds its parameters in a new scope. -/
theorem Rooted.enterCall (hc : c.Rooted) {f : Function} {args : List Value} (h : c.Calls f args) :
    (c.machine.enterCall f args).store.Rooted ∧
      (c.machine.enterCall f args).store.next = c.machine.store.next + 1 := by
  have hclosure : f.closure < c.machine.store.next := hc.values f (h.mem_values _ List.mem_cons_self)
  refine Machine.bindParams_induct
    (motive := fun st => st.Rooted ∧ st.next = c.machine.store.next + 1) f.params
    ⟨hc.store.alloc hclosure, Store.next_alloc ..⟩ ?_
  rintro st name v hv ⟨hst, hnext⟩
  refine ⟨hst.define ?_, (Store.next_define ..).trans hnext⟩
  rintro g rfl
  rw [hnext]
  exact Nat.lt_succ_of_lt (hc.values g (h.mem_values _ (List.mem_cons_of_mem _ hv)))

/-- Each effect keeps the store rooted and the scopes in use in it. -/
theorem Effect.rooted (h : c.Effect locate c') (hc : c.Rooted) :
    c'.machine.store.Rooted ∧ ∀ id ∈ c'.scopes, id < c'.machine.store.next := by
  have hscopes := hc.scopes
  cases h with
  | stay output hf => exact ⟨hc.store, by rw [scopes, boundaries, hf]; exact hscopes⟩
  | define functions hf hv =>
    refine ⟨hc.store.define fun f he => ?_, ?_⟩
    · rcases hv f he with hcurrent | hmem
      · rw [hcurrent]; exact hc.current
      · exact hc.values f (he ▸ hmem)
    · rw [scopes, boundaries, hf, show (c.machine.define _ _).store.next = _ from Store.next_define ..]
      exact hscopes
  | assign hf _ hv =>
    refine ⟨hc.store.define fun f he => hc.values f (he ▸ hv), ?_⟩
    rw [scopes, boundaries, hf, Store.next_define]
    exact hscopes
  | openBlock hf =>
    refine ⟨hc.store.alloc hc.current, ?_⟩
    rw [scopes, boundaries, hf, show (c.machine.openScope _).store.next = _ from Store.next_alloc ..]
    rintro id (_ | ⟨_, hid⟩)
    · exact Nat.lt_succ_self _
    · exact Nat.lt_succ_of_lt (hscopes id hid)
  | enterCall hcalls hf =>
    obtain ⟨hstore, hnext⟩ := hc.enterCall hcalls
    refine ⟨hstore, ?_⟩
    rw [scopes, boundaries, hf, hnext, Machine.enterCall_eq]
    rintro id (_ | ⟨_, hid⟩)
    · exact Nat.lt_succ_self _
    · exact Nat.lt_succ_of_lt (hscopes id hid)
  | closeBlock hf | leaveCall hf =>
    refine ⟨hc.store, fun id hid => hscopes id ?_⟩
    rw [scopes, boundaries, hf]
    exact List.mem_cons_of_mem _ hid

/-- Whatever the configuration, a step takes no scope, no link and no name away. -/
theorem step_growsTo (locate : Locator) (c : Config) :
    c.machine.store.GrowsTo (c.step locate).machine.store := by
  have hstores := step_stores locate c
  generalize (c.step locate).machine.store = st at hstores
  cases hstores with
  | same => exact .refl _
  | opened outer => exact Store.growsTo_alloc ..
  | declared | assigned => exact Store.growsTo_define ..
  | called f args =>
    exact Machine.bindParams_induct (motive := fun st => c.machine.store.GrowsTo st) f.params
      (Store.growsTo_alloc ..) fun st name v _ h => h.trans (Store.growsTo_define ..)

theorem iterate_growsTo (locate : Locator) (n : Nat) (c : Config) :
    c.machine.store.GrowsTo ((step locate)^[n] c).machine.store := by
  induction n generalizing c with
  | zero => exact .refl _
  | succ n ih => exact (step_growsTo locate c).trans (ih (c.step locate))

theorem Fits.step_rooted (hfit : c.Fits final) (hc : c.Rooted) : (c.step locate).Rooted := by
  have heffect : c.Effect locate (c.step locate) := hfit.effect
  obtain ⟨hstore, hscopes⟩ := heffect.rooted hc
  refine ⟨hstore, hscopes, fun f hf => ?_⟩
  exact Nat.lt_of_lt_of_le ((step_provides locate c _ hf).closure_lt hc) (step_growsTo locate c).next

theorem Fits.iterate_rooted (locate : Locator) (hfit : c.Fits final) (hc : c.Rooted) (n : Nat) :
    ((Config.step locate)^[n] c).Rooted := by
  induction n generalizing c with
  | zero => exact hc
  | succ n ih => exact ih hfit.step (hfit.step_rooted hc)

end Config
end LoxLang
