import LoxLang.Proofs.Machine.Isolation

/-!
Declarations as they are executed. A step may declare names, assign to one that is bound, or open a scope,
and does nothing else to the store.
-/
namespace LoxLang

/-- A scope that is not there yet binds nothing. -/
theorem Store.read?_next (st : Store) (n : Name) : st.read? st.next n = none :=
  Option.eq_none_iff_forall_ne_some.mpr fun _ h => Nat.lt_irrefl _ (lt_next_of_read? h)

structure Executed where
  store : Store
  scope : ScopeId
  name : Name

def Executed.target (d : Executed) : ScopeId × Name := (d.scope, d.name)

namespace Machine

def declaration (m : Machine) (name : Name) : Executed := ⟨m.store, m.current, name⟩

def entered (m : Machine) (f : Function) : Machine :=
  { m with depth := m.depth + 1 }.openScope f.closure

def bindings : List Name → List Value → Machine → List Executed
  | name :: names, v :: vs, m => m.declaration name :: bindings names vs (m.define name v)
  | _, _, _ => []

variable {m : Machine}

theorem read?_entered (m : Machine) (f : Function) (id : ScopeId) (n : Name) :
    (m.entered f).store.read? id n = m.store.read? id n :=
  Store.read?_alloc ..

theorem current_lt_entered (m : Machine) (f : Function) :
    (m.entered f).current < (m.entered f).store.next := by
  simp [entered, openScope]

theorem targets_bindings (params : List Name) (args : List Value) (m : Machine) :
    ((bindings params args m).map Executed.target).Sublist (params.map (m.current, ·)) := by
  induction params generalizing args m with
  | nil => exact List.nil_sublist _
  | cons name names ih =>
    cases args with
    | nil => exact List.nil_sublist _
    | cons v vs => exact (ih vs (m.define name v)).cons_cons _

theorem next_bindParams (params : List Name) (args : List Value) (m : Machine) :
    (bindParams params args m).store.next = m.store.next :=
  bindParams_induct (motive := fun st => st.next = m.store.next) params rfl
    fun st name v _ h => (st.next_define m.current name v).trans h

theorem next_lt_enterCall (m : Machine) (f : Function) (args : List Value) :
    m.store.next < (m.enterCall f args).store.next := by
  rw [show (m.enterCall f args).store.next = (m.entered f).store.next from next_bindParams ..]
  exact m.current_lt_entered f

/-- Binding parameters binds just what is declared. -/
theorem isSome_read?_bindParams (params : List Name) (args : List Value)
    (h : m.current < m.store.next) (id : ScopeId) (n : Name) :
    ((bindParams params args m).store.read? id n).isSome ↔
      (m.store.read? id n).isSome ∨ (id, n) ∈ (bindings params args m).map Executed.target := by
  induction params generalizing args m with
  | nil => simp [bindParams, bindings]
  | cons name names ih =>
    cases args with
    | nil => simp [bindParams, bindings]
    | cons v vs =>
      have hnext : (m.define name v).current < (m.define name v).store.next := by simpa [define] using h
      have hread : (m.define name v).store.read? id n =
          if id = m.current ∧ n = name then some v else m.store.read? id n := by
        simp only [define, Store.read?_define, h, and_true]
      rw [bindParams, ih vs hnext, hread, bindings, List.map_cons, List.mem_cons, declaration,
        Executed.target, Prod.mk.injEq]
      by_cases hsame : id = m.current ∧ n = name
      · simp [hsame]
      · simp [hsame]

theorem read?_bindParams_of_not_mem {params : List Name} {args : List Value} {id : ScopeId} {n : Name}
    (h : (id, n) ∉ (bindings params args m).map Executed.target) :
    (bindParams params args m).store.read? id n = m.store.read? id n := by
  induction params generalizing args m with
  | nil => rfl
  | cons name names ih =>
    cases args with
    | nil => rfl
    | cons v vs =>
      obtain ⟨hne, hlater⟩ := not_or.mp (mt List.mem_cons.mpr h)
      refine (ih hlater).trans ?_
      rw [define, Store.read?_define, if_neg]
      rintro ⟨rfl, rfl, -⟩
      exact hne rfl

/-- Different names are bound one after another, each for the first time. -/
theorem unbound_of_mem_bindings {params : List Name} {args : List Value} (hn : params.Nodup)
    (h : ∀ n ∈ params, m.store.read? m.current n = none) :
    ∀ d ∈ bindings params args m, d.store.read? d.scope d.name = none := by
  induction params generalizing args m with
  | nil => nofun
  | cons name names ih =>
    cases args with
    | nil => nofun
    | cons v vs =>
      obtain ⟨hname, hnames⟩ := List.nodup_cons.mp hn
      obtain ⟨hfirst, hlater⟩ := List.forall_mem_cons.mp h
      refine List.forall_mem_cons.mpr ⟨hfirst, ih hnames fun n hmem => ?_⟩
      rw [define, Store.read?_define, if_neg]
      · exact hlater n hmem
      · rintro ⟨-, rfl, -⟩
        exact hname hmem

end Machine

namespace Config

def declarations (c : Config) : List Executed :=
  match c.control, c.frames with
  | .exec (.var _ name none), _ | .exec (.function _ name _ _), _ => [c.machine.declaration name]
  | .done (.value _), .var name :: _ => [c.machine.declaration name]
  | .call f args _, _ =>
    if c.machine.mayCall then Machine.bindings f.params args (c.machine.entered f) else []
  | _, _ => []

def targets (c : Config) : List (ScopeId × Name) := c.declarations.map Executed.target

def Assigns (locate : Locator) (c : Config) (h : ScopeId) (name : Name) (v : Value) : Prop :=
  ∃ line id frames, c.control = .done (.value v) ∧ c.frames = .assign line name id :: frames ∧
    locate c.machine name id = some h

inductive Stores (locate : Locator) (c : Config) : Store → Prop where
  | same : c.declarations = [] → Stores locate c c.machine.store
  | opened (outer : ScopeId) :
    c.declarations = [] → Stores locate c (c.machine.store.alloc (some outer))
  | declared {name : Name} (v : Value) :
    c.declarations = [c.machine.declaration name] →
      Stores locate c (c.machine.store.define c.machine.current name v)
  | assigned {h : ScopeId} {name : Name} {v : Value} :
    c.declarations = [] → c.Assigns locate h name v → Stores locate c (c.machine.store.define h name v)
  | called (f : Function) (args : List Value) :
    c.declarations = Machine.bindings f.params args (c.machine.entered f) →
      Stores locate c (c.machine.enterCall f args).store

variable {locate : Locator} {c : Config} {frames : List Frame} {m : Machine}

theorem declarations_of_calls {f : Function} {args : List Value} (h : c.Calls f args) :
    c.declarations = Machine.bindings f.params args (c.machine.entered f) := by
  obtain ⟨⟨line, hcontrol⟩, hmay⟩ := h
  unfold declarations
  rw [hcontrol]
  exact if_pos hmay

/-- A declaration is executed in the store at hand, unless a call binds a parameter. -/
theorem store_of_mem_declarations {d : Executed} (hd : d ∈ c.declarations) :
    d.store = c.machine.store ∨ ∃ f args, c.Calls f args := by
  unfold declarations at hd
  split at hd
  · rw [List.mem_singleton.mp hd]; exact .inl rfl
  · rw [List.mem_singleton.mp hd]; exact .inl rfl
  · rw [List.mem_singleton.mp hd]; exact .inl rfl
  · next _ f args line hcontrol =>
    split at hd
    · next hmay => exact .inr ⟨f, args, ⟨line, hcontrol⟩, hmay⟩
    · cases hd
  · cases hd

section Stores

theorem store_ofExcept (line : Nat) (r : Except Mishap Value) (frames : List Frame) (m : Machine) :
    (ofExcept line r frames m).machine.store = m.store := by
  cases r <;> rfl

theorem store_arguments (line : Nat) (callee : Value) (args : List Value) (rest : List Expr)
    (frames : List Frame) (m : Machine) :
    (arguments line callee args rest frames m).machine.store = m.store := by
  cases rest with
  | nil =>
    simp only [arguments, apply]
    split
    · split <;> rfl
    · rfl
  | cons e rest => rfl

theorem stores_of_eq {c' : Config} (h : c'.machine.store = c.machine.store) (hd : c.declarations = []) :
    Stores locate c c'.machine.store :=
  h ▸ .same hd

theorem stores_resume (v : Value) (f : Frame) :
    Stores locate ⟨.done (.value v), f :: frames, m⟩ (resume locate v f frames m).machine.store := by
  cases f with
  | unary line op => exact stores_of_eq (store_ofExcept ..) rfl
  | right line op left => exact stores_of_eq (store_ofExcept ..) rfl
  | callee line args => exact stores_of_eq (store_arguments ..) rfl
  | argument line callee args rest => exact stores_of_eq (store_arguments ..) rfl
  | logical op right =>
    simp only [resume]
    split <;> exact .same rfl
  | assign line name id =>
    simp only [resume]
    split
    · next h hh => exact .assigned rfl ⟨line, id, frames, rfl, rfl, hh⟩
    · exact .same rfl
  | print line =>
    simp only [resume, print]
    split <;> exact .same rfl
  | var name => exact .declared v rfl
  | branch thenBranch elseBranch =>
    simp only [resume]
    split
    · exact .same rfl
    · split <;> exact .same rfl
  | test condition body =>
    simp only [resume]
    split <;> exact .same rfl
  | _ => exact .same rfl

theorem step_stores (locate : Locator) (c : Config) : Stores locate c (c.step locate).machine.store := by
  obtain ⟨control, frames, m⟩ := c
  cases control with
  | eval e =>
    cases e with
    | reference line name id =>
      simp only [step, eval]
      split <;> exact .same rfl
    | _ => exact .same rfl
  | exec s =>
    cases s with
    | var line name initializer =>
      cases initializer with
      | none => exact .declared .nil rfl
      | some e => exact .same rfl
    | block line body => exact .opened m.current rfl
    | function line name params body => exact .declared _ rfl
    | result line value => cases value <;> exact .same rfl
    | _ => exact .same rfl
  | execAll ss => cases ss <;> exact .same rfl
  | program ss => cases ss <;> exact .same rfl
  | call f args line =>
    simp only [step, call]
    split
    · next hmay => exact .called f args (if_pos hmay)
    · next hmay => exact .same (if_neg hmay)
  | done s =>
    cases frames with
    | nil => exact .same (by cases s <;> rfl)
    | cons f frames =>
      cases s with
      | value v => exact stores_resume v f
      | _ => cases f <;> exact .same rfl

namespace Stores
variable {st : Store}

theorem next_le (h : Stores locate c st) : c.machine.store.next ≤ st.next := by
  cases h with
  | same => exact Nat.le_refl _
  | opened outer => rw [Store.next_alloc]; exact Nat.le_succ _
  | declared | assigned => exact Nat.le_of_eq (Store.next_define ..).symm
  | called f args =>
    exact Nat.le_of_lt (c.machine.next_lt_enterCall f args)

/-- After a step just those names are bound that were before, or that it declares. -/
theorem isSome_read? (h : Stores locate c st) (hl : locate.Finds)
    (hcurrent : c.declarations ≠ [] → c.machine.current < c.machine.store.next) (id : ScopeId) (n : Name) :
    (st.read? id n).isSome ↔ (c.machine.store.read? id n).isSome ∨ (id, n) ∈ c.targets := by
  cases h with
  | same hd => simp [targets, hd]
  | opened outer hd => simp [targets, hd, Store.read?_alloc]
  | @declared name v hd =>
    have hlt := hcurrent (by simp [hd])
    rw [Store.read?_define, targets, hd]
    by_cases hsame : id = c.machine.current ∧ n = name
    · simp [hsame, hlt, Machine.declaration, Executed.target]
    · rw [if_neg fun h => hsame ⟨h.1, h.2.1⟩]
      simp [hsame, Machine.declaration, Executed.target]
  | @assigned h name v hd ha =>
    obtain ⟨line, node, frames, -, -, hh⟩ := ha
    have hbound := hl _ _ _ _ hh
    rw [Store.read?_define, targets, hd]
    split
    · next hsame =>
      obtain ⟨rfl, rfl, -⟩ := hsame
      simp [hbound]
    · simp
  | called f args hd =>
    have hread := Machine.isSome_read?_bindParams f.params args (c.machine.current_lt_entered f) id n
    rw [Machine.read?_entered] at hread
    rw [targets, hd]
    exact hread

/-- Unless it is declared or assigned, a bound name keeps its value. -/
theorem read?_eq_some (h : Stores locate c st) {id : ScopeId} {n : Name} {v : Value}
    (hv : c.machine.store.read? id n = some v) (hn : (id, n) ∉ c.targets) :
    st.read? id n = some v ∨ ∃ w, c.Assigns locate id n w ∧ st.read? id n = some w := by
  cases h with
  | same => exact .inl hv
  | opened outer => exact .inl ((Store.read?_alloc ..).trans hv)
  | @declared name w hd =>
    refine .inl ?_
    rw [Store.read?_define, if_neg, hv]
    rintro ⟨rfl, rfl, -⟩
    exact hn (by simp [targets, hd, Machine.declaration, Executed.target])
  | @assigned h name w hd ha =>
    rw [Store.read?_define]
    split
    · next hsame =>
      obtain ⟨rfl, rfl, -⟩ := hsame
      exact .inr ⟨w, ha, rfl⟩
    · exact .inl hv
  | called f args hd =>
    refine .inl ?_
    rw [targets, hd] at hn
    exact (Machine.read?_bindParams_of_not_mem hn).trans ((Machine.read?_entered ..).trans hv)

end Stores
end Stores

end Config
end LoxLang
