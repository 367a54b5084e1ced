import Mathlib.Data.List.Nodup
import LoxLang.Proofs.Machine.Declarations
import LoxLang.Proofs.Scoping.Declared

/-!
What is still to be declared. Whatever the code on the way has still to declare in a local scope is not
bound there yet, so no declaration binds a local name over an old value.
-/
namespace LoxLang

def locals (targets : List (ScopeId × Name)) : List (ScopeId × Name) := targets.filter (·.1 ≠ globals)

@[simp] theorem mem_locals {targets : List (ScopeId × Name)} {id : ScopeId} {name : Name} :
    (id, name) ∈ locals targets ↔ (id, name) ∈ targets ∧ id ≠ globals := by
  simp [locals]

theorem locals_append (targets more : List (ScopeId × Name)) :
    locals (targets ++ more) = locals targets ++ locals more :=
  List.filter_append ..

def namesIn (id : ScopeId) (names : List Name) : List (ScopeId × Name) := names.map (id, ·)

theorem namesIn_append (id : ScopeId) (names more : List Name) :
    namesIn id (names ++ more) = namesIn id names ++ namesIn id more :=
  List.map_append

namespace Frame

/-- What is still to be declared by what waits on the frames, `id` being the scope that the first of them
waits in. -/
def pending : ScopeId → List Frame → List (ScopeId × Name)
  | _, [] => []
  | id, .var name :: fs => (id, name) :: pending id fs
  | id, .sequence rest :: fs | id, .program rest :: fs =>
    namesIn id (Stmt.declaredNames rest) ++ pending id fs
  | _, .block outer :: fs | _, .call outer :: fs => pending outer fs
  | id, _ :: fs => pending id fs

end Frame

def Control.pending (id : ScopeId) : Control → List (ScopeId × Name)
  | .exec s => namesIn id s.declares?.toList
  | .execAll ss | .program ss => namesIn id (Stmt.declaredNames ss)
  | _ => []

namespace Config

def pending (c : Config) : List (ScopeId × Name) :=
  c.control.pending c.machine.current ++ Frame.pending c.machine.current c.frames

def opens (c : Config) : List Name :=
  match c.control with
  | .exec (.block _ body) => Stmt.declaredNames body
  | .call f _ _ => if c.machine.mayCall then f.params ++ Stmt.declaredNames f.body else []
  | _ => []

/-- All that is declared or pending after a step was pending before it, or is of the scope that it opens. -/
def Accounts (c c' : Config) : Prop :=
  (c.targets ++ c'.pending).Sublist (namesIn c.machine.store.next c.opens ++ c.pending)

section Accounts
variable {Q : Layers → Name → NodeId → Prop} {locate : Locator} {c : Config} {f : Frame}
  {frames : List Frame} {m : Machine}

/-- Where the step declares nothing and opens no scope. -/
theorem accounts_of_sublist {c' : Config} (hd : c.declarations = []) (ho : c.opens = [])
    (h : c'.pending.Sublist c.pending) : Accounts c c' := by
  rw [Accounts, targets, hd, ho]
  exact h

theorem accounts_of_eq {c' : Config} (hd : c.declarations = []) (ho : c.opens = [])
    (h : c'.pending = c.pending) : Accounts c c' :=
  accounts_of_sublist hd ho (h ▸ .refl _)

theorem pending_ofExcept (line : Nat) (r : Except Mishap Value) (frames : List Frame) (m : Machine) :
    (ofExcept line r frames m).pending = Frame.pending m.current frames := by
  cases r <;> rfl

theorem pending_arguments (line : Nat) (callee : Value) (args : List Value) (rest : List Expr)
    (frames : List Frame) (m : Machine) :
    (arguments line callee args rest frames m).pending = Frame.pending m.current frames := by
  cases rest with
  | nil =>
    simp only [arguments, apply]
    split
    · split <;> rfl
    · rfl
  | cons e rest => rfl

theorem pending_eval (e : Expr) (frames : List Frame) (m : Machine) :
    (eval locate e frames m).pending = Frame.pending m.current frames := by
  cases e with
  | reference line name id =>
    simp only [eval]
    split <;> rfl
  | _ => rfl

theorem pending_execNext {s : Stmt} (h : s.declares? = none) (frames : List Frame) (m : Machine) :
    pending ⟨.exec s, frames, m⟩ = Frame.pending m.current frames := by
  rw [pending, Control.pending, h]
  rfl

theorem pending_cons (id : ScopeId) (s : Stmt) (ss : List Stmt) (later : List (ScopeId × Name)) :
    namesIn id (Stmt.declaredNames (s :: ss)) ++ later =
      namesIn id s.declares?.toList ++ (namesIn id (Stmt.declaredNames ss) ++ later) := by
  rw [Scoping.declaredNames_cons, namesIn_append, List.append_assoc]

theorem accounts_exec (s : Stmt) : Accounts ⟨.exec s, frames, m⟩ (exec s frames m) := by
  cases s with
  | var line name initializer => cases initializer <;> exact .refl _
  | result line value => cases value <;> exact .refl _
  | _ => exact .refl _

theorem accounts_call (f : Function) (args : List Value) (line : Nat) :
    Accounts ⟨.call f args line, frames, m⟩ (call f args line frames m) := by
  unfold call
  split
  · next hmay =>
    have htargets : (targets ⟨.call f args line, frames, m⟩).Sublist (namesIn m.store.next f.params) := by
      rw [targets, declarations]
      dsimp only
      rw [if_pos hmay]
      exact Machine.targets_bindings ..
    rw [Accounts, opens, pending, pending]
    dsimp only
    rw [if_pos hmay, Machine.enterCall_eq, namesIn_append, List.append_assoc]
    exact htargets.append (.refl _)
  · next hmay => exact accounts_of_sublist (if_neg hmay) (if_neg hmay) (.refl _)

/-- A value that reaches a frame. What it makes run next declares nothing. -/
theorem accounts_resume {v : Value} {st : Store} {W : Labels} {ls : Layers}
    (hf : Frame.AllScoped Q st W .value ls (f :: frames)) :
    Accounts ⟨.done (.value v), f :: frames, m⟩ (resume locate v f frames m) := by
  cases f with
  | var name => exact .refl _
  | unary line op => exact accounts_of_eq rfl rfl (pending_ofExcept ..)
  | right line op left => exact accounts_of_eq rfl rfl (pending_ofExcept ..)
  | callee line args => exact accounts_of_eq rfl rfl (pending_arguments ..)
  | argument line callee args rest => exact accounts_of_eq rfl rfl (pending_arguments ..)
  | logical op right =>
    simp only [resume]
    split <;> exact .refl _
  | assign line name id =>
    simp only [resume]
    split <;> exact .refl _
  | print line =>
    simp only [resume, print]
    split <;> exact .refl _
  | branch thenBranch elseBranch =>
    obtain ⟨⟨hthen, helse⟩, -⟩ := hf
    simp only [resume]
    split
    · exact accounts_of_eq rfl rfl (pending_execNext hthen.1 ..)
    · split
      · next s => exact accounts_of_eq rfl rfl (pending_execNext (helse s rfl).1 ..)
      · exact .refl _
  | test condition body =>
    obtain ⟨⟨-, hbody, -⟩, -⟩ := hf
    simp only [resume]
    split
    · exact accounts_of_eq rfl rfl (pending_execNext hbody ..)
    · exact .refl _
  | left | discard | result => exact .refl _
  | again | sequence | program | block | call => cases hf

/-- Each step accounts for all declarations. -/
theorem Scoped.accounts (h : c.Scoped Q) : Accounts c (c.step locate) := by
  obtain ⟨control, frames, m⟩ := c
  obtain ⟨W, -, hc⟩ := h
  cases control with
  | eval e => exact accounts_of_eq rfl rfl (pending_eval ..)
  | exec s => exact accounts_exec s
  | execAll ss =>
    cases ss with
    | nil => exact .refl _
    | cons s ss =>
      exact accounts_of_eq rfl rfl (pending_cons ..).symm
  | program ss =>
    cases ss with
    | nil => exact .refl _
    | cons s ss =>
      exact accounts_of_eq rfl rfl (pending_cons ..).symm
  | call f args line => exact accounts_call f args line
  | done s =>
    cases frames with
    | nil => exact accounts_of_sublist (by cases s <;> rfl) rfl (.refl _)
    | cons f frames =>
      cases s with
      | value v =>
        obtain ⟨ls, -, -, hf⟩ := hc
        exact accounts_resume hf
      | normal =>
        obtain ⟨-, hnil⟩ | ⟨ls, -, hf⟩ := hc
        · cases hnil
        · cases f with
          | again | sequence | program | block | call => exact .refl _
          | _ => cases hf
      | returned v =>
        cases f with
        | sequence rest => exact accounts_of_sublist rfl rfl (List.sublist_append_right _ _)
        | var name => exact accounts_of_sublist rfl rfl (List.sublist_cons_self _ _)
        | _ => exact .refl _
      | failed e =>
        cases f with
        | sequence rest | program rest => exact accounts_of_sublist rfl rfl (List.sublist_append_right _ _)
        | var name => exact accounts_of_sublist rfl rfl (List.sublist_cons_self _ _)
        | _ => exact .refl _

end Accounts
section Unspent
variable {Q : Layers → Name → NodeId → Prop} {locate : Locator} {c : Config}

/-- What is still to be declared in local scopes differs, and it is not bound there yet. -/
structure Unspent (c : Config) : Prop where
  nodup : (locals c.pending).Nodup
  lt_next : ∀ id n, (id, n) ∈ locals c.pending → id < c.machine.store.next
  unbound : ∀ id n, (id, n) ∈ locals c.pending → c.machine.store.read? id n = none

theorem Scoped.nodup_opens (h : c.Scoped Q) : c.opens.Nodup := by
  obtain ⟨control, frames, m⟩ := c
  obtain ⟨W, -, hc⟩ := h
  unfold opens
  split
  · next line body hcontrol =>
    obtain rfl : control = _ := hcontrol
    obtain ⟨ls, -, hbody, -⟩ := hc
    exact (Stmt.AllScoped.nodup_declaredNames hbody).1
  · next f args line hcontrol =>
    obtain rfl : control = _ := hcontrol
    obtain ⟨ls, -, ⟨ls', -, hparams, hbody⟩, -⟩ := hc
    obtain ⟨hnames, hnew⟩ := Stmt.AllScoped.nodup_declaredNames hbody
    split
    · exact List.nodup_append.mpr ⟨hparams, hnames, fun n hn n' hn' he => hnew n' hn' (he ▸ hn)⟩
    · exact .nil
  · exact .nil

theorem Scoped.current_lt_next (h : c.Scoped Q) (hd : c.declarations ≠ []) :
    c.machine.current < c.machine.store.next := by
  obtain ⟨control, frames, m⟩ := c
  obtain ⟨W, hstore, hc⟩ := h
  cases control with
  | exec s =>
    obtain ⟨ls, hchain, -⟩ := hc
    exact hchain.lt_next hstore.nonempty
  | call f args line =>
    obtain ⟨ls, hchain, -⟩ := hc
    exact hchain.lt_next hstore.nonempty
  | done s =>
    cases s with
    | value v =>
      obtain ⟨ls, hchain, -⟩ := hc
      exact hchain.lt_next hstore.nonempty
    | _ => exact absurd rfl hd
  | _ => exact absurd rfl hd

theorem next_lt_of_opens {n : Name} (h : n ∈ c.opens) :
    c.machine.store.next < (c.step locate).machine.store.next := by
  obtain ⟨control, frames, m⟩ := c
  unfold opens at h
  split at h
  · next line body hcontrol =>
    obtain rfl : control = _ := hcontrol
    simp [step, exec, Machine.openScope]
  · next f args line hcontrol =>
    obtain rfl : control = _ := hcontrol
    split at h
    · next hmay =>
      simp only [step, call]
      rw [if_pos hmay]
      exact m.next_lt_enterCall f args
    · cases h
  · cases h

/-- Of what a step declares, and what is pending after it, nothing is bound yet. -/
theorem Unspent.account (h : c.Unspent) (locate : Locator) (hs : c.Scoped Q) :
    (locals (c.targets ++ (c.step locate).pending)).Nodup ∧
      ∀ id n, (id, n) ∈ locals (c.targets ++ (c.step locate).pending) →
        c.machine.store.read? id n = none ∧ id < (c.step locate).machine.store.next := by
  have hsub : (locals (c.targets ++ (c.step locate).pending)).Sublist
      (locals (namesIn c.machine.store.next c.opens) ++ locals c.pending) := by
    rw [← locals_append]
    exact hs.accounts.filter _
  have hnew : (locals (namesIn c.machine.store.next c.opens)).Nodup :=
    (hs.nodup_opens.map fun _ _ he => (Prod.mk.inj he).2).filter _
  have hnext {id : ScopeId} {n : Name} (hmem : (id, n) ∈ locals (namesIn c.machine.store.next c.opens)) :
      id = c.machine.store.next ∧ n ∈ c.opens := by
    obtain ⟨n', hn', he⟩ := List.mem_map.mp (mem_locals.mp hmem).1
    obtain ⟨rfl, rfl⟩ := Prod.mk.inj he
    exact ⟨rfl, hn'⟩
  -- What was pending lies in scopes that are there already, and so not in the new one.
  refine ⟨(List.nodup_append.mpr ⟨hnew, h.nodup, ?_⟩).sublist hsub, fun id n hmem => ?_⟩
  · rintro ⟨id, n⟩ hmem _ hpending rfl
    exact Nat.ne_of_lt (h.lt_next id n hpending) (hnext hmem).1
  · obtain hmem | hmem := List.mem_append.mp (hsub.subset hmem)
    · obtain ⟨rfl, hn⟩ := hnext hmem
      exact ⟨c.machine.store.read?_next n, next_lt_of_opens hn⟩
    · exact ⟨h.unbound id n hmem, Nat.lt_of_lt_of_le (h.lt_next id n hmem) (step_stores locate c).next_le⟩

/-- What a step declares in a local scope is not bound there yet. -/
theorem Unspent.unbound_of_mem_targets (h : c.Unspent) (hs : c.Scoped Q) {id : ScopeId} {n : Name}
    (hmem : (id, n) ∈ c.targets) (hid : id ≠ globals) : c.machine.store.read? id n = none :=
  ((h.account .byDistance hs).2 id n
    (mem_locals.mpr ⟨List.mem_append_left _ hmem, hid⟩)).1

theorem Calls.opens_eq {f : Function} {args : List Value} (h : c.Calls f args) :
    c.opens = f.params ++ Stmt.declaredNames f.body := by
  obtain ⟨⟨line, hcontrol⟩, hmay⟩ := h
  unfold opens
  rw [hcontrol]
  exact if_pos hmay

/-- No declaration in a local scope and no parameter finds its name bound there. -/
theorem Unspent.fresh (h : c.Unspent) (hs : c.Scoped Q) {d : Executed} (hd : d ∈ c.declarations)
    (hlocal : d.scope ≠ globals ∨ ∃ f args, c.Calls f args) : d.store.read? d.scope d.name = none := by
  by_cases hcalls : ∃ f args, c.Calls f args
  · obtain ⟨f, args, hcall⟩ := hcalls
    rw [declarations_of_calls hcall] at hd
    refine Machine.unbound_of_mem_bindings ?_ (fun n _ => ?_) d hd
    · exact (List.nodup_append.mp (hcall.opens_eq ▸ hs.nodup_opens)).1
    · rw [Machine.read?_entered]
      exact c.machine.store.read?_next n
  · rw [(store_of_mem_declarations hd).resolve_right hcalls]
    exact h.unbound_of_mem_targets hs (List.mem_map_of_mem hd) (hlocal.resolve_right hcalls)

theorem Unspent.step (h : c.Unspent) (hs : c.Scoped Q) (hl : locate.Finds) : (c.step locate).Unspent := by
  obtain ⟨hnodup, hunbound⟩ := h.account locate hs
  rw [locals_append] at hnodup hunbound
  obtain ⟨-, hpending, hdisjoint⟩ := List.nodup_append.mp hnodup
  refine ⟨hpending, fun id n hmem => (hunbound id n (List.mem_append_right _ hmem)).2, fun id n hmem => ?_⟩
  -- The step binds what it declares only, and nothing of that is still pending.
  rw [← Option.not_isSome_iff_eq_none, (step_stores locate c).isSome_read? hl hs.current_lt_next,
    (hunbound id n (List.mem_append_right _ hmem)).1]
  rintro (⟨⟨⟩⟩ | htarget)
  exact hdisjoint _ (mem_locals.mpr ⟨htarget, (mem_locals.mp hmem).2⟩) _ hmem rfl

end Unspent
end Config
end LoxLang
