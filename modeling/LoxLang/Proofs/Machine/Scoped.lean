import LoxLang.Machine.Step
import LoxLang.Proofs.Machine.Chain

/-!
Scoped configurations: all code that is left to run, or that a function keeps, satisfies a condition
on its nodes in the layers of the chain that it runs in. Every step keeps this.
-/
namespace LoxLang

inductive Awaited where
  | value | statement

section Definitions
variable (Q : Layers → Name → NodeId → Prop) (st : Store) (W : Labels)

def Function.Scoped (f : Function) : Prop :=
  ∃ ls, st.Chain W f.closure ls ∧ f.params.Nodup ∧
    Stmt.AllScoped Q (.ofFunction f.params f.body :: ls) f.body

def Value.Scoped : Value → Prop
  | .function f => f.Scoped Q st W
  | _ => True

structure Store.Scoped : Prop where
  nonempty : 0 < st.next
  enclosing_globals : st.enclosing? globals = none
  values : ∀ id n v, st.read? id n = some v → v.Scoped Q st W
  labels : ∀ id n, (st.read? id n).isSome → id ≠ globals → n ∈ W id

def Frame.AllScoped : Awaited → Layers → List Frame → Prop
  | .value, ls, .unary _ _ :: fs => AllScoped .value ls fs
  | .value, ls, .left _ _ e :: fs | .value, ls, .logical _ e :: fs =>
    e.Scoped Q ls ∧ AllScoped .value ls fs
  | .value, ls, .right _ _ v :: fs => v.Scoped Q st W ∧ AllScoped .value ls fs
  | .value, ls, .assign _ name id :: fs => Q ls name id ∧ AllScoped .value ls fs
  | .value, ls, .callee _ args :: fs => Expr.AllScoped Q ls args ∧ AllScoped .value ls fs
  | .value, ls, .argument _ v vs es :: fs =>
    (v.Scoped Q st W ∧ ∀ v ∈ vs, v.Scoped Q st W) ∧ Expr.AllScoped Q ls es ∧ AllScoped .value ls fs
  | .value, ls, .discard :: fs | .value, ls, .print _ :: fs | .value, ls, .result :: fs =>
    AllScoped .statement ls fs
  | .value, ls, .var name :: fs => ls.Admits name ∧ AllScoped .statement (ls.reveal name) fs
  | .value, ls, .branch thenBranch elseBranch :: fs =>
    ((thenBranch.declares? = none ∧ thenBranch.Scoped Q ls) ∧
      ∀ s ∈ elseBranch, s.declares? = none ∧ s.Scoped Q ls) ∧ AllScoped .statement ls fs
  | .value, ls, .test condition body :: fs | .statement, ls, .again condition body :: fs =>
    (condition.Scoped Q ls ∧ body.declares? = none ∧ body.Scoped Q ls) ∧ AllScoped .statement ls fs
  | .statement, ls, .sequence rest :: fs =>
    Stmt.AllScoped Q ls rest ∧ AllScoped .statement (ls.afterAll rest) fs
  | .statement, ls, .program rest :: fs => ls = [] ∧ Stmt.AllScoped Q [] rest ∧ fs = []
  | .statement, _, .block outer :: fs => ∃ ls, st.Chain W outer ls ∧ AllScoped .statement ls fs
  | .statement, _, .call caller :: fs => ∃ ls, st.Chain W caller ls ∧ AllScoped .value ls fs
  | _, _, _ => False

def Control.Scoped (current : ScopeId) (frames : List Frame) : Control → Prop
  | .eval e =>
    ∃ ls, st.Chain W current ls ∧ e.Scoped Q ls ∧ Frame.AllScoped Q st W .value ls frames
  | .exec s =>
    ∃ ls, st.Chain W current ls ∧ s.Scoped Q ls ∧
      Frame.AllScoped Q st W .statement (ls.after s) frames
  | .execAll ss =>
    ∃ ls, st.Chain W current ls ∧ Stmt.AllScoped Q ls ss ∧
      Frame.AllScoped Q st W .statement (ls.afterAll ss) frames
  | .program ss => current = globals ∧ Stmt.AllScoped Q [] ss ∧ frames = []
  | .call f args _ =>
    ∃ ls, st.Chain W current ls ∧ f.Scoped Q st W ∧
      ((∀ v ∈ args, v.Scoped Q st W) ∧ args.length = f.arity) ∧
        Frame.AllScoped Q st W .value ls frames
  | .done (.value v) =>
    ∃ ls, st.Chain W current ls ∧ v.Scoped Q st W ∧ Frame.AllScoped Q st W .value ls frames
  | .done .normal =>
    current = globals ∧ frames = [] ∨
      ∃ ls, st.Chain W current ls ∧ Frame.AllScoped Q st W .statement ls frames
  | .done (.returned v) =>
    ∃ ls : Layers, (ls = [] → current = globals) ∧ v.Scoped Q st W ∧
      Frame.AllScoped Q st W .statement ls frames
  | .done (.failed _) => frames = [] ∨ ∃ awaited ls, Frame.AllScoped Q st W awaited ls frames

end Definitions

structure Config.ScopedBy (Q : Layers → Name → NodeId → Prop) (W : Labels) (c : Config) : Prop where
  store : c.machine.store.Scoped Q W
  control : c.control.Scoped Q c.machine.store W c.machine.current c.frames

def Config.Scoped (Q : Layers → Name → NodeId → Prop) (c : Config) : Prop := ∃ W, c.ScopedBy Q W

section Growth
variable {Q : Layers → Name → NodeId → Prop} {st st' : Store} {W W' : Labels}

theorem Function.Scoped.grow {f : Function} (h : f.Scoped Q st W) (hg : st.Grows W st' W') :
    f.Scoped Q st' W' := by
  obtain ⟨ls, hc, hn, hb⟩ := h
  exact ⟨ls, hc.grow hg, hn, hb⟩

theorem Value.Scoped.grow {v : Value} (h : v.Scoped Q st W) (hg : st.Grows W st' W') :
    v.Scoped Q st' W' := by
  cases v with
  | function f => exact Function.Scoped.grow h hg
  | _ => trivial

theorem Frame.AllScoped.grow {awaited : Awaited} {ls : Layers} {fs : List Frame}
    (h : Frame.AllScoped Q st W awaited ls fs) (hg : st.Grows W st' W') :
    Frame.AllScoped Q st' W' awaited ls fs := by
  induction fs generalizing awaited ls with
  | nil => cases awaited <;> exact h
  | cons f fs ih =>
    cases awaited with
    | value =>
      cases f with
      | right => exact ⟨Value.Scoped.grow h.1 hg, ih h.2⟩
      | argument =>
        exact ⟨⟨Value.Scoped.grow h.1.1 hg, fun v hv => Value.Scoped.grow (h.1.2 v hv) hg⟩,
          h.2.1, ih h.2.2⟩
      | unary | discard | print | result => exact ih h
      | again | sequence | program | block | call => exact h
      | _ => exact ⟨h.1, ih h.2⟩
    | statement =>
      cases f with
      | again | sequence => exact ⟨h.1, ih h.2⟩
      | block | call =>
        obtain ⟨ls', hc, hf⟩ := h
        exact ⟨ls', hc.grow hg, ih hf⟩
      | _ => exact h

/-- A name that the scope may bind gets a new value. -/
theorem Store.Scoped.define {id : ScopeId} {name : Name} {v : Value} (h : st.Scoped Q W)
    (hv : v.Scoped Q (st.define id name v) W) (hid : id ≠ globals → name ∈ W id) :
    (st.define id name v).Scoped Q W where
  nonempty := by simpa using h.nonempty
  enclosing_globals := by simpa using h.enclosing_globals
  values i n w hw := by
    have hg := st.grows_define W id name v
    rw [Store.read?_define] at hw
    split at hw
    · cases hw; exact hv
    · exact (h.values i n w hw).grow hg
  labels i n hn hi := by
    rw [Store.read?_define] at hn
    split at hn
    · next hin => obtain ⟨rfl, rfl, -⟩ := hin; exact hid hi
    · exact h.labels i n hn hi

theorem Store.Scoped.alloc (h : st.Scoped Q W) (outer : ScopeId) (names : List Name) :
    (st.alloc (some outer)).Scoped Q (Function.update W st.next names) where
  nonempty := by simp
  enclosing_globals := by
    have hne : globals ≠ st.next := Nat.ne_of_lt h.nonempty
    rw [Store.enclosing?_alloc, if_neg hne, h.enclosing_globals]
  values i n w hw := by
    rw [Store.read?_alloc] at hw
    exact (h.values i n w hw).grow (st.grows_alloc W (some outer) names)
  labels i n hn hi := by
    rw [Store.read?_alloc] at hn
    have hne : i ≠ st.next := by
      rintro rfl
      simp [Store.read?, Store.next] at hn
    rw [Function.update_of_ne hne]
    exact h.labels i n hn hi

theorem Value.Scoped.imp {R : Layers → Name → NodeId → Prop} {v : Value} (h : v.Scoped Q st W)
    (hQ : ∀ ls name id, Q ls name id → R ls name id) : v.Scoped R st W := by
  cases v with
  | function f =>
    obtain ⟨ls, hc, hn, hb⟩ := h
    exact ⟨ls, hc, hn, hb.imp f.body fun ls n i _ => hQ ls n i⟩
  | _ => trivial

theorem Store.Scoped.imp {R : Layers → Name → NodeId → Prop} (h : st.Scoped Q W)
    (hQ : ∀ ls name id, Q ls name id → R ls name id) : st.Scoped R W where
  nonempty := h.nonempty
  enclosing_globals := h.enclosing_globals
  values i n v hv := (h.values i n v hv).imp hQ
  labels := h.labels

/-- The label of the current scope allows the next declaration in it. -/
theorem Store.Chain.mem_label {id : ScopeId} {ls : Layers} {name : Name} (h : st.Chain W id ls)
    (ha : ls.Admits name) (hid : id ≠ globals) : name ∈ W id := by
  cases ls with
  | nil => exact absurd h hid
  | cons l ls => exact h.2.2.1 ▸ (ha l rfl).2

end Growth
end LoxLang
