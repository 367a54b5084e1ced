import LoxLang.Proofs.Machine.Scoped

/-!
Machines that stand in a chain: what a declaration, a new scope and a call do to the chain that the
machine stands in, and which values operators give.
-/
namespace LoxLang

section Values
variable {Q : Layers → Name → NodeId → Prop} {st : Store} {W : Labels} {v w : Value}

/-- No operator makes a function. -/
theorem UnaryOp.apply_ne_function {op : UnaryOp} (h : op.apply v = .ok w) (f : Function) :
    w ≠ .function f := by
  unfold UnaryOp.apply at h
  split at h <;> cases h <;> nofun

theorem Value.onNumbers_ne_function {g : Float → Float → Value} {u : Value}
    (h : Value.onNumbers g v w = .ok u) (f : Function) (hg : ∀ a b, g a b ≠ .function f) :
    u ≠ .function f := by
  unfold Value.onNumbers at h
  split at h
  · cases h
    exact hg _ _
  · cases h

theorem BinaryOp.apply_ne_function {op : BinaryOp} {u : Value} (h : op.apply v w = .ok u)
    (f : Function) : u ≠ .function f := by
  cases op
  case add =>
    simp only [BinaryOp.apply, Value.add] at h
    split at h <;> cases h <;> nofun
  case equal | notEqual => cases h; nofun
  all_goals exact Value.onNumbers_ne_function h f fun _ _ => nofun

theorem Value.ofLiteral_ne_function (l : Literal) (f : Function) : Value.ofLiteral l ≠ .function f := by
  cases l <;> (intro h; cases h)

theorem Value.scoped_of_ne_function (h : ∀ f, v ≠ .function f) : v.Scoped Q st W := by
  cases v with
  | function f => exact absurd rfl (h f)
  | _ => trivial

theorem Value.scoped_ofLiteral (l : Literal) : (Value.ofLiteral l).Scoped Q st W :=
  Value.scoped_of_ne_function (Value.ofLiteral_ne_function l)

theorem UnaryOp.scoped_apply {op : UnaryOp} (h : op.apply v = .ok w) : w.Scoped Q st W :=
  Value.scoped_of_ne_function (UnaryOp.apply_ne_function h)

theorem BinaryOp.scoped_apply {op : BinaryOp} {u : Value} (h : op.apply v w = .ok u) :
    u.Scoped Q st W :=
  Value.scoped_of_ne_function (BinaryOp.apply_ne_function h)

end Values

structure Machine.Stands (Q : Layers → Name → NodeId → Prop) (W : Labels) (m : Machine)
    (awaited : Awaited) (ls : Layers) (frames : List Frame) : Prop where
  store : m.store.Scoped Q W
  chain : m.store.Chain W m.current ls
  frames : Frame.AllScoped Q m.store W awaited ls frames

namespace Machine

variable {Q : Layers → Name → NodeId → Prop} {W : Labels} {m : Machine} {frames : List Frame}
  {awaited : Awaited} {ls : Layers}

theorem stands_define {name : Name} {v : Value} (hm : m.store.Scoped Q W)
    (hc : m.store.Chain W m.current ls) (ha : ls.Admits name)
    (hv : v.Scoped Q (m.define name v).store W)
    (hf : Frame.AllScoped Q m.store W awaited (ls.reveal name) frames) :
    (m.define name v).Stands Q W awaited (ls.reveal name) frames where
  store := hm.define hv (hc.mem_label ha)
  chain := hc.define name v
  frames := hf.grow (m.store.grows_define W m.current name v)

/-- A function may call itself: its name is bound in the scope that it keeps. -/
theorem stands_declareFunction {name : Name} {params : List Name} {body : List Stmt}
    (hm : m.store.Scoped Q W) (hc : m.store.Chain W m.current ls) (ha : ls.Admits name)
    (hn : params.Nodup)
    (hb : Stmt.AllScoped Q (.ofFunction params body :: ls.reveal name) body)
    (hf : Frame.AllScoped Q m.store W awaited (ls.reveal name) frames) :
    (m.declareFunction name params body).Stands Q W awaited (ls.reveal name) frames := by
  have h := stands_define (v := .function ⟨m.functions, name, params, body, m.current⟩)
    hm hc ha ⟨ls.reveal name, hc.define name _, hn, hb⟩ hf
  exact ⟨h.store, h.chain, h.frames⟩

theorem Stands.openScope {outer : ScopeId} (names : List Name) (hm : m.store.Scoped Q W)
    (ho : m.store.Chain W outer ls)
    (hf : Frame.AllScoped Q m.store W awaited (⟨[], names⟩ :: ls) frames) :
    (m.openScope outer).Stands Q (Function.update W m.store.next names) awaited (⟨[], names⟩ :: ls)
      frames where
  store := hm.alloc outer names
  chain := ho.alloc hm.nonempty names
  frames := hf.grow (m.store.grows_alloc W (some outer) names)

/-- Each parameter is bound in turn. -/
theorem stands_bindParams {params : List Name} {args : List Value} {l : Layer}
    (hlen : args.length = params.length) (hn : params.Nodup)
    (hnew : ∀ n ∈ params, n ∉ l.visible ∧ n ∈ l.declared)
    (hargs : ∀ v ∈ args, v.Scoped Q m.store W)
    (hf : ∀ ls', Frame.AllScoped Q m.store W awaited ls' frames)
    (h : m.Stands Q W awaited (l :: ls) frames) :
    (bindParams params args m).Stands Q W awaited
      ({ l with visible := params.reverse ++ l.visible } :: ls) frames := by
  induction params generalizing m l args with
  | nil => simpa [bindParams] using h
  | cons name names ih =>
    cases args with
    | nil => cases hlen
    | cons v vs =>
      have hg := m.store.grows_define W m.current name v
      obtain ⟨hname, hnames⟩ := List.nodup_cons.mp hn
      have hd : (m.define name v).Stands Q W awaited
          ({ l with visible := name :: l.visible } :: ls) frames :=
        stands_define h.store h.chain (fun _ hl => by cases hl; exact hnew name (by simp))
          ((hargs v (by simp)).grow hg) (hf _)
      have hrest : ∀ n ∈ names, n ∉ name :: l.visible ∧ n ∈ l.declared := by
        intro n hmem
        have hne : n ≠ name := fun he => hname (he ▸ hmem)
        simpa [hne] using hnew n (by simp [hmem])
      have := ih (by simpa using hlen) hnames hrest (fun v hv => (hargs v (by simp [hv])).grow hg)
        (fun ls' => (hf ls').grow hg) hd
      simpa [bindParams] using this

/-- A call runs the body in a new scope inside the one that the function keeps. -/
theorem stands_enterCall {f : Function} {args : List Value} (h : m.Stands Q W .value ls frames)
    (hf : f.Scoped Q m.store W) (hargs : ∀ v ∈ args, v.Scoped Q m.store W)
    (hlen : args.length = f.arity) :
    ∃ W' ls', (m.enterCall f args).Stands Q W' .statement (.ofFunction f.params f.body :: ls')
      (.call m.current :: frames) ∧ Stmt.AllScoped Q (.ofFunction f.params f.body :: ls') f.body := by
  obtain ⟨ls', hc, hn, hb⟩ := hf
  let entered := { m with depth := m.depth + 1 }
  let names := f.params ++ Stmt.declaredNames f.body
  have hg := m.store.grows_alloc W (some f.closure) names
  have hframes (ls' : Layers) :
      Frame.AllScoped Q m.store W .statement ls' (.call m.current :: frames) :=
    ⟨ls, h.chain, h.frames⟩
  have ho := Stands.openScope (m := entered) names h.store hc (hframes _)
  have hp := stands_bindParams hlen hn (fun n hmem => ⟨List.not_mem_nil, List.mem_append_left _ hmem⟩)
    (fun v hv => (hargs v hv).grow hg) (fun ls => (hframes ls).grow hg) ho
  refine ⟨_, ls', ⟨hp.store, ?_, hp.frames⟩, hb⟩
  exact hp.chain.weaken (by simp [Layer.ofFunction]) rfl

end Machine
end LoxLang
