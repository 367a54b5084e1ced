import LoxLang.Proofs.Machine.Stands

/-!
Preservation: a step from a scoped configuration leads to a scoped one, whatever rule finds the scope
of a reference, as long as that scope binds the name.
-/
namespace LoxLang

def Locator.Finds (locate : Locator) : Prop :=
  ∀ m name id h, locate m name id = some h → (m.store.read? h name).isSome

namespace Config

variable {Q : Layers → Name → NodeId → Prop} {W : Labels} {locate : Locator}
  {m : Machine} {frames : List Frame} {ls : Layers}

theorem scoped_value {v : Value} (h : m.Stands Q W .value ls frames) (hv : v.Scoped Q m.store W) :
    (value v frames m).Scoped Q :=
  ⟨W, h.store, ls, h.chain, hv, h.frames⟩

theorem scoped_normal (h : m.Stands Q W .statement ls frames) : (normal frames m).Scoped Q :=
  ⟨W, h.store, .inr ⟨ls, h.chain, h.frames⟩⟩

theorem scoped_fail {awaited : Awaited} (h : m.Stands Q W awaited ls frames) (cause : Mishap)
    (line : Nat) : (fail cause line frames m).Scoped Q :=
  ⟨W, h.store, .inr ⟨awaited, ls, h.frames⟩⟩

theorem scoped_ofExcept {line : Nat} {r : Except Mishap Value} (h : m.Stands Q W .value ls frames)
    (hr : ∀ v, r = .ok v → v.Scoped Q m.store W) : (ofExcept line r frames m).Scoped Q := by
  cases r with
  | ok v => exact scoped_value h (hr v rfl)
  | error cause => exact scoped_fail h cause line

theorem scoped_evalNext {e : Expr} (h : m.Stands Q W .value ls frames) (he : e.Scoped Q ls) :
    Scoped Q ⟨.eval e, frames, m⟩ :=
  ⟨W, h.store, ls, h.chain, he, h.frames⟩

/-- A statement that declares nothing leaves the layers as they are. -/
theorem scoped_execNext {s : Stmt} (h : m.Stands Q W .statement ls frames)
    (hs : s.declares? = none ∧ s.Scoped Q ls) : Scoped Q ⟨.exec s, frames, m⟩ := by
  refine ⟨W, h.store, ls, h.chain, hs.2, ?_⟩
  rw [Layers.after_of_declares?_eq_none ls hs.1]
  exact h.frames

theorem scoped_eval {e : Expr} (h : m.Stands Q W .value ls frames) (he : e.Scoped Q ls) :
    (eval locate e frames m).Scoped Q := by
  cases e with
  | literal line l => exact scoped_value h (Value.scoped_ofLiteral l)
  | grouping line inner => exact scoped_evalNext h he
  | unary line op operand => exact scoped_evalNext ⟨h.store, h.chain, h.frames⟩ he
  | binary line op left right => exact scoped_evalNext ⟨h.store, h.chain, he.2, h.frames⟩ he.1
  | logical line op left right => exact scoped_evalNext ⟨h.store, h.chain, he.2, h.frames⟩ he.1
  | reference line name id =>
    simp only [eval]
    split
    · next v hv =>
      obtain ⟨a, -, hread⟩ := Option.bind_eq_some_iff.mp hv
      exact scoped_value h (h.store.values a name v hread)
    · exact scoped_fail h _ line
  | assign line name id value => exact scoped_evalNext ⟨h.store, h.chain, he.2, h.frames⟩ he.1
  | call line callee args => exact scoped_evalNext ⟨h.store, h.chain, he.2, h.frames⟩ he.1

theorem scoped_exec {s : Stmt} (hm : m.store.Scoped Q W) (hc : m.store.Chain W m.current ls)
    (hs : s.Scoped Q ls) (hf : Frame.AllScoped Q m.store W .statement (ls.after s) frames) :
    (exec s frames m).Scoped Q := by
  cases s with
  | expression line e => exact scoped_evalNext ⟨hm, hc, hf⟩ hs
  | print line e => exact scoped_evalNext ⟨hm, hc, hf⟩ hs
  | var line name initializer =>
    cases initializer with
    | none => exact scoped_normal (Machine.stands_define hm hc hs.1 trivial hf)
    | some e => exact scoped_evalNext ⟨hm, hc, hs.1, hf⟩ (hs.2 e rfl)
  | block line body =>
    have hframe : Frame.AllScoped Q m.store W .statement (.ofBlock body :: ls)
        (.block m.current :: frames) := ⟨ls, hc, hf⟩
    have h := Machine.Stands.openScope (Stmt.declaredNames body) hm hc hframe
    exact ⟨_, h.store, _, h.chain, hs, hframe.grow (m.store.grows_alloc W (some m.current) _)⟩
  | branch line condition thenBranch elseBranch =>
    cases elseBranch with
    | none => exact scoped_evalNext ⟨hm, hc, ⟨hs.2, nofun⟩, hf⟩ hs.1
    | some e =>
      have he : ∀ s ∈ some e, s.declares? = none ∧ s.Scoped Q ls := by rintro _ ⟨⟩; exact hs.2.2
      exact scoped_evalNext ⟨hm, hc, ⟨hs.2.1, he⟩, hf⟩ hs.1
  | loop line condition body => exact scoped_evalNext ⟨hm, hc, hs, hf⟩ hs.1
  | function line name params body =>
    exact scoped_normal (Machine.stands_declareFunction hm hc hs.1 hs.2.1 hs.2.2 hf)
  | result line value =>
    cases value with
    | none => exact ⟨W, hm, ls, fun h => by subst h; exact hc, trivial, hf⟩
    | some e => exact scoped_evalNext ⟨hm, hc, hf⟩ (hs e rfl)

theorem scoped_call {f : Function} {args : List Value} {line : Nat}
    (h : m.Stands Q W .value ls frames) (hf : f.Scoped Q m.store W)
    (hargs : ∀ v ∈ args, v.Scoped Q m.store W) (hlen : args.length = f.arity) :
    (call f args line frames m).Scoped Q := by
  unfold call
  split
  · obtain ⟨W', ls', he, hb⟩ := Machine.stands_enterCall h hf hargs hlen
    obtain ⟨outer, hcaller, hframes⟩ := he.frames
    exact ⟨W', he.store, _, he.chain, hb, outer, hcaller, hframes⟩
  · exact scoped_fail h _ line

theorem scoped_apply {callee : Value} {args : List Value} {line : Nat}
    (h : m.Stands Q W .value ls frames) (hc : callee.Scoped Q m.store W)
    (hargs : ∀ v ∈ args, v.Scoped Q m.store W) : (apply callee args line frames m).Scoped Q := by
  unfold apply
  split
  · next f =>
    split
    · next hlen => exact ⟨W, h.store, ls, h.chain, hc, ⟨hargs, hlen⟩, h.frames⟩
    · exact scoped_fail h _ line
  · exact scoped_fail h _ line

theorem scoped_arguments {callee : Value} {args : List Value} {rest : List Expr} {line : Nat}
    (h : m.Stands Q W .value ls frames) (hc : callee.Scoped Q m.store W)
    (hargs : ∀ v ∈ args, v.Scoped Q m.store W) (hrest : Expr.AllScoped Q ls rest) :
    (arguments line callee args rest frames m).Scoped Q := by
  cases rest with
  | nil => exact scoped_apply h hc fun v hv => hargs v (List.mem_reverse.mp hv)
  | cons e rest =>
    exact scoped_evalNext ⟨h.store, h.chain, ⟨hc, hargs⟩, hrest.2, h.frames⟩ hrest.1

theorem scoped_print {v : Value} {line : Nat} (h : m.Stands Q W .statement ls frames) :
    (print line v frames m).Scoped Q := by
  have hw (o : Output) : { m with output := o }.Stands Q W .statement ls frames :=
    ⟨h.store, h.chain, h.frames⟩
  unfold print
  dsimp only
  split
  · exact scoped_normal (hw _)
  · exact scoped_fail (hw _) _ line

/-- A value that reaches a frame. -/
theorem scoped_resume {v : Value} {f : Frame} (hl : locate.Finds) (hm : m.store.Scoped Q W)
    (hc : m.store.Chain W m.current ls) (hv : v.Scoped Q m.store W)
    (hf : Frame.AllScoped Q m.store W .value ls (f :: frames)) :
    (resume locate v f frames m).Scoped Q := by
  cases f with
  | unary line op => exact scoped_ofExcept ⟨hm, hc, hf⟩ fun w => UnaryOp.scoped_apply
  | left line op right => exact scoped_evalNext ⟨hm, hc, hv, hf.2⟩ hf.1
  | right line op left => exact scoped_ofExcept ⟨hm, hc, hf.2⟩ fun w => BinaryOp.scoped_apply
  | logical op right =>
    simp only [resume]
    split
    · exact scoped_value ⟨hm, hc, hf.2⟩ hv
    · exact scoped_evalNext ⟨hm, hc, hf.2⟩ hf.1
  | assign line name id =>
    simp only [resume]
    split
    · next a ha =>
      have hg := m.store.grows_define W a name v
      exact scoped_value ⟨hm.define (hv.grow hg) (hm.labels a name (hl m name id a ha)),
        hc.grow hg, hf.2.grow hg⟩ (hv.grow hg)
    · exact scoped_fail ⟨hm, hc, hf.2⟩ _ line
  | callee line args => exact scoped_arguments ⟨hm, hc, hf.2⟩ hv nofun hf.1
  | argument line callee args rest =>
    refine scoped_arguments ⟨hm, hc, hf.2.2⟩ hf.1.1 ?_ hf.2.1
    rintro w (_ | ⟨_, hw⟩)
    · exact hv
    · exact hf.1.2 w hw
  | discard => exact scoped_normal ⟨hm, hc, hf⟩
  | print line => exact scoped_print ⟨hm, hc, hf⟩
  | var name =>
    have hg := m.store.grows_define W m.current name v
    exact scoped_normal (Machine.stands_define hm hc hf.1 (hv.grow hg) hf.2)
  | result => exact ⟨W, hm, ls, fun h => by subst h; exact hc, hv, hf⟩
  | branch thenBranch elseBranch =>
    simp only [resume]
    split
    · exact scoped_execNext ⟨hm, hc, hf.2⟩ hf.1.1
    · split
      · next s => exact scoped_execNext ⟨hm, hc, hf.2⟩ (hf.1.2 s rfl)
      · exact scoped_normal ⟨hm, hc, hf.2⟩
  | test condition body =>
    simp only [resume]
    split
    · exact scoped_execNext ⟨hm, hc, hf⟩ hf.1.2
    · exact scoped_normal ⟨hm, hc, hf.2⟩
  | again | sequence | program | block | call => cases hf

/-- A statement that has ended reaches a frame. -/
theorem scoped_proceed {f : Frame} (h : m.Stands Q W .statement ls (f :: frames)) :
    (proceed f frames m).Scoped Q := by
  obtain ⟨hm, hc, hf⟩ := h
  cases f with
  | again condition body => exact scoped_evalNext ⟨hm, hc, hf⟩ hf.1.1
  | sequence rest => exact ⟨W, hm, ls, hc, hf⟩
  | program rest =>
    obtain ⟨rfl, hr, rfl⟩ := hf
    exact ⟨W, hm, hc, hr, rfl⟩
  | block outer =>
    obtain ⟨ls', ho, hf⟩ := hf
    exact scoped_normal ⟨hm, ho, hf⟩
  | call caller =>
    obtain ⟨ls', ho, hf⟩ := hf
    exact scoped_value (m := m.leaveCall caller) ⟨hm, ho, hf⟩ trivial
  | _ => cases hf

theorem scoped_unwindReturn {v : Value} {f : Frame} (hm : m.store.Scoped Q W)
    (hcur : ls = [] → m.current = globals) (hv : v.Scoped Q m.store W)
    (hf : Frame.AllScoped Q m.store W .statement ls (f :: frames)) :
    (unwindReturn v f frames m).Scoped Q := by
  cases f with
  | again condition body => exact ⟨W, hm, ls, hcur, hv, hf.2⟩
  | sequence rest => exact ⟨W, hm, _, fun h => hcur (Layers.afterAll_eq_nil.mp h), hv, hf.2⟩
  | program rest =>
    obtain ⟨rfl, hr, rfl⟩ := hf
    exact ⟨W, hm, hcur rfl, hr, rfl⟩
  | block outer =>
    obtain ⟨ls', ho, hf⟩ := hf
    exact ⟨W, hm, ls', fun h => by subst h; exact ho, hv, hf⟩
  | call caller =>
    obtain ⟨ls', ho, hf⟩ := hf
    exact scoped_value (m := m.leaveCall caller) ⟨hm, ho, hf⟩ hv
  | _ => cases hf

/-- Frames below scoped ones are scoped. -/
theorem allScoped_tail {awaited : Awaited} {st : Store} {f : Frame}
    (hf : Frame.AllScoped Q st W awaited ls (f :: frames)) :
    frames = [] ∨ ∃ awaited ls, Frame.AllScoped Q st W awaited ls frames := by
  cases awaited with
  | value =>
    cases f with
    | unary | discard | print | result => exact .inr ⟨_, _, hf⟩
    | argument => exact .inr ⟨_, _, hf.2.2⟩
    | again | sequence | program | block | call => cases hf
    | _ => exact .inr ⟨_, _, hf.2⟩
  | statement =>
    cases f with
    | again | sequence => exact .inr ⟨_, _, hf.2⟩
    | program => exact .inl hf.2.2
    | block | call =>
      obtain ⟨ls', -, hf⟩ := hf
      exact .inr ⟨_, ls', hf⟩
    | _ => cases hf

theorem scoped_unwindError {awaited : Awaited} {e : RuntimeError} {f : Frame}
    (hm : m.store.Scoped Q W) (hf : Frame.AllScoped Q m.store W awaited ls (f :: frames)) :
    (unwindError e f frames m).Scoped Q := by
  have hrest := allScoped_tail hf
  cases f with
  | _ => exact ⟨W, hm, hrest⟩

/-- One step keeps a configuration scoped. -/
theorem Scoped.step {c : Config} (hl : locate.Finds) (h : c.Scoped Q) : (c.step locate).Scoped Q := by
  obtain ⟨control, frames, m⟩ := c
  obtain ⟨W, hm, hc⟩ := h
  dsimp only at hm hc
  cases control with
  | eval e =>
    obtain ⟨ls, hch, he, hf⟩ := hc
    exact scoped_eval ⟨hm, hch, hf⟩ he
  | exec s =>
    obtain ⟨ls, hch, hs, hf⟩ := hc
    exact scoped_exec hm hch hs hf
  | execAll ss =>
    obtain ⟨ls, hch, hs, hf⟩ := hc
    cases ss with
    | nil => exact scoped_normal ⟨hm, hch, hf⟩
    | cons s ss => exact ⟨W, hm, ls, hch, hs.1, hs.2, hf⟩
  | program ss =>
    obtain ⟨hcur, hs, rfl⟩ := hc
    cases ss with
    | nil => exact ⟨W, hm, .inl ⟨hcur, rfl⟩⟩
    | cons s ss =>
      refine ⟨W, hm, [], hcur, hs.1, ?_⟩
      rw [Layers.after_nil]
      exact ⟨rfl, by simpa using hs.2, rfl⟩
  | call f args line =>
    obtain ⟨ls, hch, hf, ⟨ha, hlen⟩, hfs⟩ := hc
    exact scoped_call ⟨hm, hch, hfs⟩ hf ha hlen
  | done s =>
    cases frames with
    | nil => exact ⟨W, hm, hc⟩
    | cons f frames =>
      cases s with
      | value v =>
        obtain ⟨ls, hch, hv, hf⟩ := hc
        exact scoped_resume hl hm hch hv hf
      | normal =>
        obtain ⟨-, hnil⟩ | ⟨ls, hch, hf⟩ := hc
        · cases hnil
        · exact scoped_proceed ⟨hm, hch, hf⟩
      | returned v =>
        obtain ⟨ls, hcur, hv, hf⟩ := hc
        exact scoped_unwindReturn hm hcur hv hf
      | failed e =>
        obtain hnil | ⟨awaited, ls, hf⟩ := hc
        · cases hnil
        · exact scoped_unwindError hm hf

end Config
end LoxLang
