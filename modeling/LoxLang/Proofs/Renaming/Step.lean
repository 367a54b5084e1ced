import LoxLang.Proofs.Renaming.Machine

/-!
Configurations that are alike step to such configurations, as long as each local reference finds its
variable: an error names the variable that it misses.
-/
namespace LoxLang

def Machine.Resolves (m : Machine) (name : Name) (id : NodeId) : Prop :=
  ∀ d, m.distances[id]? = some d → ∃ a, m.store.holderAt? m.current d name = some a

variable {T : Distances} {x y : Name} {M : Exchanging} {marks : Marks} {m : Machine} {st' : Store}
  {frames frames' : List Frame}

/-- Both machines find the same scope, which knows the variable by the name that the node has. -/
theorem Machine.Alike.byDistance {name : Name} {id : NodeId}
    (h : m.Alike T x y M marks st' frames frames') (hm : m.store.enclosing? globals = none)
    (hr : m.Resolves name id) :
    Locator.byDistance (m.withStore st') (exchangeNode T x y marks name id) id =
        Locator.byDistance m name id ∧
      (∀ a, Locator.byDistance m name id = some a →
        exchangeNode T x y marks name id = exchange x y (M a) name) ∧
      (Locator.byDistance m name id = none → exchangeNode T x y marks name id = name) := by
  obtain ⟨rfl, hs, hmarked, -⟩ := h
  have hid' : (m.withStore st').distances[id]? = m.distances[id]? := rfl
  cases hid : m.distances[id]? with
  | some d =>
    rw [hid] at hid'
    obtain ⟨a, ha⟩ := hr d hid
    obtain ⟨hanc, hread⟩ := Store.holderAt?_eq_some.mp ha
    have hma : M a = marks d := (hmarked d a hanc).2
    have hread' : (st'.read? a (exchange x y (marks d) name)).isSome := by
      rw [← hma, hs.read?_isSome]
      exact hread
    have ha' : st'.holderAt? m.current d (exchange x y (marks d) name) = some a :=
      Store.holderAt?_eq_some.mpr ⟨(hs.ancestor? _ d).trans hanc, hread'⟩
    rw [exchangeNode_of_some hid, Locator.byDistance_some hid, Locator.byDistance_some hid', ha]
    refine ⟨ha', ?_, nofun⟩
    rintro b ⟨⟩
    rw [hma]
  | none =>
    have h0 : 0 < m.store.next := Nat.zero_lt_of_lt (hmarked 0 m.current rfl).1
    have hread : st'.read? globals name = st'.read? globals (exchange x y (M globals) name) := by
      rw [hs.globals]
      rfl
    have hholder : st'.holder? globals name = m.store.holder? globals name := by
      rw [Store.holder?_globals h0 hm,
        Store.holder?_globals (hs.next ▸ h0) ((hs.enclosing globals).trans hm), hread,
        hs.read?_isSome]
    rw [hid] at hid'
    rw [exchangeNode_of_none hid, Locator.byDistance_none hid, Locator.byDistance_none hid']
    refine ⟨hholder, fun a ha => ?_, fun _ => rfl⟩
    rw [Store.holder?_globals h0 hm] at ha
    split at ha
    · cases ha
      rw [hs.globals]
      rfl
    · cases ha

namespace Config

theorem alike_value {v v' : Value} (h : m.Alike T x y M marks st' frames frames')
    (hv : Value.Alike T x y m.store M v v') :
    Config.Alike T x y (value v frames m) (value v' frames' (m.withStore st')) :=
  .intro h (.done (.value hv))

theorem alike_normal (h : m.Alike T x y M marks st' frames frames') :
    Config.Alike T x y (normal frames m) (normal frames' (m.withStore st')) :=
  .intro h (.done .normal)

theorem alike_fail (h : m.Alike T x y M marks st' frames frames') (cause : Mishap) (line : Nat) :
    Config.Alike T x y (fail cause line frames m) (fail cause line frames' (m.withStore st')) :=
  .intro h (.done (.failed ⟨cause, line⟩))

theorem alike_ofExcept {r : Except Mishap Value} (h : m.Alike T x y M marks st' frames frames')
    (line : Nat) (hr : ∀ v, r = .ok v → ∀ f, v ≠ .function f) :
    Config.Alike T x y (ofExcept line r frames m) (ofExcept line r frames' (m.withStore st')) := by
  cases r with
  | ok v => exact alike_value h (.same v (hr v rfl))
  | error cause => exact alike_fail h cause line

theorem alike_evalNext (h : m.Alike T x y M marks st' frames frames') (e : Expr) :
    Config.Alike T x y ⟨.eval e, frames, m⟩
      ⟨.eval (e.mapNames (exchangeNode T x y marks)), frames', m.withStore st'⟩ :=
  .intro h (.eval e)

theorem alike_eval {e : Expr} (h : m.Alike T x y M marks st' frames frames')
    (hm : m.store.enclosing? globals = none)
    (hr : ∀ line name id, e = .reference line name id → m.Resolves name id) :
    Config.Alike T x y (eval .byDistance e frames m)
      (eval .byDistance (e.mapNames (exchangeNode T x y marks)) frames' (m.withStore st')) := by
  cases e with
  | literal line l => exact alike_value h (.same _ (by cases l <;> nofun))
  | grouping line inner => exact alike_evalNext h inner
  | unary line op operand => exact alike_evalNext (h.push (.unary line op)) operand
  | binary line op left right => exact alike_evalNext (h.push (.left line op right)) left
  | logical line op left right => exact alike_evalNext (h.push (.logical op right)) left
  | assign line name id value => exact alike_evalNext (h.push (.assign line name id)) value
  | call line callee args => exact alike_evalNext (h.push (.callee line args)) callee
  | reference line name id =>
    obtain ⟨hsame, hsome, hnone⟩ := h.byDistance hm (hr line name id rfl)
    simp only [Expr.mapNames, eval, hsame]
    cases hl : Locator.byDistance m name id with
    | none =>
      rw [hnone hl]
      exact alike_fail h _ line
    | some a =>
      have hread := h.store.read a name
      rw [← hsome a hl] at hread
      have hbound := Locator.finds_byDistance m name id a hl
      have hstore : (m.withStore st').store = st' := rfl
      simp only [Option.bind_some, hstore]
      generalize m.store.read? a name = v? at hread hbound
      generalize st'.read? a (exchangeNode T x y marks name id) = v?' at hread
      cases hread with
      | some hv => exact alike_value h hv
      | none => cases hbound

theorem alike_exec {s s' : Stmt} (h : m.Alike T x y M marks st' frames frames')
    (hs : Stmt.Alike T x y marks s s') :
    Config.Alike T x y (exec s frames m) (exec s' frames' (m.withStore st')) := by
  cases hs with
  | expression _ line e => exact alike_evalNext (h.push .discard) e
  | print _ line e => exact alike_evalNext (h.push (.print line)) e
  | var _ line name initializer =>
    cases initializer with
    | none => exact alike_normal (h.define name (.same .nil nofun))
    | some e => exact alike_evalNext (h.push (.var name)) e
  | @block _ line b body body' hb =>
    have hframes : Frame.AllAlike T x y m.store M (marks.push b) (.block m.current :: frames)
        (.block m.current :: frames') := .block _ h.marked h.frames
    have ho := h.openScope b h.marked hframes
    unfold exec
    rw [h.openScope_withStore]
    exact .intro ho (.execAll hb)
  | ifThen line condition ht => exact alike_evalNext (h.push (.branch ht .none)) condition
  | ifElse line condition ht he => exact alike_evalNext (h.push (.branch ht (.some he))) condition
  | loop line condition hb => exact alike_evalNext (h.push (.test condition hb)) condition
  | @function _ line b name params body body' hkept hb =>
    have hf : Value.Alike T x y m.store M (.function ⟨m.functions, name, params, body, m.current⟩)
        (.function ⟨m.functions, name, params.map (exchange x y b), body', m.current⟩) :=
      .function b m.functions name params h.marked hb
    have hd := h.define name hf
    rw [hkept] at hd
    exact alike_normal ⟨hd.table, hd.store, hd.marked, hd.frames⟩
  | result _ line value =>
    cases value with
    | none => exact .intro h (.done (.returned (.same .nil nofun)))
    | some e => exact alike_evalNext (h.push .result) e

theorem alike_call {f f' : Function} {args args' : List Value} (line : Nat)
    (h : m.Alike T x y M marks st' frames frames')
    (hf : Value.Alike T x y m.store M (.function f) (.function f'))
    (hargs : List.Forall₂ (Value.Alike T x y m.store M) args args') :
    Config.Alike T x y (call f args line frames m) (call f' args' line frames' (m.withStore st')) := by
  unfold call
  change Config.Alike T x y _ (if m.mayCall then _ else _)
  split
  · cases hf with
    | same _ hne => exact absurd rfl (hne f)
    | @function marks' b identity name params body body' closure hm hb =>
      let entered := { m with depth := m.depth + 1 }
      have he : entered.Alike T x y M marks st' frames frames' :=
        ⟨h.table, h.store, h.marked, h.frames⟩
      have hframes : Frame.AllAlike T x y m.store M (marks'.push b) (.call m.current :: frames)
          (.call m.current :: frames') := .call _ h.marked h.frames
      have ho := he.openScope b hm hframes
      have hk := m.store.keeps_alloc M (some closure) b
      obtain ⟨st₂, hbind, hp⟩ := ho.bindParams params (forall₂_keep hargs hk)
      have henter : (m.withStore st').enterCall
          ⟨identity, name, params.map (exchange x y b), body', closure⟩ args' =
          (m.enterCall ⟨identity, name, params, body, closure⟩ args).withStore st₂ := by
        rw [← he.openScope_withStore] at hbind
        exact hbind
      rw [henter]
      exact .intro hp (.execAll hb)
  · exact alike_fail h _ line

theorem alike_apply {callee callee' : Value} {args args' : List Value} (line : Nat)
    (h : m.Alike T x y M marks st' frames frames')
    (hc : Value.Alike T x y m.store M callee callee')
    (hargs : List.Forall₂ (Value.Alike T x y m.store M) args args') :
    Config.Alike T x y (apply callee args line frames m)
      (apply callee' args' line frames' (m.withStore st')) := by
  have hlen : args'.length = args.length := hargs.length_eq.symm
  have hf := hc
  cases hc with
  | same v hne =>
    cases callee with
    | function f => exact absurd rfl (hne f)
    | _ => exact alike_fail h _ line
  | @function marks' b identity name params body body' closure hm hb =>
    have harity : Function.arity ⟨identity, name, params.map (exchange x y b), body', closure⟩ =
        Function.arity ⟨identity, name, params, body, closure⟩ := List.length_map _
    simp only [apply, hlen, harity]
    split
    · exact .intro h (.call line hf hargs)
    · exact alike_fail h _ line

theorem alike_arguments {callee callee' : Value} {args args' : List Value} {rest : List Expr}
    (line : Nat) (h : m.Alike T x y M marks st' frames frames')
    (hc : Value.Alike T x y m.store M callee callee')
    (hargs : List.Forall₂ (Value.Alike T x y m.store M) args args') :
    Config.Alike T x y (arguments line callee args rest frames m)
      (arguments line callee' args' (Expr.mapAllNames (exchangeNode T x y marks) rest) frames'
        (m.withStore st')) := by
  cases rest with
  | nil => exact alike_apply line h hc (List.rel_reverse hargs)
  | cons e rest => exact alike_evalNext (h.push (.argument line rest hc hargs)) e

theorem alike_print {v v' : Value} (line : Nat) (h : m.Alike T x y M marks st' frames frames')
    (hv : Value.Alike T x y m.store M v v') :
    Config.Alike T x y (print line v frames m) (print line v' frames' (m.withStore st')) := by
  have hw (o : Output) : { m with output := o }.Alike T x y M marks st' frames frames' :=
    ⟨h.table, h.store, h.marked, h.frames⟩
  unfold print
  rw [Value.text_of_outline hv.outline]
  change Config.Alike T x y _ (if m.output.fits (v.text ++ "\n") then _ else _)
  dsimp only
  split
  · exact alike_normal (hw _)
  · exact alike_fail (hw _) _ line

/-- A value reaches frames that are alike. -/
theorem alike_resume {v v' : Value} {f f' : Frame} (h : m.Alike T x y M marks st' frames frames')
    (hv : Value.Alike T x y m.store M v v') (hf : Frame.Alike T x y m.store M marks f f')
    (hm : m.store.enclosing? globals = none)
    (hr : ∀ line name id, f = .assign line name id → m.Resolves name id) :
    Config.Alike T x y (resume .byDistance v f frames m)
      (resume .byDistance v' f' frames' (m.withStore st')) := by
  cases hf with
  | unary line op =>
    simp only [resume, op.apply_of_outline hv.outline]
    exact alike_ofExcept h line fun w hw => UnaryOp.apply_ne_function hw
  | left line op e => exact alike_evalNext (h.push (.right line op hv)) e
  | right line op hl =>
    simp only [resume, op.apply_of_outline hl.outline hv.outline]
    exact alike_ofExcept h line fun w hw => BinaryOp.apply_ne_function hw
  | logical op e =>
    simp only [resume, op.stopsAt_of_outline hv.outline]
    split
    · exact alike_value h hv
    · exact alike_evalNext h e
  | assign line name id =>
    obtain ⟨hsame, hsome, hnone⟩ := h.byDistance hm (hr line name id rfl)
    simp only [resume, hsame]
    cases hl : Locator.byDistance m name id with
    | none =>
      rw [hnone hl]
      exact alike_fail h _ line
    | some a =>
      have hk := m.store.keeps_define M a name v
      have hstore := h.store.define a name hv
      rw [← hsome a hl] at hstore
      have hd : { m with store := m.store.define a name v }.Alike T x y M marks
          (st'.define a (exchangeNode T x y marks name id) v') frames frames' :=
        ⟨h.table, hstore, hk _ _ h.marked, h.frames.keep hk⟩
      exact alike_value hd (hv.keep hk)
  | callee line args => exact alike_arguments line h hv .nil
  | argument line rest hc hvs => exact alike_arguments line h hc (.cons hv hvs)
  | print line => exact alike_print line h hv
  | var name => exact alike_normal (h.define name hv)
  | result => exact .intro h (.done (.returned hv))
  | branch ht he =>
    simp only [resume, Value.truthy_of_outline hv.outline]
    split
    · exact .intro h (.exec ht)
    · cases he with
      | some he => exact .intro h (.exec he)
      | none => exact alike_normal h
  | test condition hb =>
    simp only [resume, Value.truthy_of_outline hv.outline]
    split
    · exact .intro (h.push (.again condition hb)) (.exec hb)
    · exact alike_normal h
  | _ => exact alike_normal h

/-- A signal reaches frames that are alike. -/
theorem alike_pop {s s' : Signal} {f f' : Frame}
    (h : m.Alike T x y M marks st' (f :: frames) (f' :: frames'))
    (hs : Signal.Alike T x y m.store M s s') (hm : m.store.enclosing? globals = none)
    (hr : ∀ v line name id, s = .value v → f = .assign line name id → m.Resolves name id)
    (hw : ∀ v, s = .value v → ∀ scope, f ≠ .block scope ∧ f ≠ .call scope) :
    Config.Alike T x y (pop .byDistance s f frames m)
      (pop .byDistance s' f' frames' (m.withStore st')) := by
  obtain ⟨hT, hst, hmarked, hframes⟩ := h
  cases hframes with
  | cons hf hfs =>
    have h : m.Alike T x y M marks st' frames frames' := ⟨hT, hst, hmarked, hfs⟩
    cases hs with
    | value hv => exact alike_resume h hv hf hm fun line name id => hr _ line name id rfl
    | normal =>
      cases hf with
      | again condition hb => exact alike_evalNext (h.push (.test condition hb)) condition
      | sequence hs => exact .intro h (.execAll hs)
      | program hs => exact .intro h (.program hs)
      | _ => exact alike_normal h
    | returned hv =>
      cases hf with
      | program hs => exact .intro h (.program hs)
      | _ => exact .intro h (.done (.returned hv))
    | failed e => cases hf <;> exact .intro h (.done (.failed e))
  | @block _ outer marks' _ _ ho hfs =>
    have h : { m with current := outer }.Alike T x y M marks' st' frames frames' :=
      ⟨hT, hst, ho, hfs⟩
    cases hs with
    | value hv => exact absurd rfl (hw _ rfl outer).1
    | normal => exact alike_normal h
    | returned hv => exact .intro h (.done (.returned hv))
    | failed e => exact .intro h (.done (.failed e))
  | @call _ caller marks' _ _ ho hfs =>
    have h : (m.leaveCall caller).Alike T x y M marks' st' frames frames' := ⟨hT, hst, ho, hfs⟩
    cases hs with
    | value hv => exact absurd rfl (hw _ rfl caller).2
    | normal => exact alike_value h (.same .nil nofun)
    | returned hv => exact alike_value h hv
    | failed e => exact .intro h (.done (.failed e))

/-- Step by step the two stay alike. -/
theorem Alike.step {Q : Layers → Name → NodeId → Prop} {c c' : Config} (h : Config.Alike T x y c c')
    (hc : c.Scoped Q) (hQ : ∀ ls name id, Q ls name id → Bound T ls name id) :
    Config.Alike T x y (c.step .byDistance) (c'.step .byDistance) := by
  obtain @⟨M, marks, control, control', frames, frames', m, st', h, hcontrol⟩ := h
  have hT := h.table
  have hresolves {line : Nat} {name : Name} {id : NodeId}
      (hl : Config.LooksUp ⟨control, frames, m⟩ line name id) : m.Resolves name id := fun d hd =>
    hc.holderAt?_of_looksUp (by rw [hT]; exact hQ) hl hd
  obtain ⟨W, hstore, hscoped⟩ := hc
  have hm := hstore.enclosing_globals
  cases hcontrol with
  | eval e =>
    refine alike_eval h hm ?_
    rintro line name id rfl
    exact hresolves (.reference ..)
  | exec hs => exact alike_exec h hs
  | execAll hs =>
    cases hs with
    | nil => exact alike_normal h
    | cons hs hss => exact .intro (h.push (.sequence hss)) (.exec hs)
  | program hs =>
    cases hs with
    | nil => exact alike_normal h
    | cons hs hss => exact .intro (h.push (.program hss)) (.exec hs)
  | call line hf hargs => exact alike_call line h hf hargs
  | @done s s' hs =>
    have hframes := h.frames
    cases frames with
    | nil => cases hframes; exact .intro h (.done hs)
    | cons f fs =>
      cases frames' with
      | nil => cases hframes
      | cons f' fs' =>
        refine alike_pop h hs hm ?_ ?_
        · rintro v line name id rfl rfl
          exact hresolves (.assign ..)
        · rintro v rfl scope
          obtain ⟨ls, -, -, hf⟩ := hscoped
          exact ⟨by rintro rfl; exact hf, by rintro rfl; exact hf⟩

end Config
end LoxLang
