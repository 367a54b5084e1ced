import LoxLang.Proofs.Machine.Run
import LoxLang.Proofs.Matching.Machine

/-!
Configurations that match step to such configurations, until the first program is at its end and the
second one goes on.
-/
namespace LoxLang

variable {L : Nat → Nat → Prop} {N : NodeId → NodeId → Prop} {rest : List Stmt} {m : Machine}
  {st' : Store} {T' : Distances} {frames frames' : List Frame}

namespace Config

theorem matches_ofExcept {l l' : Nat} {r : Except Mishap Value} (hl : L l l')
    (h : m.Matches L N st' T') (hf : List.Forall₂ (Frame.Matches L N rest) frames frames')
    (hr : ∀ v, r = .ok v → ∀ f, v ≠ .function f) :
    Config.Matches L N rest (ofExcept l r frames m) (ofExcept l' r frames' (m.beside st' T')) := by
  cases r with
  | ok v => exact .intro h hf (.done (.value (.same v (hr v rfl))))
  | error cause => exact .intro h hf (.done (.failed cause hl))

theorem matches_eval {e e' : Expr} (h : m.Matches L N st' T')
    (hf : List.Forall₂ (Frame.Matches L N rest) frames frames') (he : e.Matches L N e') :
    Config.Matches L N rest (eval .byDistance e frames m)
      (eval .byDistance e' frames' (m.beside st' T')) := by
  cases he with
  | literal value hl =>
    exact .intro h hf (.done (.value (Value.matches_ofLiteral value)))
  | grouping hl he => exact .intro h hf (.eval he)
  | unary op hl he => exact .intro h (.cons (.unary op hl) hf) (.eval he)
  | binary op hl he he' => exact .intro h (.cons (.left op hl he') hf) (.eval he)
  | logical op hl he he' => exact .intro h (.cons (.logical op he') hf) (.eval he)
  | assign name hl hid he => exact .intro h (.cons (.assign name hl hid) hf) (.eval he)
  | call hl he ha => exact .intro h (.cons (.callee hl ha) hf) (.eval he)
  | @reference l l' name id id' hl hid =>
    have hread : Option.Rel (Value.Matches L N)
        ((Locator.byDistance m name id).bind (m.store.read? · name))
        ((Locator.byDistance m name id).bind (st'.read? · name)) := by
      cases Locator.byDistance m name id with
      | none => exact .none
      | some a => exact h.store.read a name
    simp only [eval, h.byDistance hid, Machine.beside_store]
    generalize (Locator.byDistance m name id).bind (m.store.read? · name) = v? at hread
    generalize (Locator.byDistance m name id).bind (st'.read? · name) = v?' at hread
    cases hread with
    | none => exact .intro h hf (.done (.failed _ hl))
    | some hv => exact .intro h hf (.done (.value hv))

theorem matches_exec {s s' : Stmt} (h : m.Matches L N st' T')
    (hf : List.Forall₂ (Frame.Matches L N rest) frames frames') (hs : s.Matches L N s') :
    Config.Matches L N rest (exec s frames m) (exec s' frames' (m.beside st' T')) := by
  cases hs with
  | expression hl he => exact .intro h (.cons .discard hf) (.eval he)
  | print hl he => exact .intro h (.cons (.print hl) hf) (.eval he)
  | var name hl he =>
    cases he with
    | none => exact .intro (h.define m.current name Value.matches_nil) hf (.done .normal)
    | some he => exact .intro h (.cons (.var name) hf) (.eval he)
  | block hl hb =>
    unfold exec
    rw [h.openScope_beside]
    exact .intro (h.openScope m.current) (.cons (.block m.current) hf) (.execAll hb)
  | ifThen hl hc hs => exact .intro h (.cons (.branch hs .none) hf) (.eval hc)
  | ifElse hl hc hs ht => exact .intro h (.cons (.branch hs (.some ht)) hf) (.eval hc)
  | loop hl hc hb => exact .intro h (.cons (.test hc hb) hf) (.eval hc)
  | function name params hl hb =>
    have hd := h.define m.current name (.function m.functions name params m.current hb)
    exact .intro ⟨hd.store, hd.table⟩ hf (.done .normal)
  | result hl he =>
    cases he with
    | none => exact .intro h hf (.done (.returned Value.matches_nil))
    | some he => exact .intro h (.cons .result hf) (.eval he)

theorem matches_call {l l' : Nat} {f f' : Function} {args args' : List Value} (hl : L l l')
    (h : m.Matches L N st' T') (hf : List.Forall₂ (Frame.Matches L N rest) frames frames')
    (hv : Value.Matches L N (.function f) (.function f'))
    (hargs : List.Forall₂ (Value.Matches L N) args args') :
    Config.Matches L N rest (call f args l frames m) (call f' args' l' frames' (m.beside st' T')) := by
  unfold call
  change Config.Matches L N rest _ (if m.mayCall then _ else _)
  split
  · cases hv with
    | same _ hne => exact absurd rfl (hne f)
    | function identity name params closure hb =>
      obtain ⟨st₂, henter, hm⟩ := h.enterCall ⟨identity, name, params, _, closure⟩
        ⟨identity, name, params, _, closure⟩ rfl rfl hargs
      rw [henter]
      exact .intro hm (.cons (.call m.current) hf) (.execAll hb)
  · exact .intro h hf (.done (.failed _ hl))

theorem matches_apply {l l' : Nat} {callee callee' : Value} {args args' : List Value} (hl : L l l')
    (h : m.Matches L N st' T') (hf : List.Forall₂ (Frame.Matches L N rest) frames frames')
    (hc : callee.Matches L N callee') (hargs : List.Forall₂ (Value.Matches L N) args args') :
    Config.Matches L N rest (apply callee args l frames m)
      (apply callee' args' l' frames' (m.beside st' T')) := by
  have hlen : args'.length = args.length := hargs.length_eq.symm
  have hv := hc
  cases hc with
  | same v hne =>
    cases callee with
    | function f => exact absurd rfl (hne f)
    | _ => exact .intro h hf (.done (.failed _ hl))
  | @function identity name params body body' closure hb =>
    have harity : Function.arity ⟨identity, name, params, body', closure⟩ =
        Function.arity ⟨identity, name, params, body, closure⟩ := rfl
    simp only [apply, hlen, harity]
    split
    · exact .intro h hf (.call hl hv hargs)
    · exact .intro h hf (.done (.failed _ hl))

theorem matches_arguments {l l' : Nat} {callee callee' : Value} {args args' : List Value}
    {es es' : List Expr} (hl : L l l') (h : m.Matches L N st' T')
    (hf : List.Forall₂ (Frame.Matches L N rest) frames frames') (hc : callee.Matches L N callee')
    (hargs : List.Forall₂ (Value.Matches L N) args args') (hes : Expr.AllMatch L N es es') :
    Config.Matches L N rest (arguments l callee args es frames m)
      (arguments l' callee' args' es' frames' (m.beside st' T')) := by
  cases hes with
  | nil => exact matches_apply hl h hf hc (List.rel_reverse hargs)
  | cons he hes => exact .intro h (.cons (.argument hl hc hargs hes) hf) (.eval he)

theorem matches_print {l l' : Nat} {v v' : Value} (hl : L l l') (h : m.Matches L N st' T')
    (hf : List.Forall₂ (Frame.Matches L N rest) frames frames') (hv : v.Matches L N v') :
    Config.Matches L N rest (print l v frames m) (print l' v' frames' (m.beside st' T')) := by
  have hw (o : Output) : Machine.Matches L N { m with output := o } st' T' := ⟨h.store, h.table⟩
  unfold print
  rw [Value.text_of_outline hv.outline]
  change Config.Matches L N rest _ (if m.output.fits (v.text ++ "\n") then _ else _)
  dsimp only
  split
  · exact .intro (hw _) hf (.done .normal)
  · exact .intro (hw _) hf (.done (.failed _ hl))

/-- A value reaches frames that match. -/
theorem matches_resume {v v' : Value} {f f' : Frame} (h : m.Matches L N st' T')
    (hfs : List.Forall₂ (Frame.Matches L N rest) frames frames') (hv : v.Matches L N v')
    (hf : f.Matches L N rest f') :
    Config.Matches L N rest (resume .byDistance v f frames m)
      (resume .byDistance v' f' frames' (m.beside st' T')) := by
  cases hf with
  | unary op hl =>
    simp only [resume, op.apply_of_outline hv.outline]
    exact matches_ofExcept hl h hfs fun w hw => UnaryOp.apply_ne_function hw
  | left op hl he => exact .intro h (.cons (.right op hl hv) hfs) (.eval he)
  | right op hl hw =>
    simp only [resume, op.apply_of_outline hw.outline hv.outline]
    exact matches_ofExcept hl h hfs fun w hw => BinaryOp.apply_ne_function hw
  | logical op he =>
    simp only [resume, op.stopsAt_of_outline hv.outline]
    split
    · exact .intro h hfs (.done (.value hv))
    · exact .intro h hfs (.eval he)
  | assign name hl hid =>
    simp only [resume, h.byDistance hid]
    split
    · next a _ => exact .intro (h.define a name hv) hfs (.done (.value hv))
    · exact .intro h hfs (.done (.failed _ hl))
  | callee hl ha => exact matches_arguments hl h hfs hv .nil ha
  | argument hl hc hvs hes => exact matches_arguments hl h hfs hc (.cons hv hvs) hes
  | print hl => exact matches_print hl h hfs hv
  | var name => exact .intro (h.define m.current name hv) hfs (.done .normal)
  | result => exact .intro h hfs (.done (.returned hv))
  | branch hs ht =>
    simp only [resume, Value.truthy_of_outline hv.outline]
    split
    · exact .intro h hfs (.exec hs)
    · cases ht with
      | some ht => exact .intro h hfs (.exec ht)
      | none => exact .intro h hfs (.done .normal)
  | test hc hb =>
    simp only [resume, Value.truthy_of_outline hv.outline]
    split
    · exact .intro h (.cons (.again hc hb) hfs) (.exec hb)
    · exact .intro h hfs (.done .normal)
  | _ => exact .intro h hfs (.done .normal)

/-- A signal reaches frames that match. -/
theorem matches_pop {s s' : Signal} {f f' : Frame} (h : m.Matches L N st' T')
    (hfs : List.Forall₂ (Frame.Matches L N rest) frames frames') (hs : s.Matches L N s')
    (hf : f.Matches L N rest f') :
    Config.Matches L N rest (pop .byDistance s f frames m)
      (pop .byDistance s' f' frames' (m.beside st' T')) := by
  have hback (scope : ScopeId) : Machine.Matches L N { m with current := scope } st' T' :=
    ⟨h.store, h.table⟩
  have hleave (scope : ScopeId) : (m.leaveCall scope).Matches L N st' T' := ⟨h.store, h.table⟩
  cases hs with
  | value hv => exact matches_resume h hfs hv hf
  | normal =>
    cases hf with
    | again hc hb => exact .intro h (.cons (.test hc hb) hfs) (.eval hc)
    | sequence hs => exact .intro h hfs (.execAll hs)
    | program hs => exact .intro h hfs (.program hs)
    | block outer => exact .intro (hback outer) hfs (.done .normal)
    | call caller => exact .intro (hleave caller) hfs (.done (.value Value.matches_nil))
    | _ => exact .intro h hfs (.done .normal)
  | returned hv =>
    cases hf with
    | program hs => exact .intro h hfs (.program hs)
    | block outer => exact .intro (hback outer) hfs (.done (.returned hv))
    | call caller => exact .intro (hleave caller) hfs (.done (.value hv))
    | _ => exact .intro h hfs (.done (.returned hv))
  | failed cause hl =>
    cases hf with
    | block outer => exact .intro (hback outer) hfs (.done (.failed cause hl))
    | call caller => exact .intro (hleave caller) hfs (.done (.failed cause hl))
    | _ => exact .intro h hfs (.done (.failed cause hl))

/-- Step by step the two match, as long as the first program is not at its end. -/
theorem Matches.step {c c' : Config} (h : Config.Matches L N rest c c')
    (hrest : c.control = .program [] → rest = []) :
    Config.Matches L N rest (c.step .byDistance) (c'.step .byDistance) := by
  obtain ⟨h, hfs, hcontrol⟩ := h
  cases hcontrol with
  | eval he => exact matches_eval h hfs he
  | exec hs => exact matches_exec h hfs hs
  | execAll hs =>
    cases hs with
    | nil => exact .intro h hfs (.done .normal)
    | cons hs hss => exact .intro h (.cons (.sequence hss) hfs) (.exec hs)
  | program hs =>
    cases hs with
    | nil => obtain rfl := hrest rfl; exact .intro h hfs (.done .normal)
    | cons hs hss => exact .intro h (.cons (.program hss) hfs) (.exec hs)
  | call hl hf hargs => exact matches_call hl h hfs hf hargs
  | done hs =>
    cases hfs with
    | nil => exact .intro h .nil (.done hs)
    | cons hf hfs => exact matches_pop h hfs hs hf

theorem Matches.iterate {c c' : Config} (h : Config.Matches L N rest c c') {n : Nat}
    (hrest : ∀ k < n, ((Config.step .byDistance)^[k] c).control = .program [] → rest = []) :
    Config.Matches L N rest ((Config.step .byDistance)^[n] c) ((Config.step .byDistance)^[n] c') := by
  induction n generalizing c c' with
  | zero => exact h
  | succ n ih =>
    exact ih (h.step (hrest 0 (Nat.succ_pos n))) fun k hk => hrest (k + 1) (Nat.succ_lt_succ hk)

def EndMatches (L : Nat → Nat → Prop) (N : NodeId → NodeId → Prop) (r r' : Signal × Machine) : Prop :=
  r.1.Matches L N r'.1 ∧ ∃ st' T', r'.2 = r.2.beside st' T' ∧ r.2.Matches L N st' T'

/-- Configurations that match end in the same number of steps, if at all. -/
theorem Matches.runFor {c c' : Config} (h : Config.Matches L N [] c c') (n : Nat) :
    Option.Rel (EndMatches L N) (c.runFor .byDistance n) (c'.runFor .byDistance n) := by
  induction n generalizing c c' with
  | zero =>
    obtain ⟨h, hfs, hcontrol⟩ := h
    cases hcontrol with
    | done hs =>
      cases hfs with
      | nil => exact .some ⟨hs, _, _, rfl, h⟩
      | cons => exact .none
    | _ => exact .none
  | succ n ih =>
    rw [runFor_step, runFor_step]
    exact ih (h.step fun _ => rfl)

end Config
end LoxLang
