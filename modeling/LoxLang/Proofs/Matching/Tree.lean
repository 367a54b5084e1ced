import LoxLang.Proofs.Machine.Outline
import LoxLang.Proofs.Parse.Grammar
import LoxLang.Proofs.Scoping.Layers

/-!
Trees that match: the same tree, with other lines and other ids. Which lines and which ids correspond is
left open, so that one notion serves trees read from other places of a source and at other times.
-/
namespace LoxLang

section Definitions
variable (L : Nat → Nat → Prop) (N : NodeId → NodeId → Prop)

mutual

inductive Expr.Matches : Expr → Expr → Prop where
  | literal {l l' : Nat} (value : Literal) :
    L l l' → Expr.Matches (.literal l value) (.literal l' value)
  | grouping {l l' : Nat} {e e' : Expr} :
    L l l' → Expr.Matches e e' → Expr.Matches (.grouping l e) (.grouping l' e')
  | unary {l l' : Nat} (op : UnaryOp) {e e' : Expr} :
    L l l' → Expr.Matches e e' → Expr.Matches (.unary l op e) (.unary l' op e')
  | binary {l l' : Nat} (op : BinaryOp) {left left' right right' : Expr} :
    L l l' → Expr.Matches left left' → Expr.Matches right right' →
      Expr.Matches (.binary l op left right) (.binary l' op left' right')
  | logical {l l' : Nat} (op : LogicalOp) {left left' right right' : Expr} :
    L l l' → Expr.Matches left left' → Expr.Matches right right' →
      Expr.Matches (.logical l op left right) (.logical l' op left' right')
  | reference {l l' : Nat} (name : Name) {id id' : NodeId} :
    L l l' → N id id' → Expr.Matches (.reference l name id) (.reference l' name id')
  | assign {l l' : Nat} (name : Name) {id id' : NodeId} {e e' : Expr} :
    L l l' → N id id' → Expr.Matches e e' → Expr.Matches (.assign l name id e) (.assign l' name id' e')
  | call {l l' : Nat} {callee callee' : Expr} {arguments arguments' : List Expr} :
    L l l' → Expr.Matches callee callee' → Expr.AllMatch arguments arguments' →
      Expr.Matches (.call l callee arguments) (.call l' callee' arguments')

inductive Expr.AllMatch : List Expr → List Expr → Prop where
  | nil : Expr.AllMatch [] []
  | cons {e e' : Expr} {es es' : List Expr} :
    Expr.Matches e e' → Expr.AllMatch es es' → Expr.AllMatch (e :: es) (e' :: es')

end

abbrev Expr.MatchIfAny : Option Expr → Option Expr → Prop := Option.Rel (Expr.Matches L N)

mutual

inductive Stmt.Matches : Stmt → Stmt → Prop where
  | expression {l l' : Nat} {e e' : Expr} :
    L l l' → e.Matches L N e' → Stmt.Matches (.expression l e) (.expression l' e')
  | print {l l' : Nat} {e e' : Expr} :
    L l l' → e.Matches L N e' → Stmt.Matches (.print l e) (.print l' e')
  | var {l l' : Nat} (name : Name) {initializer initializer' : Option Expr} :
    L l l' → Expr.MatchIfAny L N initializer initializer' →
      Stmt.Matches (.var l name initializer) (.var l' name initializer')
  | block {l l' : Nat} {body body' : List Stmt} :
    L l l' → Stmt.AllMatch body body' → Stmt.Matches (.block l body) (.block l' body')
  | ifThen {l l' : Nat} {condition condition' : Expr} {s s' : Stmt} :
    L l l' → condition.Matches L N condition' → Stmt.Matches s s' →
      Stmt.Matches (.branch l condition s none) (.branch l' condition' s' none)
  | ifElse {l l' : Nat} {condition condition' : Expr} {s s' t t' : Stmt} :
    L l l' → condition.Matches L N condition' → Stmt.Matches s s' → Stmt.Matches t t' →
      Stmt.Matches (.branch l condition s (some t)) (.branch l' condition' s' (some t'))
  | loop {l l' : Nat} {condition condition' : Expr} {body body' : Stmt} :
    L l l' → condition.Matches L N condition' → Stmt.Matches body body' →
      Stmt.Matches (.loop l condition body) (.loop l' condition' body')
  | function {l l' : Nat} (name : Name) (params : List Name) {body body' : List Stmt} :
    L l l' → Stmt.AllMatch body body' →
      Stmt.Matches (.function l name params body) (.function l' name params body')
  | result {l l' : Nat} {value value' : Option Expr} :
    L l l' → Expr.MatchIfAny L N value value' → Stmt.Matches (.result l value) (.result l' value')

inductive Stmt.AllMatch : List Stmt → List Stmt → Prop where
  | nil : Stmt.AllMatch [] []
  | cons {s s' : Stmt} {ss ss' : List Stmt} :
    Stmt.Matches s s' → Stmt.AllMatch ss ss' → Stmt.AllMatch (s :: ss) (s' :: ss')

end

end Definitions

section
variable {L : Nat → Nat → Prop} {N N' : NodeId → NodeId → Prop}

mutual

/-- More ids may correspond. -/
theorem Expr.Matches.imp (hN : ∀ id id', N id id' → N' id id') : {e e' : Expr} →
    e.Matches L N e' → e.Matches L N' e'
  | _, _, .literal value hl => .literal value hl
  | _, _, .grouping hl h => .grouping hl (h.imp hN)
  | _, _, .unary op hl h => .unary op hl (h.imp hN)
  | _, _, .binary op hl h h' => .binary op hl (h.imp hN) (h'.imp hN)
  | _, _, .logical op hl h h' => .logical op hl (h.imp hN) (h'.imp hN)
  | _, _, .reference name hl hid => .reference name hl (hN _ _ hid)
  | _, _, .assign name hl hid h => .assign name hl (hN _ _ hid) (h.imp hN)
  | _, _, .call hl h hs => .call hl (h.imp hN) (hs.imp hN)

theorem Expr.AllMatch.imp (hN : ∀ id id', N id id' → N' id id') : {es es' : List Expr} →
    Expr.AllMatch L N es es' → Expr.AllMatch L N' es es'
  | _, _, .nil => .nil
  | _, _, .cons h hs => .cons (h.imp hN) (hs.imp hN)

end

mutual

theorem Stmt.Matches.imp (hN : ∀ id id', N id id' → N' id id') : {s s' : Stmt} →
    s.Matches L N s' → s.Matches L N' s'
  | _, _, .expression hl h => .expression hl (h.imp hN)
  | _, _, .print hl h => .print hl (h.imp hN)
  | _, _, .var name hl h => .var name hl (rel_imp h fun _ _ he => he.imp hN)
  | _, _, .block hl h => .block hl (h.imp hN)
  | _, _, .ifThen hl hc h => .ifThen hl (hc.imp hN) (h.imp hN)
  | _, _, .ifElse hl hc h h' => .ifElse hl (hc.imp hN) (h.imp hN) (h'.imp hN)
  | _, _, .loop hl hc h => .loop hl (hc.imp hN) (h.imp hN)
  | _, _, .function name params hl h => .function name params hl (h.imp hN)
  | _, _, .result hl h => .result hl (rel_imp h fun _ _ he => he.imp hN)

theorem Stmt.AllMatch.imp (hN : ∀ id id', N id id' → N' id id') : {ss ss' : List Stmt} →
    Stmt.AllMatch L N ss ss' → Stmt.AllMatch L N' ss ss'
  | _, _, .nil => .nil
  | _, _, .cons h hs => .cons (h.imp hN) (hs.imp hN)

end

theorem Stmt.AllMatch.append {ss ss' ts ts' : List Stmt} (h : Stmt.AllMatch L N ss ss')
    (h' : Stmt.AllMatch L N ts ts') : Stmt.AllMatch L N (ss ++ ts) (ss' ++ ts') := by
  induction ss generalizing ss' with
  | nil => cases h; exact h'
  | cons s ss ih =>
    cases h with
    | cons hs hss => exact .cons hs (ih hss)

/-- What matches two lists in a row is a list for each. -/
theorem Stmt.AllMatch.of_append {ss ts us : List Stmt} (h : Stmt.AllMatch L N (ss ++ ts) us) :
    ∃ ss' ts', us = ss' ++ ts' ∧ Stmt.AllMatch L N ss ss' ∧ Stmt.AllMatch L N ts ts' := by
  induction ss generalizing us with
  | nil => exact ⟨[], us, rfl, .nil, h⟩
  | cons s ss ih =>
    cases h with
    | cons hs hss =>
      obtain ⟨ss', ts', rfl, hss, hts⟩ := ih hss
      exact ⟨_ :: ss', ts', rfl, .cons hs hss, hts⟩

mutual

theorem Expr.matches_self (hL : ∀ l, L l l) (hN : ∀ id, N id id) : (e : Expr) → e.Matches L N e
  | .literal l value => .literal value (hL l)
  | .grouping l e => .grouping (hL l) (e.matches_self hL hN)
  | .unary l op e => .unary op (hL l) (e.matches_self hL hN)
  | .binary l op left right =>
    .binary op (hL l) (left.matches_self hL hN) (right.matches_self hL hN)
  | .logical l op left right =>
    .logical op (hL l) (left.matches_self hL hN) (right.matches_self hL hN)
  | .reference l name id => .reference name (hL l) (hN id)
  | .assign l name id e => .assign name (hL l) (hN id) (e.matches_self hL hN)
  | .call l callee arguments =>
    .call (hL l) (callee.matches_self hL hN) (Expr.allMatch_self hL hN arguments)

theorem Expr.allMatch_self (hL : ∀ l, L l l) (hN : ∀ id, N id id) : (es : List Expr) →
    Expr.AllMatch L N es es
  | [] => .nil
  | e :: es => .cons (e.matches_self hL hN) (Expr.allMatch_self hL hN es)

end

theorem Expr.matchIfAny_self (hL : ∀ l, L l l) (hN : ∀ id, N id id) (e? : Option Expr) :
    Expr.MatchIfAny L N e? e? := by
  cases e? with
  | none => exact .none
  | some e => exact .some (e.matches_self hL hN)

mutual

theorem Stmt.matches_self (hL : ∀ l, L l l) (hN : ∀ id, N id id) : (s : Stmt) → s.Matches L N s
  | .expression l e => .expression (hL l) (e.matches_self hL hN)
  | .print l e => .print (hL l) (e.matches_self hL hN)
  | .var l name initializer => .var name (hL l) (Expr.matchIfAny_self hL hN initializer)
  | .block l body => .block (hL l) (Stmt.allMatch_self hL hN body)
  | .branch l condition s none =>
    .ifThen (hL l) (condition.matches_self hL hN) (s.matches_self hL hN)
  | .branch l condition s (some t) =>
    .ifElse (hL l) (condition.matches_self hL hN) (s.matches_self hL hN) (t.matches_self hL hN)
  | .loop l condition body =>
    .loop (hL l) (condition.matches_self hL hN) (body.matches_self hL hN)
  | .function l name params body => .function name params (hL l) (Stmt.allMatch_self hL hN body)
  | .result l value => .result (hL l) (Expr.matchIfAny_self hL hN value)

theorem Stmt.allMatch_self (hL : ∀ l, L l l) (hN : ∀ id, N id id) : (ss : List Stmt) →
    Stmt.AllMatch L N ss ss
  | [] => .nil
  | s :: ss => .cons (s.matches_self hL hN) (Stmt.allMatch_self hL hN ss)

end

mutual

/-- With the same lines and ids it is the same tree. -/
theorem Expr.Matches.eq : {e e' : Expr} → e.Matches (· = ·) (· = ·) e' → e = e'
  | _, _, .literal _ rfl => rfl
  | _, _, .grouping rfl h => by rw [h.eq]
  | _, _, .unary _ rfl h => by rw [h.eq]
  | _, _, .binary _ rfl h h' => by rw [h.eq, h'.eq]
  | _, _, .logical _ rfl h h' => by rw [h.eq, h'.eq]
  | _, _, .reference _ rfl rfl => rfl
  | _, _, .assign _ rfl rfl h => by rw [h.eq]
  | _, _, .call rfl h hs => by rw [h.eq, hs.eq]

theorem Expr.AllMatch.eq : {es es' : List Expr} → Expr.AllMatch (· = ·) (· = ·) es es' → es = es'
  | _, _, .nil => rfl
  | _, _, .cons h hs => by rw [h.eq, hs.eq]

end

theorem Expr.MatchIfAny.eq {e? e?' : Option Expr} (h : Expr.MatchIfAny (· = ·) (· = ·) e? e?') :
    e? = e?' := by
  cases h with
  | none => rfl
  | some h => rw [h.eq]

mutual

theorem Stmt.Matches.eq : {s s' : Stmt} → s.Matches (· = ·) (· = ·) s' → s = s'
  | _, _, .expression rfl h => by rw [h.eq]
  | _, _, .print rfl h => by rw [h.eq]
  | _, _, .var _ rfl h => by rw [Expr.MatchIfAny.eq h]
  | _, _, .block rfl h => by rw [h.eq]
  | _, _, .ifThen rfl hc h => by rw [hc.eq, h.eq]
  | _, _, .ifElse rfl hc h h' => by rw [hc.eq, h.eq, h'.eq]
  | _, _, .loop rfl hc h => by rw [hc.eq, h.eq]
  | _, _, .function _ _ rfl h => by rw [h.eq]
  | _, _, .result rfl h => by rw [Expr.MatchIfAny.eq h]

theorem Stmt.AllMatch.eq : {ss ss' : List Stmt} → Stmt.AllMatch (· = ·) (· = ·) ss ss' → ss = ss'
  | _, _, .nil => rfl
  | _, _, .cons h hs => by rw [h.eq, hs.eq]

end

theorem Expr.Matches.line {e e' : Expr} (h : e.Matches L N e') : L e.line e'.line := by
  cases h <;> assumption

theorem Stmt.Matches.branch {l l' : Nat} {condition condition' : Expr} {s s' : Stmt}
    {t? t?' : Option Stmt} (hl : L l l') (hc : condition.Matches L N condition')
    (hs : s.Matches L N s') (ht : Option.Rel (Stmt.Matches L N) t? t?') :
    Stmt.Matches L N (.branch l condition s t?) (.branch l' condition' s' t?') := by
  cases ht with
  | none => exact .ifThen hl hc hs
  | some ht => exact .ifElse hl hc hs ht

theorem Stmt.Matches.declares? {s s' : Stmt} (h : s.Matches L N s') :
    s'.declares? = s.declares? := by
  cases h <;> rfl

theorem Stmt.AllMatch.declaredNames {ss ss' : List Stmt} (h : Stmt.AllMatch L N ss ss') :
    Stmt.declaredNames ss' = Stmt.declaredNames ss := by
  induction ss generalizing ss' with
  | nil => cases h; rfl
  | cons s ss ih =>
    cases h with
    | cons hs hss =>
      have hrest := ih hss
      unfold Stmt.declaredNames at hrest ⊢
      rw [List.filterMap_cons, List.filterMap_cons, hs.declares?, hrest]

section Scoped
variable {Q Q' : Layers → Name → NodeId → Prop}

mutual

/-- What nodes satisfy in the layers around them may tell that their ids correspond. -/
theorem Expr.Matches.scoped
    (hN : ∀ ls name id id', N id id' → Q ls name id → Q' ls name id' → N' id id') {ls : Layers} :
    {e e' : Expr} → e.Matches L N e' → e.Scoped Q ls → e'.Scoped Q' ls → e.Matches L N' e'
  | _, _, .literal value hl, _, _ => .literal value hl
  | _, _, .grouping hl h, hs, hs' => .grouping hl (h.scoped hN hs hs')
  | _, _, .unary op hl h, hs, hs' => .unary op hl (h.scoped hN hs hs')
  | _, _, .binary op hl h h', hs, hs' =>
    .binary op hl (h.scoped hN hs.1 hs'.1) (h'.scoped hN hs.2 hs'.2)
  | _, _, .logical op hl h h', hs, hs' =>
    .logical op hl (h.scoped hN hs.1 hs'.1) (h'.scoped hN hs.2 hs'.2)
  | _, _, .reference name hl hid, hs, hs' => .reference name hl (hN _ _ _ _ hid hs hs')
  | _, _, .assign name hl hid h, hs, hs' =>
    .assign name hl (hN _ _ _ _ hid hs.2 hs'.2) (h.scoped hN hs.1 hs'.1)
  | _, _, .call hl h ha, hs, hs' => .call hl (h.scoped hN hs.1 hs'.1) (ha.scoped hN hs.2 hs'.2)

theorem Expr.AllMatch.scoped
    (hN : ∀ ls name id id', N id id' → Q ls name id → Q' ls name id' → N' id id') {ls : Layers} :
    {es es' : List Expr} → Expr.AllMatch L N es es' → Expr.AllScoped Q ls es →
      Expr.AllScoped Q' ls es' → Expr.AllMatch L N' es es'
  | _, _, .nil, _, _ => .nil
  | _, _, .cons h ha, hs, hs' => .cons (h.scoped hN hs.1 hs'.1) (ha.scoped hN hs.2 hs'.2)

end

theorem Expr.MatchIfAny.scoped
    (hN : ∀ ls name id id', N id id' → Q ls name id → Q' ls name id' → N' id id') {ls : Layers}
    {e? e?' : Option Expr} (h : Expr.MatchIfAny L N e? e?') (hs : ∀ e ∈ e?, e.Scoped Q ls)
    (hs' : ∀ e ∈ e?', e.Scoped Q' ls) : Expr.MatchIfAny L N' e? e?' := by
  cases h with
  | none => exact .none
  | some h => exact .some (h.scoped hN (hs _ rfl) (hs' _ rfl))

mutual

theorem Stmt.Matches.scoped
    (hN : ∀ ls name id id', N id id' → Q ls name id → Q' ls name id' → N' id id') {ls : Layers} :
    {s s' : Stmt} → s.Matches L N s' → s.Scoped Q ls → s'.Scoped Q' ls → s.Matches L N' s'
  | _, _, .expression hl h, hs, hs' => .expression hl (h.scoped hN hs hs')
  | _, _, .print hl h, hs, hs' => .print hl (h.scoped hN hs hs')
  | _, _, .var name hl h, hs, hs' => .var name hl (Expr.MatchIfAny.scoped hN h hs.2 hs'.2)
  | _, _, .block hl h, hs, hs' => by
    rw [Stmt.Scoped, Layer.ofBlock, h.declaredNames] at hs'
    exact .block hl (h.scoped hN hs hs')
  | _, _, .ifThen hl hc h, hs, hs' =>
    .ifThen hl (hc.scoped hN hs.1 hs'.1) (h.scoped hN hs.2.2 hs'.2.2)
  | _, _, .ifElse hl hc h h', hs, hs' =>
    .ifElse hl (hc.scoped hN hs.1 hs'.1) (h.scoped hN hs.2.1.2 hs'.2.1.2)
      (h'.scoped hN hs.2.2.2 hs'.2.2.2)
  | _, _, .loop hl hc h, hs, hs' =>
    .loop hl (hc.scoped hN hs.1 hs'.1) (h.scoped hN hs.2.2 hs'.2.2)
  | _, _, .function name params hl h, hs, hs' => by
    rw [Stmt.Scoped, Layer.ofFunction, h.declaredNames] at hs'
    exact .function name params hl (h.scoped hN hs.2.2 hs'.2.2)
  | _, _, .result hl h, hs, hs' => .result hl (Expr.MatchIfAny.scoped hN h hs hs')

theorem Stmt.AllMatch.scoped
    (hN : ∀ ls name id id', N id id' → Q ls name id → Q' ls name id' → N' id id') {ls : Layers} :
    {ss ss' : List Stmt} → Stmt.AllMatch L N ss ss' → Stmt.AllScoped Q ls ss →
      Stmt.AllScoped Q' ls ss' → Stmt.AllMatch L N' ss ss'
  | _, _, .nil, _, _ => .nil
  | _, _, .cons h hss, hs, hs' => by
    rw [Stmt.AllScoped, Layers.after, h.declares?] at hs'
    exact .cons (h.scoped hN hs.1 hs'.1) (hss.scoped hN hs.2 hs'.2)

end

end Scoped

section Bare

mutual

theorem Expr.Matches.bare : {e e' : Expr} → e.Matches L N e' → e'.bare = e.bare
  | _, _, .literal _ _ | _, _, .reference _ _ _ => rfl
  | _, _, .grouping _ h => congrArg (Expr.grouping 0) h.bare
  | _, _, .unary op _ h => congrArg (Expr.unary 0 op) h.bare
  | _, _, .binary op _ h h' => congrArg₂ (Expr.binary 0 op) h.bare h'.bare
  | _, _, .logical op _ h h' => congrArg₂ (Expr.logical 0 op) h.bare h'.bare
  | _, _, .assign name _ _ h => congrArg (Expr.assign 0 name 0) h.bare
  | _, _, .call _ h ha => congrArg₂ (Expr.call 0) h.bare ha.allBare

theorem Expr.AllMatch.allBare : {es es' : List Expr} → Expr.AllMatch L N es es' →
    Expr.allBare es' = Expr.allBare es
  | _, _, .nil => rfl
  | _, _, .cons h hs => congrArg₂ List.cons h.bare hs.allBare

end

theorem Expr.MatchIfAny.bare {e? e?' : Option Expr} (h : Expr.MatchIfAny L N e? e?') :
    e?'.map Expr.bare = e?.map Expr.bare := by
  cases h with
  | none => rfl
  | some h => exact congrArg some h.bare

mutual

theorem Stmt.Matches.bare : {s s' : Stmt} → s.Matches L N s' → s'.bare = s.bare
  | _, _, .expression _ h => congrArg (Stmt.expression 0) h.bare
  | _, _, .print _ h => congrArg (Stmt.print 0) h.bare
  | _, _, .var name _ h => congrArg (Stmt.var 0 name) (Expr.MatchIfAny.bare h)
  | _, _, .block _ h => congrArg (Stmt.block 0) h.allBare
  | _, _, .ifThen _ hc h => congrArg₂ (Stmt.branch 0 · · none) hc.bare h.bare
  | _, _, .ifElse _ hc h h' => by rw [Stmt.bare, hc.bare, h.bare, h'.bare, Stmt.bare]
  | _, _, .loop _ hc h => congrArg₂ (Stmt.loop 0) hc.bare h.bare
  | _, _, .function name params _ h => congrArg (Stmt.function 0 name params) h.allBare
  | _, _, .result _ h => congrArg (Stmt.result 0) (Expr.MatchIfAny.bare h)

theorem Stmt.AllMatch.allBare : {ss ss' : List Stmt} → Stmt.AllMatch L N ss ss' →
    Stmt.allBare ss' = Stmt.allBare ss
  | _, _, .nil => rfl
  | _, _, .cons h hs => congrArg₂ List.cons h.bare hs.allBare

end

def whatever {α : Type} (_ _ : α) : Prop := True

mutual

/-- Trees that are equal without their lines and ids match. -/
theorem Expr.matches_of_bare : (e e' : Expr) → e'.bare = e.bare → e.Matches whatever whatever e'
  | .literal l value, e', h => by
    cases e' with
    | literal => cases h; exact .literal value trivial
    | _ => cases h
  | .grouping l e, e', h => by
    cases e' with
    | grouping => injection h with _ h; exact .grouping trivial (e.matches_of_bare _ h)
    | _ => cases h
  | .unary l op e, e', h => by
    cases e' with
    | unary => injection h with _ hop h; cases hop; exact .unary op trivial (e.matches_of_bare _ h)
    | _ => cases h
  | .binary l op left right, e', h => by
    cases e' with
    | binary =>
      injection h with _ hop h h'
      cases hop
      exact .binary op trivial (left.matches_of_bare _ h) (right.matches_of_bare _ h')
    | _ => cases h
  | .logical l op left right, e', h => by
    cases e' with
    | logical =>
      injection h with _ hop h h'
      cases hop
      exact .logical op trivial (left.matches_of_bare _ h) (right.matches_of_bare _ h')
    | _ => cases h
  | .reference l name id, e', h => by
    cases e' with
    | reference => cases h; exact .reference name trivial trivial
    | _ => cases h
  | .assign l name id e, e', h => by
    cases e' with
    | assign =>
      injection h with _ hname _ h
      cases hname
      exact .assign name trivial trivial (e.matches_of_bare _ h)
    | _ => cases h
  | .call l callee arguments, e', h => by
    cases e' with
    | call =>
      injection h with _ h ha
      exact .call trivial (callee.matches_of_bare _ h) (Expr.allMatch_of_allBare arguments _ ha)
    | _ => cases h

theorem Expr.allMatch_of_allBare : (es es' : List Expr) → Expr.allBare es' = Expr.allBare es →
    Expr.AllMatch whatever whatever es es'
  | [], es', h => by
    cases es' with
    | nil => exact .nil
    | cons => cases h
  | e :: es, es', h => by
    cases es' with
    | nil => cases h
    | cons =>
      injection h with h hs
      exact .cons (e.matches_of_bare _ h) (Expr.allMatch_of_allBare es _ hs)

end

theorem Expr.matchIfAny_of_bare {e? e?' : Option Expr} (h : e?'.map Expr.bare = e?.map Expr.bare) :
    Expr.MatchIfAny whatever whatever e? e?' := by
  cases e? with
  | none => rw [Option.map_eq_none_iff.mp h]; exact .none
  | some e =>
    obtain ⟨e', rfl, he⟩ := Option.map_eq_some_iff.mp h
    exact .some (e.matches_of_bare e' he)

mutual

theorem Stmt.matches_of_bare : (s s' : Stmt) → s'.bare = s.bare → s.Matches whatever whatever s'
  | .expression l e, s', h => by
    cases s' with
    | expression => injection h with _ h; exact .expression trivial (e.matches_of_bare _ h)
    | branch _ _ _ t? => cases t? <;> cases h
    | _ => cases h
  | .print l e, s', h => by
    cases s' with
    | print => injection h with _ h; exact .print trivial (e.matches_of_bare _ h)
    | branch _ _ _ t? => cases t? <;> cases h
    | _ => cases h
  | .var l name initializer, s', h => by
    cases s' with
    | var =>
      injection h with _ hname h
      cases hname
      exact .var name trivial (Expr.matchIfAny_of_bare h)
    | branch _ _ _ t? => cases t? <;> cases h
    | _ => cases h
  | .block l body, s', h => by
    cases s' with
    | block => injection h with _ h; exact .block trivial (Stmt.allMatch_of_allBare body _ h)
    | branch _ _ _ t? => cases t? <;> cases h
    | _ => cases h
  | .branch l condition s none, s', h => by
    cases s' with
    | branch _ _ _ t? =>
      cases t? with
      | none =>
        injection h with _ hc h
        exact .ifThen trivial (condition.matches_of_bare _ hc) (s.matches_of_bare _ h)
      | some => injection h with _ _ _ h; cases h
    | _ => cases h
  | .branch l condition s (some t), s', h => by
    cases s' with
    | branch _ _ _ t? =>
      cases t? with
      | none => injection h with _ _ _ h; cases h
      | some =>
        injection h with _ hc h h'
        injection h' with h'
        exact .ifElse trivial (condition.matches_of_bare _ hc) (s.matches_of_bare _ h)
          (t.matches_of_bare _ h')
    | _ => cases h
  | .loop l condition body, s', h => by
    cases s' with
    | loop =>
      injection h with _ hc h
      exact .loop trivial (condition.matches_of_bare _ hc) (body.matches_of_bare _ h)
    | branch _ _ _ t? => cases t? <;> cases h
    | _ => cases h
  | .function l name params body, s', h => by
    cases s' with
    | function =>
      injection h with _ hname hparams h
      cases hname
      cases hparams
      exact .function name params trivial (Stmt.allMatch_of_allBare body _ h)
    | branch _ _ _ t? => cases t? <;> cases h
    | _ => cases h
  | .result l value, s', h => by
    cases s' with
    | result => injection h with _ h; exact .result trivial (Expr.matchIfAny_of_bare h)
    | branch _ _ _ t? => cases t? <;> cases h
    | _ => cases h

theorem Stmt.allMatch_of_allBare : (ss ss' : List Stmt) → Stmt.allBare ss' = Stmt.allBare ss →
    Stmt.AllMatch whatever whatever ss ss'
  | [], ss', h => by
    cases ss' with
    | nil => exact .nil
    | cons => cases h
  | s :: ss, ss', h => by
    cases ss' with
    | nil => cases h
    | cons =>
      injection h with h hs
      exact .cons (s.matches_of_bare _ h) (Stmt.allMatch_of_allBare ss _ hs)

end

end Bare
end
end LoxLang
