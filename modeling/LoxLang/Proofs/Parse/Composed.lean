import LoxLang.Proofs.Parse.Numbering

/-!
Every parser is composed of a few steps, so that what holds of the steps and of their sequence holds of all
of them.
-/
namespace LoxLang

def Kind.endsExpression : Kind → Bool
  | .semicolon | .rightBrace => true
  | k => k.startsStatement

namespace Parser

/-- Composed of steps that treat a token of a kind in `ends` as they treat the end. -/
inductive Composed (ends : Kind → Bool) : {α : Type} → Parser α → Prop where
  | outOfFuel {α : Type} : Composed ends (outOfFuel : Parser α)
  | pure {α : Type} (a : α) : Composed ends (Pure.pure a : Parser α)
  | fail {α : Type} (cause : Cause) : Composed ends (fail cause : Parser α)
  | bind {α β : Type} {p : Parser α} {f : α → Parser β} :
    Composed ends p → (∀ a, Composed ends (f a)) → Composed ends (p >>= f)
  | take? {α : Type} {f : Token → Option α} :
    (∀ t, ends t.kind → f t = none) → Composed ends (take? f)
  | nextIs {kind : Kind} : ends kind = false → Composed ends (nextIs kind)
  | report (d : Diagnostic) : Composed ends (report d)
  | limitCount (count : Nat) (cause : Cause) : Composed ends (limitCount count cause)
  | freshId : Composed ends freshId
  | atEnd : (∀ k, ends k = false) → Composed ends atEnd
  | recovering {α : Type} {p : Parser α} :
    (∀ k, ends k = false) → Composed ends p → Composed ends (recovering p)

namespace Composed

variable {α β : Type} {ends : Kind → Bool} {p : Parser α}

theorem map (hp : Composed ends p) (f : α → β) : Composed ends (f <$> p) := hp.bind fun _ => .pure _

theorem accept? {kind : Kind} (h : ends kind = false) : Composed ends (accept? kind) :=
  .take? fun t ht => if_neg fun hk => by rw [hk, h] at ht; cases ht

theorem expect {kind : Kind} (h : ends kind = false) (what : Expectation) :
    Composed ends (expect kind what) :=
  (Composed.accept? h).bind fun
    | some t => .pure t
    | none => .fail _

/-- With fewer such kinds there is less to treat alike. -/
theorem mono {ends' : Kind → Bool} (h : Composed ends p) (hle : ∀ k, ends' k → ends k) :
    Composed ends' p := by
  have hfalse {k : Kind} (hk : ends k = false) : ends' k = false :=
    Bool.eq_false_iff.mpr fun hk' => by rw [hle k hk'] at hk; cases hk
  induction h with
  | outOfFuel => exact .outOfFuel
  | pure a => exact .pure a
  | fail cause => exact .fail cause
  | bind _ _ hp hf => exact .bind hp hf
  | take? hf => exact .take? fun t ht => hf t (hle _ ht)
  | nextIs hk => exact .nextIs (hfalse hk)
  | report d => exact .report d
  | limitCount count cause => exact .limitCount count cause
  | freshId => exact .freshId
  | atEnd hnone => exact .atEnd fun k => hfalse (hnone k)
  | recovering hnone _ hp => exact .recovering (fun k => hfalse (hnone k)) hp

end Composed

theorem composed_assignment {ends : Kind → Bool} (equals : Token) (target value : Expr) :
    Composed ends (assignment equals target value) := by
  unfold assignment
  split
  · exact .pure _
  · exact (Composed.report _).bind fun _ => .pure _

theorem unaryNode?_endsExpression (t : Token) (h : t.kind.endsExpression) : unaryNode? t = none := by
  unfold unaryNode?
  generalize t.kind = k at h ⊢
  cases k <;> first | rfl | cases h

theorem join?_endsExpression (level : Level) (t : Token) (h : t.kind.endsExpression) :
    level.join? t = none := by
  unfold Level.join?
  generalize t.kind = k at h ⊢
  cases k <;> first | rfl | cases h

theorem ofConstant?_endsExpression (t : Token) (h : t.kind.endsExpression) :
    Expr.ofConstant? t = none := by
  unfold Expr.ofConstant?
  generalize t.kind = k at h ⊢
  cases k <;> first | rfl | cases h

structure ComposedExpressions (n : Nat) : Prop where
  expression : Composed Kind.endsExpression (expression n)
  operands (level : Level) : Composed Kind.endsExpression (operands n level)
  operators (level : Level) (left : Expr) : Composed Kind.endsExpression (operators n level left)
  calls (callee : Expr) : Composed Kind.endsExpression (calls n callee)
  argumentList : Composed Kind.endsExpression (argumentList n)
  arguments (count : Nat) : Composed Kind.endsExpression (arguments n count)
  primary : Composed Kind.endsExpression (primary n)

theorem composedExpressions (n : Nat) : ComposedExpressions n := by
  induction n with
  | zero =>
    constructor
    · rw [expression]; exact .outOfFuel
    · intro level; rw [operands]; exact .outOfFuel
    · intro level left; rw [operators]; exact .outOfFuel
    · intro callee; rw [calls]; exact .outOfFuel
    · rw [argumentList]; exact .outOfFuel
    · intro count; rw [arguments]; exact .outOfFuel
    · rw [primary]; exact .outOfFuel
  | succ n ih =>
    constructor
    case expression =>
      rw [expression]
      refine (ih.operands .or).bind fun target => (Composed.accept? rfl).bind fun equals? => ?_
      cases equals? with
      | none => exact .pure target
      | some equals => exact ih.expression.bind fun value => composed_assignment equals target value
    case operands =>
      intro level
      by_cases hl : level = .unary
      · subst hl
        rw [operands]
        refine (Composed.take? unaryNode?_endsExpression).bind fun node? => ?_
        cases node? with
        | some node => exact (ih.operands .unary).bind fun _ => .pure _
        | none => exact ih.primary.bind ih.calls
      · rw [operands.eq_3 _ _ hl]
        exact (ih.operands _).bind (ih.operators level)
    case operators =>
      intro level left
      rw [operators]
      refine (Composed.take? (join?_endsExpression level)).bind fun join? => ?_
      cases join? with
      | none => exact .pure left
      | some join => exact (ih.operands _).bind fun _ => ih.operators level _
    case calls =>
      intro callee
      rw [calls]
      refine (Composed.accept? rfl).bind fun paren? => ?_
      cases paren? with
      | none => exact .pure callee
      | some => exact ih.argumentList.bind fun _ => (Composed.expect rfl _).bind fun _ => ih.calls _
    case argumentList =>
      rw [argumentList]
      refine (Composed.nextIs rfl).bind fun b => ?_
      split
      · exact .pure []
      · exact ih.arguments 0
    case arguments =>
      intro count
      rw [arguments]
      refine (Composed.limitCount _ _).bind fun _ => ih.expression.bind fun e =>
        (Composed.accept? rfl).bind fun comma? => ?_
      cases comma? with
      | none => exact .pure [e]
      | some => exact (ih.arguments _).bind fun _ => .pure _
    case primary =>
      rw [primary]
      refine (Composed.take? ofConstant?_endsExpression).bind fun e? => ?_
      cases e? with
      | some e => exact .pure e
      | none =>
        refine (Composed.accept? rfl).bind fun t? => ?_
        cases t? with
        | some t => exact Composed.freshId.bind fun _ => .pure _
        | none =>
          refine (Composed.accept? rfl).bind fun paren? => ?_
          cases paren? with
          | none => exact .fail _
          | some => exact ih.expression.bind fun _ => (Composed.expect rfl _).bind fun _ => .pure _

abbrev Plain (p : Parser α) : Prop := Composed (fun _ => false) p

theorem Composed.plain {ends : Kind → Bool} {p : Parser α} (h : Composed ends p) : Plain p :=
  h.mono fun _ hk => by cases hk

theorem plain_take? (f : Token → Option α) : Plain (take? f) := .take? fun _ ht => by cases ht

theorem plain_accept? (kind : Kind) : Plain (accept? kind) := .accept? rfl

theorem plain_expect (kind : Kind) (what : Expectation) : Plain (expect kind what) := .expect rfl what

theorem plain_expression (n : Nat) : Plain (expression n) := (composedExpressions n).expression.plain

end Parser

/-- From one cursor to another only tokens are lost, from the front, and no fault; the end stays. -/
structure Cursor.Onward (c c' : Cursor) : Prop where
  rest : c'.rest <:+ c.rest
  faults : c.faults.toList <+: c'.faults.toList
  endLine : c'.endLine = c.endLine

namespace Cursor.Onward

theorem refl (c : Cursor) : c.Onward c := ⟨List.suffix_refl _, List.prefix_refl _, rfl⟩

theorem trans {c c' c'' : Cursor} (h : c.Onward c') (h' : c'.Onward c'') : c.Onward c'' :=
  ⟨h'.rest.trans h.rest, h.faults.trans h'.faults, h'.endLine.trans h.endLine⟩

theorem record (c : Cursor) (d : Diagnostic) : c.Onward (c.record d) :=
  ⟨List.suffix_refl _, by simp [Cursor.record], rfl⟩

theorem skipStatement (c : Cursor) : c.Onward c.skipStatement :=
  ⟨skipTokens_suffix c.rest c.line, List.prefix_refl _, rfl⟩

theorem faults_eq {c c' c'' : Cursor} (h : c.Onward c') (h' : c'.Onward c'')
    (hclean : c''.faults = c.faults) : c'.faults = c.faults := by
  have hback : c'.faults.toList <+: c.faults.toList := hclean ▸ h'.faults
  exact Array.toList_inj.mp (hback.eq_of_length_le h.faults.length_le)

end Cursor.Onward

def Cursor.after (faults : Array Diagnostic) (c : Cursor) : Cursor :=
  { c with faults := faults ++ c.faults }

namespace Reading

variable {α : Type}

def Onward (c : Cursor) : Reading α → Prop
  | .outOfFuel => True
  | .fault _ c' => c.Onward c'
  | .done _ c' => c.Onward c'

def after (faults : Array Diagnostic) : Reading α → Reading α
  | .outOfFuel => .outOfFuel
  | .fault d c => .fault d (c.after faults)
  | .done a c => .done a (c.after faults)

end Reading

namespace Parser

variable {α β : Type} {ends : Kind → Bool} {p : Parser α} {f : α → Parser β}

theorem bind_of_done {a : α} {c c' : Cursor} (h : p c = .done a c') : (p >>= f) c = f a c' := by
  simp only [Bind.bind, Parser.bind, h]

theorem bind_of_fault {d : Diagnostic} {c c' : Cursor} (h : p c = .fault d c') :
    (p >>= f) c = .fault d c' := by
  simp only [Bind.bind, Parser.bind, h]

theorem bind_of_outOfFuel {c : Cursor} (h : p c = .outOfFuel) : (p >>= f) c = .outOfFuel := by
  simp only [Bind.bind, Parser.bind, h]

theorem bind_eq_done {c c' : Cursor} {b : β} (h : (p >>= f) c = .done b c') :
    ∃ a c₁, p c = .done a c₁ ∧ f a c₁ = .done b c' := by
  simp only [Bind.bind, Parser.bind] at h
  cases hp : p c with
  | outOfFuel => rw [hp] at h; cases h
  | fault => rw [hp] at h; cases h
  | done a c₁ => rw [hp] at h; exact ⟨a, c₁, rfl, h⟩

theorem bind_ne_done {c : Cursor} (h : ∀ a c', p c ≠ .done a c') (b : β) (c' : Cursor) :
    (p >>= f) c ≠ .done b c' := by
  intro hb
  obtain ⟨a, c₁, ha, -⟩ := bind_eq_done hb
  exact h a c₁ ha

theorem onward_take? (g : Token → Option α) (c : Cursor) : (take? g c).Onward c := by
  unfold take?
  cases hrest : c.rest with
  | nil => exact .refl c
  | cons t ts =>
    cases hg : g t with
    | none => simp only [hg]; exact .refl c
    | some a =>
      simp only [hg]
      exact ⟨by rw [hrest]; exact List.suffix_cons t ts, List.prefix_refl _, rfl⟩

/-- No parser goes back. -/
theorem Composed.onward (h : Composed ends p) (c : Cursor) : (p c).Onward c := by
  induction h generalizing c with
  | outOfFuel => trivial
  | pure | fail | nextIs | atEnd => exact .refl c
  | freshId => exact ⟨List.suffix_refl _, List.prefix_refl _, rfl⟩
  | report d => exact .record c d
  | take? => exact onward_take? _ c
  | limitCount count cause =>
    unfold Parser.limitCount
    split
    · exact .record c _
    · exact .refl c
  | @bind _ _ p f _ _ hp hf =>
    have hp := hp c
    cases hpc : p c with
    | outOfFuel => rw [bind_of_outOfFuel hpc]; trivial
    | fault d c' => rw [hpc] at hp; rw [bind_of_fault hpc]; exact hp
    | done a c' =>
      rw [hpc] at hp
      rw [bind_of_done hpc]
      have hf := hf a c'
      cases hfc : f a c' with
      | outOfFuel => trivial
      | fault d c'' => rw [hfc] at hf; exact hp.trans hf
      | done b c'' => rw [hfc] at hf; exact hp.trans hf
  | @recovering _ p _ _ hp =>
    have hp := hp c
    unfold Parser.recovering
    cases hpc : p c with
    | outOfFuel => trivial
    | fault d c' => rw [hpc] at hp; exact (hp.trans (.record c' d)).trans (.skipStatement _)
    | done a c' => rw [hpc] at hp; exact hp

theorem done_onward (h : Composed ends p) {c c' : Cursor} {a : α} (hp : p c = .done a c') : c.Onward c' := by
  have h := h.onward c
  rwa [hp] at h

theorem record_faults_ne {c : Cursor} {d : Diagnostic} : (c.record d).faults ≠ c.faults := by
  intro h
  have hsize := congrArg Array.size h
  simp [Cursor.record] at hsize

/-- Where nothing went wrong there was nothing to recover from. -/
theorem recovering_done (hp : Composed ends p) {c c' : Cursor} {a? : Option α}
    (h : recovering p c = .done a? c') (hclean : c'.faults = c.faults) :
    ∃ a, a? = some a ∧ p c = .done a c' := by
  have hon := hp.onward c
  unfold recovering at h
  cases hpc : p c with
  | outOfFuel => rw [hpc] at h; cases h
  | fault d c₁ =>
    rw [hpc] at h hon
    cases h
    have hback := (Cursor.Onward.record c₁ d).trans (.skipStatement _)
    have hsame : c₁.faults = c.faults := hon.faults_eq hback hclean
    exact absurd (hclean.trans hsame.symm) record_faults_ne
  | done a c₁ => rw [hpc] at h; cases h; exact ⟨a, rfl, rfl⟩

def PassesOver (ends : Kind → Bool) (c c' : Cursor) : Prop :=
  ∃ read, c.rest = read ++ c'.rest ∧ ∀ t ∈ read, ends t.kind = false

theorem PassesOver.of_rest_eq {ends : Kind → Bool} {c c' : Cursor} (h : c'.rest = c.rest) :
    PassesOver ends c c' := ⟨[], h.symm, nofun⟩

theorem PassesOver.trans {ends : Kind → Bool} {c c' c'' : Cursor} (h : PassesOver ends c c')
    (h' : PassesOver ends c' c'') : PassesOver ends c c'' := by
  obtain ⟨read, hrest, hread⟩ := h
  obtain ⟨read', hrest', hread'⟩ := h'
  refine ⟨read ++ read', by rw [hrest, hrest', List.append_assoc], fun t ht => ?_⟩
  exact (List.mem_append.mp ht).elim (hread t) (hread' t)

/-- What treats such tokens as the end takes none of them. -/
theorem Composed.passesOver {ends : Kind → Bool} {p : Parser α} (h : Composed ends p) {c c' : Cursor}
    {a : α} (hp : p c = .done a c') : PassesOver ends c c' := by
  induction h generalizing c c' with
  | outOfFuel | fail => cases hp
  | pure | nextIs | freshId | report | atEnd => cases hp; exact .of_rest_eq rfl
  | limitCount count cause =>
    cases hp
    exact .of_rest_eq (by split <;> rfl)
  | @take? _ g hg =>
    unfold Parser.take? at hp
    cases hrest : c.rest with
    | nil => rw [hrest] at hp; cases hp; exact .of_rest_eq rfl
    | cons t rest =>
      rw [hrest] at hp
      dsimp only at hp
      cases hgt : g t with
      | none => rw [hgt] at hp; cases hp; exact .of_rest_eq rfl
      | some b =>
        rw [hgt] at hp
        cases hp
        refine ⟨[t], hrest, fun u hu => Bool.eq_false_iff.mpr fun hends => ?_⟩
        rw [List.mem_singleton.mp hu] at hends
        rw [hg t hends] at hgt
        cases hgt
  | bind _ _ ihp ihf =>
    obtain ⟨b, c₁, hb, ha⟩ := bind_eq_done hp
    exact (ihp hb).trans (ihf b ha)
  | recovering hnone hcomposed =>
    have honward := (Composed.recovering hnone hcomposed).onward c
    rw [hp] at honward
    obtain ⟨read, hread⟩ := honward.rest
    exact ⟨read, hread.symm, fun t _ => hnone t.kind⟩

theorem record_after (faults : Array Diagnostic) (c : Cursor) (d : Diagnostic) :
    (c.after faults).record d = (c.record d).after faults := by
  simp [Cursor.record, Cursor.after]

/-- Faults found before make no difference. -/
theorem Composed.after (h : Composed ends p) (faults : Array Diagnostic) (c : Cursor) :
    p (c.after faults) = (p c).after faults := by
  induction h generalizing c with
  | outOfFuel | pure | fail | nextIs | atEnd | freshId => rfl
  | report d => exact congrArg (Reading.done ()) (record_after faults c d)
  | @take? _ g =>
    simp only [Parser.take?, Cursor.after]
    cases hrest : c.rest with
    | nil => simp [Reading.after, Cursor.after, hrest]
    | cons t ts => cases hg : g t <;> simp [Reading.after, Cursor.after, hrest, hg]
  | limitCount count cause =>
    unfold Parser.limitCount
    split
    · exact congrArg (Reading.done ()) (record_after faults c _)
    · rfl
  | @bind _ _ p f _ _ hp hf =>
    have hp := hp c
    cases hpc : p c with
    | outOfFuel => rw [hpc] at hp; rw [bind_of_outOfFuel hpc, bind_of_outOfFuel hp]; rfl
    | fault d c' => rw [hpc] at hp; rw [bind_of_fault hpc, bind_of_fault hp]; rfl
    | done a c' => rw [hpc] at hp; rw [bind_of_done hpc, bind_of_done hp]; exact hf a c'
  | @recovering _ p _ _ hp =>
    have hp := hp c
    unfold Parser.recovering
    cases hpc : p c with
    | outOfFuel => rw [hpc] at hp; rw [hp]; rfl
    | fault d c' =>
      rw [hpc] at hp
      rw [hp]
      exact congrArg (fun c => Reading.done none c.skipStatement) (record_after faults c' d)
    | done a c' => rw [hpc] at hp; rw [hp]; rfl

theorem Composed.done_after (h : Composed ends p) {c d : Cursor} {a : α} (hp : p c = .done a d)
    (hclean : d.faults = c.faults) (faults : Array Diagnostic) :
    p { c with faults } = .done a { d with faults } := by
  have hbefore := h.after c.faults { c with faults := #[] }
  have hafter := h.after faults { c with faults := #[] }
  simp only [Cursor.after, Array.append_empty] at hbefore hafter
  rw [hp] at hbefore
  rw [hafter]
  cases hpc : p { c with faults := #[] } with
  | outOfFuel | fault => rw [hpc] at hbefore; cases hbefore
  | done b d₀ =>
    rw [hpc] at hbefore
    cases hbefore
    have hnone : d₀.faults = #[] := Array.self_eq_append_right.mp hclean.symm
    simp only [Reading.after, Cursor.after, hnone, Array.append_empty]

end Parser
end LoxLang
