import Mathlib
import LoxLang.Proofs.Parse.Semicolon
import LoxLang.Proofs.Parse.Segments

/-!
What else is read where a semicolon is missing. The declaration that ends with it is lost, and so are the
tokens that are skipped behind it; everything around them is read as if they had never been there.
-/
namespace LoxLang

theorem Cursor.skipTokens_line (ts : List Token) (line line' : Nat) :
    (skipTokens ts line).1 = (skipTokens ts line').1 := by
  cases ts <;> rfl

namespace Parser

theorem composed_expression (n : Nat) : Composed Kind.resumes (expression n) :=
  (composedExpressions n).expression.mono fun _ => Kind.endsExpression_of_resumes

theorem composed_varDeclaration (n : Nat) : Composed Kind.resumes (varDeclaration n) :=
  (Composed.expect rfl _).bind fun _ =>
    ((built_initializer? n).composed.mono fun _ => Kind.endsExpression_of_resumes).bind fun _ =>
      (Composed.expect rfl _).bind fun _ => .pure _

theorem composed_expressionStatement (n : Nat) : Composed Kind.resumes (expressionStatement n) :=
  (composed_expression n).bind fun _ => (Composed.expect rfl _).bind fun _ => .pure _

theorem composed_printStatement (n line : Nat) : Composed Kind.resumes (printStatement n line) :=
  (composed_expression n).bind fun _ => (Composed.expect rfl _).bind fun _ => .pure _

theorem composed_expressionBefore? (n : Nat) {closing : Kind} (h : closing.resumes = false) :
    Composed Kind.resumes (expressionBefore? n closing) := by
  refine (Composed.nextIs h).bind fun b => ?_
  split
  · exact .pure none
  · exact (composed_expression n).map some

theorem composed_returnStatement (n line : Nat) : Composed Kind.resumes (returnStatement n line) :=
  (composed_expressionBefore? n rfl).bind fun _ => (Composed.expect rfl _).bind fun _ => .pure _

/-- The tokens of a statement that ends behind the semicolon. -/
theorem exists_behind {pre ts vs us : List Token} {t : Token} (h : pre ++ t :: us = ts ++ vs)
    (hle : vs.length ≤ us.length) : ∃ ws, ts = pre ++ t :: ws ∧ us = ws ++ vs := by
  rcases List.append_eq_append_iff.mp h with ⟨ws, hts, hws⟩ | ⟨ws, -, hvs⟩
  · cases ws with
    | nil =>
      have hlength := congrArg List.length hws
      simp only [List.nil_append, List.length_cons] at hlength
      omega
    | cons w ws =>
      obtain ⟨rfl, hus⟩ := List.cons.inj hws
      exact ⟨ws, hts, hus⟩
  · have hlength := congrArg List.length hvs
    simp only [List.length_append, List.length_cons] at hlength
    omega

end Parser

namespace Gap

open LoxLang.Parser Grammar

variable {α β : Type} {g : Gap} {p : Parser α} {f : α → Parser β} {c c' : Cursor}

/-- Behind the semicolon, just behind it, or before it. -/
theorem behind_or_whole (h : (g.whole c).Onward c') :
    c'.rest.length < g.rest.length ∨ c'.rest = g.rest ∨ ∃ d, c' = g.whole d := by
  obtain ⟨read, hread⟩ := h.rest
  have hend : c'.endLine = some g.endLine := h.endLine
  rcases List.append_eq_append_iff.mp hread with ⟨ts, -, hts⟩ | ⟨ts, -, hts⟩
  · exact .inr (.inr ⟨{ c' with rest := ts }, by simp only [whole, Cursor.extend, ← hts, ← hend]⟩)
  · cases ts with
    | nil =>
      have hrest : c'.rest = [] ++ g.semicolon :: g.rest := hts.symm
      exact .inr (.inr ⟨{ c' with rest := [] }, by simp only [whole, Cursor.extend, ← hrest, ← hend]⟩)
    | cons t ts =>
      obtain ⟨-, hrest⟩ := List.cons.inj hts
      cases ts with
      | nil => exact .inr (.inl hrest.symm)
      | cons u us =>
        rw [hrest]
        exact .inl (by simp)

theorem whole_rest_length (g : Gap) (c : Cursor) :
    (g.whole c).rest.length = c.rest.length + (g.rest.length + 1) := List.length_append

/-- It stops before the semicolon. -/
def Clears (g : Gap) (p : Parser α) : Prop := ∀ c a c', p (g.whole c) = .done a c' → ∃ d, c' = g.whole d

/-- It stops right behind the semicolon at the latest. -/
def Reaches (g : Gap) (p : Parser α) : Prop := ∀ c a c', p (g.whole c) = .done a c' →
  c'.rest = g.rest ∨ ∃ d, c' = g.whole d

theorem reaches_of_composed (h : Composed Kind.resumes p) : g.Reaches p := by
  intro c a c' hp
  refine (behind_or_whole (done_onward h hp)).resolve_left fun hlt => ?_
  obtain ⟨read, hread, hkinds⟩ := h.passesOver hp
  obtain ⟨ws, rfl, hws⟩ := exists_behind hread (Nat.le_of_lt hlt)
  cases ws with
  | nil => exact absurd (congrArg List.length hws) (Nat.ne_of_gt hlt)
  | cons w ws =>
    have hresumes := g.head_resumes w (by rw [hws]; rfl)
    rw [hkinds w (by simp)] at hresumes
    cases hresumes

theorem clears_of_composed (h : Composed Kind.endsExpression p) : g.Clears p := by
  intro c a c' hp
  have hreaches := reaches_of_composed (g := g) (h.mono fun _ => Kind.endsExpression_of_resumes)
  refine (hreaches c a c' hp).resolve_left fun hrest => ?_
  obtain ⟨read, hread, hkinds⟩ := h.passesOver hp
  obtain ⟨ws, rfl, -⟩ := exists_behind hread (Nat.le_of_eq (congrArg List.length hrest))
  have hends := hkinds g.semicolon (by simp)
  rw [g.isSemicolon] at hends
  cases hends

theorem Clears.bind (hp : g.Clears p) (hf : ∀ a, g.Clears (f a)) : g.Clears (p >>= f) := by
  intro c b c' h
  obtain ⟨a, c₁, ha, hb⟩ := bind_eq_done h
  obtain ⟨d, rfl⟩ := hp c a c₁ ha
  exact hf a d b c' hb

/-- What cannot go on behind the semicolon stands before it. -/
theorem Reaches.clears (hp : g.Reaches p) (hf : ∀ a, g.Clears (f a))
    (hstops : ∀ a c b c', c.rest = g.rest → f a c ≠ .done b c') : g.Clears (p >>= f) := by
  intro c b c' h
  obtain ⟨a, c₁, ha, hb⟩ := bind_eq_done h
  obtain hrest | ⟨d, rfl⟩ := hp c a c₁ ha
  · exact absurd hb (hstops a c₁ b c' hrest)
  · exact hf a d b c' hb

theorem Clears.reaches (hp : g.Clears p) (hf : ∀ a, g.Reaches (f a)) : g.Reaches (p >>= f) := by
  intro c b c' h
  obtain ⟨a, c₁, ha, hb⟩ := bind_eq_done h
  obtain ⟨d, rfl⟩ := hp c a c₁ ha
  exact hf a d b c' hb

theorem clears_accept? {kind : Kind} (h : kind ≠ .semicolon) : g.Clears (accept? kind) := by
  intro c t? c' ht
  by_cases hc : c.rest = []
  · rw [accept?_eq_none kind (whole_ne hc h)] at ht
    cases ht
    exact ⟨c, rfl⟩
  · obtain ⟨d, rfl, -⟩ := peeks_done (peeks_take? _) hc ht
    exact ⟨d, rfl⟩

theorem reaches_forInitializer? (n : Nat) : g.Reaches (forInitializer? n) := by
  intro c s? c' h
  obtain ⟨t?, c₁, ht, h⟩ := bind_eq_done h
  cases t? with
  | some =>
    cases h
    exact reaches_of_composed (.accept? rfl) c _ c' ht
  | none =>
    obtain rfl := take?_eq_done_none ht
    refine (clears_accept? (by decide)).reaches (fun t? => ?_) c s? c' h
    cases t? with
    | some => exact reaches_of_composed ((composed_varDeclaration n).map some)
    | none => exact reaches_of_composed ((composed_expressionStatement n).map some)

theorem expect_behind {kind : Kind} {what : Expectation} (hstart : kind.startsStatement = false)
    (hbrace : kind ≠ .rightBrace) (hc : c.rest = g.rest) (t : Token) (c' : Cursor) :
    expect kind what c ≠ .done t c' := by
  rw [expect_eq_fault what (hc ▸ g.head_ne hstart hbrace)]
  nofun

theorem expressionBefore?_behind (n : Nat) {closing : Kind} (hstart : closing.startsStatement = false)
    (hbrace : closing ≠ .rightBrace) (hc : c.rest = g.rest) (e? : Option Expr) (c' : Cursor) :
    expressionBefore? n closing c ≠ .done e? c' :=
  (stuck_expressionBefore? (hc ▸ g.head_endsExpression) n (hc ▸ g.head_ne hstart hbrace)).not_done

theorem clears_pure (a : α) : g.Clears (Pure.pure a : Parser α) := by
  rintro c _ _ ⟨⟩
  exact ⟨c, rfl⟩

/-- No header of a loop holds the semicolon: none of its parts could come behind it. -/
theorem clears_forHead (n : Nat) : g.Clears (forHead n) := by
  refine (clears_of_composed (.expect rfl _)).bind fun _ => ?_
  refine (reaches_forInitializer? n).clears (fun _ => ?_)
    fun _ c _ _ hc => bind_ne_done (expressionBefore?_behind n rfl (by decide) hc) _ _
  refine (reaches_of_composed (composed_expressionBefore? n rfl)).clears (fun _ => ?_)
    fun _ c _ _ hc => bind_ne_done (expect_behind rfl (by decide) hc) _ _
  refine (reaches_of_composed (.expect rfl _)).clears (fun _ => ?_)
    fun _ c _ _ hc => bind_ne_done (expressionBefore?_behind n rfl (by decide) hc) _ _
  refine (reaches_of_composed (composed_expressionBefore? n rfl)).clears (fun _ => ?_)
    fun _ c _ _ hc => bind_ne_done (expect_behind rfl (by decide) hc) _ _
  exact (clears_of_composed (.expect rfl _)).bind fun _ => clears_pure _

/-- Only `ts` and the tokens at which reading resumes are ahead, and the fault is on record. -/
def mended (g : Gap) (c : Cursor) (ts : List Token) (what : Expectation) : Cursor :=
  { c with rest := ts ++ g.left, endLine := some g.endLine, faults := c.faults.push (g.fault what) }

/-- Behind `kept` stands a declaration that ends with the semicolon. -/
def Breaks (g : Gap) (pre kept : List Token) : Prop :=
  ∃ broken s, pre = kept ++ broken ∧ Declaration True (broken ++ [g.semicolon]) s

/-- Of the tokens before the semicolon, from `c` on, some are kept; where `strict`, that is not none. -/
def MendsAt (g : Gap) (strict : Prop) (R : α → α → Prop) (p : Parser α) (c : Cursor) : Prop :=
  ∃ kept what, g.Breaks c.rest kept ∧ (strict → kept ≠ []) ∧
    ((∀ t ∈ g.left.head?, t.kind ≠ .kwElse) →
      ∃ k, (p (g.torn c)).Matches (· = ·) k R (p (g.mended c kept what)))

/-- What goes on behind the semicolon reads the rest of the tokens as if the broken declaration, and what is
skipped behind it, were not there. -/
structure Mends (g : Gap) (strict : Prop) (R : α → α → Prop) (p : Parser α) : Prop where
  plain : Plain p
  mends : ∀ c a c', p (g.whole c) = .done a c' → c'.faults = c.faults → c'.rest.length < g.rest.length →
    p (g.torn c) = .outOfFuel ∨ g.MendsAt strict R p c

section Rules
variable {strict strict' : Prop} {R : α → α → Prop} {S : β → β → Prop}

theorem mends_of_reaches (hp : Plain p) (h : g.Reaches p) : g.Mends strict R p where
  plain := hp
  mends := by
    intro c a c' ha _ hlt
    obtain hrest | ⟨d, rfl⟩ := h c a c' ha
    · rw [hrest] at hlt
      exact absurd hlt (Nat.lt_irrefl _)
    · rw [whole_rest_length] at hlt
      omega

theorem mends_of_composed (h : Composed Kind.resumes p) : g.Mends strict R p :=
  mends_of_reaches h.plain (reaches_of_composed h)

theorem Misses.torn_eq (h : g.Misses p) {a : α} {d : Cursor} (hp : p (g.whole c) = .done a (g.whole d))
    (hclean : d.faults = c.faults) : p (g.torn c) = .outOfFuel ∨ p (g.torn c) = .done a (g.torn d) := by
  have hout := h.outcome c a (g.whole d) hp hclean
  have hlength := g.whole_rest_length d
  generalize p (g.torn c) = r at hout
  cases hout with
  | before d' hd => exact .inr (congrArg _ (Cursor.extend_congr hd.symm _ _))
  | here what _ hrest => rw [hrest] at hlength; omega
  | inside what _ hlt => omega
  | outOfFuel => exact .inl rfl

/-- Up to the broken declaration all is read alike. -/
theorem mended_eq (h : Steady p) {a : α} {d : Cursor} (hp : p (g.whole c) = .done a (g.whole d))
    (hclean : d.faults = c.faults) {us kept broken : List Token} (hc : c.rest = us ++ d.rest)
    (hd : d.rest = kept ++ broken) (what : Expectation)
    (helse : ∀ t ∈ g.left.head?, t.kind ≠ .kwElse) :
    p (g.mended c (us ++ kept) what) = .done a (g.mended d kept what) := by
  have hwhole {x : Cursor} {ts : List Token} (hx : x.rest = ts ++ broken) : g.whole x =
      ({ x with rest := ts } : Cursor).extend (broken ++ g.semicolon :: g.rest) (some g.endLine) := by
    simp only [whole, Cursor.extend, hx, List.append_assoc]
  have hc' : c.rest = us ++ kept ++ broken := by rw [hc, hd, List.append_assoc]
  rw [hwhole hc', hwhole hd] at hp
  have hswap := h.swap _ _ a _ g.left _ (some g.endLine) hp hclean helse
  have hdone := h.plain.done_after hswap hclean (c.faults.push (g.fault what))
  simp only [mended, hclean]
  exact hdone

/-- A part of which `us` are the tokens, and the broken declaration behind it. -/
theorem mendsAt_after {a : α} {d : Cursor} {us : List Token} (hne : us ≠ []) (hc : c.rest = us ++ d.rest)
    (htorn : p (g.torn c) = .done a (g.torn d))
    (hmended : ∀ kept broken what, d.rest = kept ++ broken → (∀ t ∈ g.left.head?, t.kind ≠ .kwElse) →
      p (g.mended c (us ++ kept) what) = .done a (g.mended d kept what))
    (h : f a (g.torn d) = .outOfFuel ∨ g.MendsAt strict' S (f a) d) :
    (p >>= f) (g.torn c) = .outOfFuel ∨ g.MendsAt strict S (p >>= f) c := by
  obtain hfuel | ⟨kept, what, ⟨broken, s, hd, hderives⟩, -, hmends⟩ := h
  · exact .inl ((bind_of_done htorn).trans hfuel)
  refine .inr ⟨us ++ kept, what, ⟨broken, s, by rw [hc, hd, List.append_assoc], hderives⟩,
    fun _ => List.append_ne_nil_of_left_ne_nil hne kept, fun helse => ?_⟩
  obtain ⟨k, hk⟩ := hmends helse
  refine ⟨k, ?_⟩
  rw [bind_of_done htorn, bind_of_done (hmended kept broken what hd helse)]
  exact hk

theorem mendsAt_after_closes (hmisses : g.Misses p) (hcloses : Closes p) {a : α} {d : Cursor}
    (hp : p (g.whole c) = .done a (g.whole d)) (hclean : d.faults = c.faults)
    (h : f a (g.torn d) = .outOfFuel ∨ g.MendsAt strict' S (f a) d) :
    (p >>= f) (g.torn c) = .outOfFuel ∨ g.MendsAt strict S (p >>= f) c := by
  obtain htorn | htorn := hmisses.torn_eq hp hclean
  · exact .inl (bind_of_outOfFuel htorn)
  obtain ⟨us, hus⟩ := (done_onward hcloses.plain hp).rest
  have hc : c.rest = us ++ d.rest :=
    List.append_cancel_right (hus.symm.trans (List.append_assoc us d.rest _).symm)
  have hne : us ≠ [] := by
    rintro rfl
    have hlt := hcloses.reads _ _ _ hp
    rw [← hus] at hlt
    exact Nat.lt_irrefl _ hlt
  exact mendsAt_after hne hc htorn (fun _ _ what hd => mended_eq hcloses.toSteady hp hclean hc hd what) h

/-- What does the same with the next token ahead. -/
theorem MendsAt.congr {q : Parser α} (h : g.MendsAt True R q c)
    (hsame : ∀ x : Cursor, x.rest.head? = c.rest.head? → p x = q x) : g.MendsAt strict R p c := by
  obtain ⟨kept, what, ⟨broken, s, hc, hderives⟩, hne, hmends⟩ := h
  obtain ⟨t, ts, rfl⟩ := List.exists_cons_of_ne_nil (hne trivial)
  refine ⟨t :: ts, what, ⟨broken, s, hc, hderives⟩, fun _ => List.cons_ne_nil t ts, fun helse => ?_⟩
  have htorn := hsame (g.torn c) (by simp [torn, Cursor.extend, hc])
  have hmended := hsame (g.mended c (t :: ts) what) (by simp [mended, hc])
  rw [htorn, hmended]
  exact hmends helse

theorem MendsAt.bind (h : g.MendsAt strict R p c)
    (hf : ∀ k a a', R a a' → Parser.Matches (· = ·) k S (f a) (f a')) :
    g.MendsAt strict S (p >>= f) c := by
  obtain ⟨kept, what, hbreaks, hne, hmends⟩ := h
  refine ⟨kept, what, hbreaks, hne, fun helse => ?_⟩
  obtain ⟨k, hk⟩ := hmends helse
  exact ⟨k, bind_matches hk (hf k)⟩

/-- A part before the semicolon, and one with the broken declaration in it. -/
theorem Mends.after (hmisses : g.Misses p) (hcloses : Closes p) (hclears : g.Clears p)
    (hf : ∀ a, g.Mends strict' S (f a)) : g.Mends strict S (p >>= f) where
  plain := hcloses.plain.bind fun a => (hf a).plain
  mends := by
    intro c b c' h hclean hlt
    obtain ⟨a, c₁, ha, hb⟩ := bind_eq_done h
    obtain ⟨d, rfl⟩ := hclears c a c₁ ha
    have hsame : d.faults = c.faults :=
      (done_onward hcloses.plain ha).faults_eq (done_onward (hf a).plain hb) hclean
    exact mendsAt_after_closes hmisses hcloses ha hsame
      ((hf a).mends d b c' hb (hclean.trans hsame.symm) hlt)

theorem Mends.bind (hmisses : g.Misses p) (hcloses : Closes p) (hp : g.Mends strict R p)
    (hf : ∀ a, g.Mends strict' S (f a))
    (hstops : ∀ a c b c', c.rest = g.rest → f a c = .done b c' → c'.rest = g.rest)
    (hmatch : ∀ k a a', R a a' → Parser.Matches (· = ·) k S (f a) (f a')) :
    g.Mends strict S (p >>= f) where
  plain := hcloses.plain.bind fun a => (hf a).plain
  mends := by
    intro c b c' h hclean hlt
    obtain ⟨a, c₁, ha, hb⟩ := bind_eq_done h
    have hon := done_onward hcloses.plain ha
    have hsame : c₁.faults = c.faults := hon.faults_eq (done_onward (hf a).plain hb) hclean
    rcases behind_or_whole hon with hlt₁ | hrest | ⟨d, rfl⟩
    · obtain hfuel | hmends := hp.mends c a c₁ ha hsame hlt₁
      · exact .inl (bind_of_outOfFuel hfuel)
      · exact .inr (hmends.bind hmatch)
    · rw [hstops a c₁ b c' hrest hb] at hlt
      exact absurd hlt (Nat.lt_irrefl _)
    · have hnext := (hf a).mends d b c' hb (hclean.trans hsame.symm) hlt
      exact mendsAt_after_closes hmisses hcloses ha hsame hnext

theorem Mends.build (hp : g.Mends strict R p) {build : α → β} (h : ∀ a a', R a a' → S (build a) (build a')) :
    g.Mends strict S (p >>= fun a => pure (build a)) where
  plain := hp.plain.bind fun _ => .pure _
  mends := by
    intro c b c' hb hclean hlt
    obtain ⟨a, c₁, ha, hpure⟩ := bind_eq_done hb
    cases hpure
    obtain hfuel | hmends := hp.mends c a c' ha hclean hlt
    · exact .inl (bind_of_outOfFuel hfuel)
    · exact .inr (hmends.bind fun _ a a' haa => .pure (h a a' haa))

/-- A first token, if there is one before the semicolon. -/
theorem Mends.take? {h : Token → Option α} {f : Option α → Parser β}
    (hsome : ∀ a, g.Mends strict S (f (some a))) (hnone : g.Mends True S (f none))
    (hfirst : ∀ c b c', c.rest = [] → (Parser.take? h >>= f) (g.whole c) = .done b c' →
      c'.faults = c.faults → g.rest.length ≤ c'.rest.length) :
    g.Mends True S (Parser.take? h >>= f) where
  plain := (plain_take? h).bind fun
    | some a => (hsome a).plain
    | none => hnone.plain
  mends := by
    intro c b c' hb hclean hlt
    by_cases hc : c.rest = []
    · exact absurd (hfirst c b c' hc hb hclean) (Nat.not_le_of_lt hlt)
    obtain ⟨t, ts, hrest⟩ := List.exists_cons_of_ne_nil hc
    cases ht : h t with
    | none =>
      have hahead (x : Cursor) (hx : x.rest.head? = c.rest.head?) : (Parser.take? h >>= f) x = f none x :=
        bind_of_done (take?_eq_none fun u hu => by rw [hx, hrest] at hu; cases hu; exact ht)
      rw [hahead (g.whole c) (by simp [whole, Cursor.extend, hrest])] at hb
      rw [hahead (g.torn c) (by simp [torn, Cursor.extend, hrest])]
      exact (hnone.mends c b c' hb hclean hlt).imp_right fun hmends => hmends.congr hahead
    | some a =>
      have hahead {x : Cursor} {us : List Token} (hx : x.rest = t :: us) :
          Parser.take? h x = .done (some a) { x with rest := us, line := t.line } := by
        simp only [Parser.take?, hx, ht]
      obtain ⟨d, hd⟩ : ∃ d : Cursor, d = { c with rest := ts, line := t.line } := ⟨_, rfl⟩
      have hwhole : Parser.take? h (g.whole c) = .done (some a) (g.whole d) := by
        rw [hahead (by rw [whole, Cursor.extend, hrest, List.cons_append]), hd]
        rfl
      have htorn : Parser.take? h (g.torn c) = .done (some a) (g.torn d) := by
        rw [hahead (by rw [torn, Cursor.extend, hrest, List.cons_append]), hd]
        rfl
      have hsame : d.faults = c.faults := by rw [hd]
      rw [bind_of_done hwhole] at hb
      refine mendsAt_after (List.cons_ne_nil t []) (by rw [hrest, hd]; rfl) htorn (fun kept _ what _ _ => ?_)
        ((hsome a).mends d b c' hb (hclean.trans hsame.symm) hlt)
      rw [hahead (by rw [mended, List.cons_append, List.nil_append, List.cons_append]), hd]
      rfl

theorem Mends.recovering (hp : g.Mends strict R p) : g.Mends strict (Option.Rel R) (recovering p) where
  plain := .recovering (fun _ => rfl) hp.plain
  mends := by
    intro c a? c' h hclean hlt
    obtain ⟨a, rfl, ha⟩ := recovering_done hp.plain h hclean
    obtain hfuel | ⟨kept, what, hbreaks, hne, hmends⟩ := hp.mends c a c' ha hclean hlt
    · exact .inl (by rw [Parser.recovering, hfuel])
    · exact .inr ⟨kept, what, hbreaks, hne, fun helse => (hmends helse).imp fun _ => recovering_matches⟩

end Rules

abbrev Alike : Stmt → Stmt → Prop := Stmt.Matches (· = ·) whatever

theorem alike_self (s : Stmt) : Alike s s := Stmt.matches_self (fun _ => rfl) (fun _ => trivial) s

structure MendsStatements (g : Gap) (n : Nat) : Prop where
  declaration : g.Mends True (Option.Rel Alike) (declaration n)
  statement : g.Mends True Alike (statement n)
  elseBranch? : g.Mends True (Option.Rel Alike) (elseBranch? n)
  block : g.Mends False (Stmt.AllMatch (· = ·) whatever) (block n)

theorem rel_any {k : NodeId} {s? s?' : Option Stmt} (h : Option.Rel (Stmt.Matches (· = ·) (Shifted k)) s? s?') :
    Option.Rel Alike s? s?' := by
  cases h with
  | none => exact .none
  | some h => exact .some (h.imp fun _ _ _ => trivial)

theorem elseBranch?_behind {n : Nat} {s? : Option Stmt} (hc : c.rest = g.rest)
    (h : elseBranch? n c = .done s? c') : c'.rest = g.rest := by
  cases n with
  | zero => rw [elseBranch?] at h; cases h
  | succ n =>
    rw [elseBranch?, bind_of_done (accept?_eq_none .kwElse (hc ▸ g.head_ne rfl (by decide)))] at h
    cases h
    exact hc

theorem mends_branch {n line : Nat} (hstatement : g.Mends True Alike (statement n))
    (helse : g.Mends True (Option.Rel Alike) (elseBranch? n)) (condition : Expr) :
    g.Mends True Alike (statement n >>= fun thenBranch =>
      elseBranch? n >>= fun elseBranch => pure (.branch line condition thenBranch elseBranch)) := by
  have hcondition : condition.Matches (· = ·) whatever condition :=
    Expr.matches_self (fun _ => rfl) (fun _ => trivial) condition
  refine .bind (missesStatements n).statement (closesStatements n).statement hstatement
    (fun s => helse.build fun _ _ => .branch rfl hcondition (alike_self s)) ?_ ?_
  · intro s c b c' hc h
    obtain ⟨s?, c₁, hs, hpure⟩ := bind_eq_done h
    cases hpure
    exact elseBranch?_behind hc hs
  · intro k s s' hs
    exact (statementsMatch n n).elseBranch?.bind fun _ _ ht => .pure (.branch rfl hcondition hs (rel_any ht))

theorem mends_declared {n : Nat} (hstatement : g.Mends True Alike (statement n))
    (hblock : g.Mends False (Stmt.AllMatch (· = ·) whatever) (block n)) :
    g.Mends True Alike (declared n) := by
  refine Mends.take? (fun t => show g.Mends True _ _ from ?_) (Mends.take? (fun t => show g.Mends True _ _ from ?_) hstatement ?_) ?_
  · exact .after (misses_of_composed (built_functionHead n).composed) (closes_functionHead n)
      (clears_of_composed (built_functionHead n).composed) fun head =>
        hblock.build fun _ _ hbody => .function _ _ rfl hbody
  · exact mends_of_composed (composed_varDeclaration n)
  · intro c s c' hc h _
    have hvar := accept?_eq_none .kwVar (whole_ne (g := g) hc (by decide))
    exact absurd h (Stuck.after hvar (stuck_statement hc n)).not_done
  · intro c s c' hc h _
    exact absurd h (stuck_declared hc n).not_done

theorem forHead_alike (head : ForHead) : ForHead.Matches (· = ·) whatever head head where
  initializer := by
    cases head.initializer with
    | none => exact .none
    | some s => exact .some (alike_self s)
  condition := Expr.matchIfAny_self (fun _ => rfl) (fun _ => trivial) head.condition
  increment := Expr.matchIfAny_self (fun _ => rfl) (fun _ => trivial) head.increment

theorem mends_statement {n : Nat} (hstatement : g.Mends True Alike (statement n))
    (helse : g.Mends True (Option.Rel Alike) (elseBranch? n))
    (hblock : g.Mends False (Stmt.AllMatch (· = ·) whatever) (block n)) :
    g.Mends True Alike (statement (n + 1)) := by
  rw [statement]
  refine Mends.take? (fun head => show g.Mends False _ _ from ?_) ?_ ?_
  · obtain ⟨opening, line⟩ := head
    cases opening with
    | print => exact mends_of_composed (composed_printStatement n line)
    | branch =>
      exact .after (misses_of_composed (built_ifHead n).composed) (closes_ifHead n)
        (clears_of_composed (built_ifHead n).composed) (mends_branch hstatement helse)
    | loop =>
      refine .after (misses_of_composed (built_whileHead n).composed) (closes_whileHead n)
        (clears_of_composed (built_whileHead n).composed) fun condition =>
          hstatement.build fun _ _ hbody => .loop rfl ?_ hbody
      exact Expr.matches_self (fun _ => rfl) (fun _ => trivial) condition
    | forLoop =>
      refine .after (misses_forHead n) (closes_forHead n) (clears_forHead n) fun head =>
        hstatement.build fun _ _ hbody => matches_forLoop rfl (forHead_alike head) hbody
    | result => exact mends_of_composed (composed_returnStatement n line)
    | block => exact hblock.build fun _ _ hbody => .block rfl hbody
  · exact mends_of_composed (composed_expressionStatement n)
  · intro c s c' hc h _
    rw [← statement] at h
    exact absurd h (stuck_statement hc (n + 1)).not_done

theorem mends_elseBranch? {n : Nat} (hstatement : g.Mends True Alike (statement n)) :
    g.Mends True (Option.Rel Alike) (elseBranch? (n + 1)) := by
  rw [elseBranch?]
  refine Mends.take? (fun _ => hstatement.build fun _ _ hs => .some hs)
    (mends_of_reaches (.pure none) ?_) ?_
  · rintro c _ _ ⟨⟩
    exact .inr ⟨c, rfl⟩
  · intro c s? c' hc h _
    have helse := accept?_eq_none .kwElse (whole_ne (g := g) hc (by decide))
    have hdone := (bind_of_done helse).symm.trans h
    cases hdone
    rw [whole_rest_length]
    omega

/-- Where a declaration reads on without a fault, a token that begins one is ahead. -/
theorem declaration_ahead {n : Nat} {s? : Option Stmt} (h : declaration n (g.whole c) = .done s? c')
    (hclean : c'.faults = c.faults) :
    ∃ t ts us s, c.rest = t :: ts ∧ t.kind ≠ .rightBrace ∧ (g.whole c).rest = t :: us ++ c'.rest ∧
      Declaration True (t :: us) s := by
  obtain ⟨t, ts, hc⟩ := List.exists_cons_of_ne_nil fun hc => declaration_whole hc h hclean
  have hreads := (readsStatements n).declaration (g.whole c)
  rw [ReadsFrom, h] at hreads
  obtain ⟨read, hread, s, -, hderives⟩ := hreads.2 (congrArg Array.size hclean)
  obtain ⟨u, us, rfl, hkind⟩ := hderives.start
  have hhead : t :: (ts ++ g.semicolon :: g.rest) = u :: us ++ c'.rest := by
    rw [← hread, whole, Cursor.extend, hc]
    rfl
  obtain ⟨rfl, -⟩ := List.cons.inj hhead
  exact ⟨t, ts, us, s.bare, hc, fun hbrace => by rw [hbrace] at hkind; revert hkind; decide, hread, hderives⟩

/-- What is skipped behind the fault is not there, and neither is the broken declaration. -/
theorem mended_matches {d : Cursor} (what : Expectation) (hrest : d.rest = g.rest)
    (hend : d.endLine = some g.endLine) (hfaults : d.faults = c.faults) :
    (d.record (g.fault what)).skipStatement.Matches (· = ·) (c.nextId - d.nextId) (g.mended c [] what) where
  rest := by
    have hleft : (Cursor.skipTokens d.rest d.line).1 = g.left := by
      rw [hrest]
      exact Cursor.skipTokens_line _ _ _
    simp only [Cursor.skipStatement, Cursor.record, mended, hleft]
    exact Token.matches_self (fun _ => rfl) _
  line hnone := by
    have hsome : d.endLine = none := hnone
    rw [hend] at hsome
    cases hsome
  endLine := by
    simp only [Cursor.skipStatement, Cursor.record, mended, hend]
    exact .some rfl
  nextId := shifted_sub d.nextId c.nextId
  faults := by
    simp only [Cursor.skipStatement, Cursor.record, mended, hfaults]
    exact List.forall₂_same.mpr fun x _ => .mk x.place x.cause rfl

/-- Any loop over declarations goes on behind the broken one. -/
theorem mended_loop {loop : Nat → Parser (List Stmt)} (hloop : Iterates loop)
    (hplain : ∀ n, Plain (loop n))
    (hmatches : ∀ n m k, Parser.Matches (· = ·) k (Stmt.AllMatch (· = ·) (Shifted k)) (loop n) (loop m))
    {n : Nat} (hdeclaration : g.Mends True (Option.Rel Alike) (declaration n)) {ss : List Stmt}
    (h : (declaration n >>= fun s? => (s?.toList ++ ·) <$> loop n) (g.whole c) = .done ss c')
    (hclean : c'.faults = c.faults)
    (hlater : ∀ d ss, loop n (g.whole d) = .done ss c' → c'.faults = d.faults →
      loop n (g.torn d) = .outOfFuel ∨ g.MendsAt False (Stmt.AllMatch (· = ·) whatever) (loop n) d) :
    loop (n + 1) (g.torn c) = .outOfFuel ∨
      g.MendsAt False (Stmt.AllMatch (· = ·) whatever) (loop (n + 1)) c := by
  obtain ⟨s?, c₁, hs, h⟩ := bind_eq_done h
  obtain ⟨ss', _, hss, hpure⟩ := bind_eq_done h
  cases hpure
  have hsame : c₁.faults = c.faults :=
    (done_onward hdeclaration.plain hs).faults_eq (done_onward (hplain n) hss) hclean
  obtain ⟨t, ts, us, s, hc, hbrace, hread, hderives⟩ := declaration_ahead hs hsame
  have hstep (x : Cursor) (hx : x.rest.head? = c.rest.head?) :
      loop (n + 1) x = (declaration n >>= fun s? => (s?.toList ++ ·) <$> loop n) x := by
    obtain ⟨vs, hvs⟩ : ∃ vs, x.rest = t :: vs := List.head?_eq_some_iff.mp (by rw [hx, hc]; rfl)
    exact hloop n x t vs hvs hbrace
  have htorn := hstep (g.torn c) (by simp [torn, Cursor.extend, hc])
  rw [htorn]
  cases hs' : declaration n (g.torn c) with
  | outOfFuel => exact .inl (bind_of_outOfFuel hs')
  | fault x d => exact absurd hs' (declaration_ne_fault n _ d x)
  | done s?' d' =>
    rcases declaration_torn hs hsame hs' with ⟨d, rfl, hd, rfl, rfl⟩ | ⟨hle, what, -, hends⟩
    · -- The semicolon is still ahead, and all is read alike up to there.
      have hpre : c.rest = t :: us ++ d.rest :=
        List.append_cancel_right (hread.trans (List.append_assoc _ _ _).symm)
      have hrest : ((s?'.toList ++ ·) <$> loop n) (g.torn d) = .outOfFuel ∨
          g.MendsAt False (Stmt.AllMatch (· = ·) whatever) ((s?'.toList ++ ·) <$> loop n) d :=
        (hlater d ss' hss (hclean.trans hd.symm)).imp bind_of_outOfFuel fun hmends =>
          hmends.bind fun _ _ _ hss => .pure ((Stmt.allMatch_self (fun _ => rfl) (fun _ => trivial) _).append hss)
      exact (mendsAt_after (List.cons_ne_nil t us) hpre hs'
        (fun _ _ what hkept => mended_eq (steady_declaration n) hs hd hpre hkept what) hrest).imp_right fun hmends =>
          MendsAt.congr hmends hstep
    · rcases behind_or_whole (done_onward hdeclaration.plain hs) with hlt | hrest | ⟨d, rfl⟩
      · -- The broken declaration is inside of this one.
        obtain hfuel | hmends := hdeclaration.mends c s? c₁ hs hsame hlt
        · rw [hs'] at hfuel
          cases hfuel
        have hnext := hmends.bind (f := fun s? => (s?.toList ++ ·) <$> loop n) fun k _ _ hs =>
          (hmatches n n k).bind fun _ _ hss => .pure ((allMatch_toList hs).append (hss.imp fun _ _ _ => trivial))
        exact .inr (hnext.congr hstep)
      · -- It is this one.
        obtain ⟨rfl, d, hdrest, hend, hfaults, rfl⟩ := hends hrest
        have hbroken : c.rest ++ [g.semicolon] = t :: us := by
          rw [hrest, whole, Cursor.extend] at hread
          exact List.append_cancel_right ((List.append_assoc _ _ _).trans hread)
        refine .inr ⟨[], what, ⟨c.rest, s, rfl, hbroken ▸ hderives⟩, False.elim,
          fun _ => ⟨c.nextId - d.nextId, ?_⟩⟩
        rw [htorn, bind_of_done hs']
        simp only [Option.toList_none, List.nil_append, id_map']
        exact (hmatches n (n + 1) _ _ _ (mended_matches what hdrest hend hfaults)).imp fun _ _ hss =>
          hss.imp fun _ _ _ => trivial
      · rw [whole_rest_length] at hle
        omega

theorem mendsStatements (n : Nat) : MendsStatements g n := by
  induction n with
  | zero =>
    constructor
    · rw [declaration]; exact mends_of_composed .outOfFuel
    · rw [statement]; exact mends_of_composed .outOfFuel
    · rw [elseBranch?]; exact mends_of_composed .outOfFuel
    · rw [block]; exact mends_of_composed .outOfFuel
  | succ n ih =>
    constructor
    case declaration => rw [declaration_succ]; exact (mends_declared ih.statement ih.block).recovering
    case statement => exact mends_statement ih.statement ih.elseBranch? ih.block
    case elseBranch? => exact mends_elseBranch? ih.statement
    case block =>
      refine ⟨(assembledStatements (n + 1)).block.plain, fun c ss c' h hclean hlt => ?_⟩
      obtain ⟨t, ts, hrest⟩ : ∃ t ts, (g.whole c).rest = t :: ts :=
        List.exists_cons_of_ne_nil (by simp [whole, Cursor.extend])
      by_cases hbrace : t.kind = .rightBrace
      · rw [block_of_brace hrest hbrace] at h
        cases h
        have hlength := g.whole_rest_length c
        rw [hrest, List.length_cons] at hlength
        dsimp only at hlt
        omega
      rw [block_of_declaration hrest hbrace] at h
      exact mended_loop iterates_block (fun n => (assembledStatements n).block.plain)
        (fun n m _ => (statementsMatch n m).block) ih.declaration h hclean fun d ss hss hd =>
          ih.block.mends d ss c' hss hd hlt

/-- A program without the semicolon is read as if the declaration that ends with it, and what is skipped
behind it, were not there. -/
theorem mended_program {n : Nat} {ss : List Stmt} (h : program n (g.whole c) = .done ss c')
    (hclean : c'.faults = c.faults) : program n (g.torn c) = .outOfFuel ∨
      g.MendsAt False (Stmt.AllMatch (· = ·) whatever) (program n) c := by
  induction n generalizing c ss with
  | zero => cases h
  | succ n ih =>
    rw [program_succ, if_neg (by simp [whole, Cursor.extend])] at h
    exact mended_loop iterates_program (fun n => (assembled_program n).plain)
      (fun n m _ => matches_program n m) (mendsStatements n).declaration h hclean fun d ss hss hd => ih hss hd

end Gap
end LoxLang
