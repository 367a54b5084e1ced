import LoxLang.Proofs.Parse.Stuck
import LoxLang.Proofs.Parse.Local
import LoxLang.Proofs.Parse.Accept

/-!
Tokens that are read without a fault, and the same tokens without a semicolon before a statement, before a
closing brace or before the end: up to the semicolon both are read alike, and then the missing semicolon is
a fault.
-/
namespace LoxLang

def Kind.resumes : Kind → Bool
  | .rightBrace => true
  | k => k.startsStatement

theorem Kind.endsExpression_of_resumes {k : Kind} (h : k.resumes) : k.endsExpression := by
  cases k <;> first | rfl | cases h

/-- A semicolon to be left out, and the tokens behind it. -/
structure Gap where
  semicolon : Token
  rest : List Token
  endLine : Nat
  isSemicolon : semicolon.kind = .semicolon
  inside : ∀ t ∈ rest, t.kind ≠ .eof
  resumes : ∀ t ∈ rest.head?, t.kind.startsStatement ∨ t.kind = .rightBrace

def Reading.faults : Reading α → List Diagnostic
  | .outOfFuel => []
  | .fault d c => c.faults.toList ++ [d]
  | .done _ c => c.faults.toList

theorem prefix_faults {faults : Array Diagnostic} {c : Cursor} (h : c.faults = faults)
    (d : Diagnostic) : faults.toList ++ [d] <+: c.faults.toList ++ [d] := by
  subst h
  exact List.prefix_refl _

namespace Gap

variable (g : Gap)

/-- The same cursor with the semicolon and what stands behind it at the end of its tokens. -/
def whole (c : Cursor) : Cursor := c.extend (g.semicolon :: g.rest) (some g.endLine)

def torn (c : Cursor) : Cursor := c.extend g.rest (some g.endLine)

def fault (what : Expectation) : Diagnostic :=
  match g.rest with
  | [] => ⟨g.endLine, .atEnd, .expected what⟩
  | t :: _ => ⟨t.line, .at t.lexeme, .expected what⟩

/-- The tokens at which reading resumes after the fault. -/
def left : List Token := (Cursor.skipTokens g.rest g.endLine).1

theorem faultHere {c : Cursor} (hrest : c.rest = g.rest) (hend : c.endLine = some g.endLine)
    (what : Expectation) : c.faultHere (.expected what) = g.fault what := by
  unfold Cursor.faultHere fault
  rw [hrest, hend]
  cases g.rest <;> rfl

theorem whole_rest {c : Cursor} (h : c.rest = []) : (g.whole c).rest = g.semicolon :: g.rest := by
  simp [whole, Cursor.extend, h]

theorem torn_rest {c : Cursor} (h : c.rest = []) : (g.torn c).rest = g.rest := by
  simp [torn, Cursor.extend, h]

theorem head_resumes : ∀ t ∈ g.rest.head?, t.kind.resumes := by
  intro t ht
  obtain hk | hk := g.resumes t ht
  · generalize t.kind = k at hk ⊢
    cases k <;> first | rfl | cases hk
  · rw [hk]; rfl

theorem head_endsExpression : ∀ t ∈ g.rest.head?, t.kind.endsExpression := fun t ht =>
  Kind.endsExpression_of_resumes (g.head_resumes t ht)

theorem head_ne {kind : Kind} (h : kind.startsStatement = false) (hbrace : kind ≠ .rightBrace) :
    ∀ t ∈ g.rest.head?, t.kind ≠ kind := by
  rintro t ht rfl
  obtain hk | hk := g.resumes t ht
  · rw [h] at hk; cases hk
  · exact hbrace hk

section Outcome
variable {α : Type} (faults : Array Diagnostic) (a : α) (c' : Cursor)

/-- Where with the semicolon `a` is built up to `c'`, what comes of it without the semicolon: the same, if
the semicolon is still ahead; or the fault behind it, at once or somewhere inside. -/
inductive Outcome : Reading α → Prop where
  | before (d : Cursor) : c' = g.whole d → d.faults = faults → Outcome (.done a (g.torn d))
  | here (what : Expectation) (d : Cursor) : c'.rest = g.rest → d.rest = g.rest →
    d.endLine = some g.endLine → d.faults = faults → Outcome (.fault (g.fault what) d)
  | inside (what : Expectation) (r : Reading α) : c'.rest.length < g.rest.length →
    faults.toList ++ [g.fault what] <+: r.faults → Outcome r
  | outOfFuel : Outcome .outOfFuel

variable {faults a c'}

/-- After the fault. -/
theorem Outcome.of_suffix (what : Expectation) {r : Reading α} (h : c'.rest <:+ g.rest)
    (hhere : c'.rest = g.rest → g.Outcome faults a c' r)
    (hfaults : faults.toList ++ [g.fault what] <+: r.faults) : g.Outcome faults a c' r := by
  obtain hlt | hge := Nat.lt_or_ge c'.rest.length g.rest.length
  · exact .inside what r hlt hfaults
  · exact hhere (h.eq_of_length_le hge)

end Outcome

structure Misses (p : Parser α) : Prop where
  plain : Parser.Plain p
  outcome : ∀ c a c', p (g.whole c) = .done a c' → c'.faults = c.faults →
    g.Outcome c.faults a c' (p (g.torn c))

end Gap

namespace Parser

variable {α β : Type} {p : Parser α} {f : α → Parser β}

/-- No fault is taken back. -/
theorem bind_faults {fs : List Diagnostic} {c : Cursor} (hf : ∀ a, Plain (f a))
    (h : fs <+: (p c).faults) (hout : (p >>= f) c ≠ .outOfFuel) : fs <+: ((p >>= f) c).faults := by
  cases hp : p c with
  | outOfFuel => exact absurd (bind_of_outOfFuel hp) hout
  | fault d c' => rw [hp] at h; rw [bind_of_fault hp]; exact h
  | done a c' =>
    rw [hp] at h
    rw [bind_of_done hp] at hout ⊢
    have hon := (hf a).onward c'
    cases hfa : f a c' with
    | outOfFuel => exact absurd hfa hout
    | fault d c'' =>
      rw [hfa] at hon
      exact (h.trans hon.faults).trans (List.prefix_append _ _)
    | done b c'' => rw [hfa] at hon; exact h.trans hon.faults

end Parser

namespace Gap

open LoxLang.Parser Grammar

variable {α β : Type} {g : Gap} {p : Parser α} {f : α → Parser β}

/-- The fault inside `p` is still the first one after `f`. -/
theorem outcome_inside {faults : Array Diagnostic} {what : Expectation} {b : β} {c c' : Cursor}
    (hf : ∀ a, Plain (f a)) (h : faults.toList ++ [g.fault what] <+: (p c).faults)
    (hlt : c'.rest.length < g.rest.length) : g.Outcome faults b c' ((p >>= f) c) := by
  by_cases hfuel : (p >>= f) c = .outOfFuel
  · rw [hfuel]; exact .outOfFuel
  · exact .inside what _ hlt (bind_faults hf h hfuel)

theorem Misses.bind (hp : g.Misses p) (hf : ∀ a, g.Misses (f a)) : g.Misses (p >>= f) where
  plain := hp.plain.bind fun a => (hf a).plain
  outcome := by
    intro c b c'' h hclean
    obtain ⟨a, c', ha, hb⟩ := bind_eq_done h
    have hpc := done_onward hp.plain ha
    have hfc := done_onward (hf a).plain hb
    have hout := hp.outcome c a c' ha (hpc.faults_eq hfc hclean)
    generalize hr : p (g.torn c) = r at hout
    cases hout with
    | before d hd hdfaults =>
      subst hd
      rw [bind_of_done hr]
      have hnext := (hf a).outcome d b c'' hb (by rw [hclean, hdfaults])
      rwa [hdfaults] at hnext
    | here what d hc' hd hend hdfaults =>
      rw [bind_of_fault hr]
      exact .of_suffix g what (hc' ▸ hfc.rest) (fun hc'' => .here what d hc'' hd hend hdfaults)
        (prefix_faults hdfaults _)
    | inside what _ hlt hprefix =>
      rw [← hr] at hprefix
      exact outcome_inside (fun a => (hf a).plain) hprefix (Nat.lt_of_le_of_lt hfc.rest.length_le hlt)
    | outOfFuel => rw [bind_of_outOfFuel hr]; exact .outOfFuel

theorem misses_pure (a : α) : g.Misses (Pure.pure a : Parser α) where
  plain := .pure a
  outcome := by
    rintro c _ _ ⟨⟩ _
    exact .before c rfl rfl

theorem Misses.map (hp : g.Misses p) (f : α → β) : g.Misses (f <$> p) := hp.bind fun _ => misses_pure _

theorem peeks_done (hpeeks : Peeks p) {c c' : Cursor} {a : α} (hrest : c.rest ≠ [])
    (h : p (g.whole c) = .done a c') : ∃ d, c' = g.whole d ∧ p (g.torn c) = .done a (g.torn d) := by
  rw [whole, hpeeks c _ _ hrest] at h
  rw [torn, hpeeks c _ _ hrest]
  cases hp : p c with
  | outOfFuel | fault => rw [hp] at h; cases h
  | done a d => rw [hp] at h; cases h; exact ⟨d, rfl, rfl⟩

theorem outcome_of_peeks (hpeeks : Peeks p) {c c' : Cursor} {a : α} (hrest : c.rest ≠ [])
    (h : p (g.whole c) = .done a c') (hclean : c'.faults = c.faults) :
    g.Outcome c.faults a c' (p (g.torn c)) := by
  obtain ⟨d, rfl, htorn⟩ := peeks_done hpeeks hrest h
  rw [htorn]
  exact .before d rfl hclean

/-- A first look finds a token, unless the semicolon comes first. -/
theorem misses_peeks (hp : Plain p) (hpeeks : Peeks p) (hf : ∀ a, g.Misses (f a))
    (hfirst : ∀ c b c', c.rest = [] → (p >>= f) (g.whole c) = .done b c' → c'.faults = c.faults →
      g.Outcome c.faults b c' ((p >>= f) (g.torn c))) : g.Misses (p >>= f) where
  plain := hp.bind fun a => (hf a).plain
  outcome := by
    intro c b c'' h hclean
    by_cases hrest : c.rest = []
    · exact hfirst c b c'' hrest h hclean
    obtain ⟨a, c', ha, hb⟩ := bind_eq_done h
    have hclean' := (done_onward hp ha).faults_eq (done_onward (hf a).plain hb) hclean
    obtain ⟨d, rfl, htorn⟩ := peeks_done hpeeks hrest ha
    have hd : d.faults = c.faults := hclean'
    rw [bind_of_done htorn, ← hd]
    exact (hf a).outcome d b c'' hb (by rw [hclean, hd])

theorem whole_ends {c : Cursor} (h : c.rest = []) :
    ∀ t ∈ (g.whole c).rest.head?, t.kind.endsExpression := by
  rw [g.whole_rest h]
  rintro _ ⟨⟩
  rw [g.isSemicolon]
  rfl

theorem whole_ne {c : Cursor} (h : c.rest = []) {kind : Kind} (hkind : kind ≠ .semicolon) :
    ∀ t ∈ (g.whole c).rest.head?, t.kind ≠ kind := by
  rw [g.whole_rest h]
  rintro _ ⟨⟩
  rw [g.isSemicolon]
  exact hkind.symm

theorem whole_accept? {c d : Cursor} {t? : Option Token} (h : c.rest = [])
    (ht : accept? .semicolon (g.whole c) = .done t? d) : t? = some g.semicolon ∧ d.rest = g.rest := by
  unfold accept? take? at ht
  rw [g.whole_rest h] at ht
  simp only [g.isSemicolon, if_true] at ht
  cases ht
  exact ⟨rfl, rfl⟩

theorem torn_ends {c : Cursor} (h : c.rest = []) :
    ∀ t ∈ (g.torn c).rest.head?, t.kind.endsExpression := by
  rw [g.torn_rest h]
  exact g.head_endsExpression

/-- What ends before the semicolon is read alike. -/
theorem misses_of_composed (h : Composed Kind.endsExpression p) : g.Misses p := by
  refine ⟨h.plain, ?_⟩
  induction h with
  | outOfFuel | fail => intro c a c' h; cases h
  | pure => exact (misses_pure _).outcome
  | bind hcp hcf hp hf => exact (Misses.bind ⟨hcp.plain, hp⟩ fun a => ⟨(hcf a).plain, hf a⟩).outcome
  | @take? _ h hends =>
    intro c a c' hdone hclean
    by_cases hrest : c.rest = []
    · rw [take?_eq_none fun t ht => hends t (whole_ends hrest t ht)] at hdone
      cases hdone
      rw [take?_eq_none fun t ht => hends t (torn_ends hrest t ht)]
      exact .before c rfl rfl
    · exact outcome_of_peeks (peeks_take? h) hrest hdone hclean
  | @nextIs kind hends =>
    intro c a c' hdone hclean
    have hne {t : Token} (ht : t.kind.endsExpression) : t.kind ≠ kind := by
      rintro rfl
      rw [ht] at hends
      cases hends
    by_cases hrest : c.rest = []
    · rw [nextIs_eq_false kind fun t ht => hne (whole_ends hrest t ht)] at hdone
      cases hdone
      rw [nextIs_eq_false kind fun t ht => hne (torn_ends hrest t ht)]
      exact .before c rfl rfl
    · exact outcome_of_peeks (peeks_nextIs kind) hrest hdone hclean
  | report d =>
    intro c a c' hdone hclean
    cases hdone
    exact absurd hclean record_faults_ne
  | limitCount count cause =>
    intro c a c' hdone hclean
    cases hdone
    by_cases hcount : count = maxArguments
    · rw [if_pos hcount] at hclean
      exact absurd hclean record_faults_ne
    · rw [if_neg hcount, limitCount, if_neg hcount]
      exact .before c rfl rfl
  | freshId =>
    intro c a c' hdone _
    cases hdone
    exact .before { c with nextId := c.nextId + 1 } rfl rfl
  | atEnd hnone => cases hnone .semicolon
  | recovering hnone => cases hnone .semicolon

theorem misses_expect (kind : Kind) (what : Expectation) : g.Misses (expect kind what) := by
  refine ⟨plain_expect kind what, ?_⟩
  intro c t c' h hclean
  obtain ⟨ts, hts, hkind, rfl⟩ := expect_eq_done h
  cases hrest : c.rest with
  | nil =>
    rw [g.whole_rest hrest] at hts
    obtain ⟨rfl, rfl⟩ := List.cons.inj hts
    have hne : ∀ t ∈ (g.torn c).rest.head?, t.kind ≠ kind := by
      rw [g.torn_rest hrest, ← hkind, g.isSemicolon]
      exact g.head_ne rfl (by decide)
    rw [expect_eq_fault what hne, g.faultHere (g.torn_rest hrest) rfl]
    exact .here what _ rfl (g.torn_rest hrest) rfl rfl
  | cons u us =>
    simp only [whole, Cursor.extend, hrest, List.cons_append] at hts
    obtain ⟨rfl, rfl⟩ := List.cons.inj hts
    have htorn : expect kind what (g.torn c) =
        .done u (g.torn { c with rest := us, line := u.line }) := by
      simp [expect, accept?, take?, Bind.bind, Parser.bind, Pure.pure, Parser.pure, torn,
        Cursor.extend, hrest, hkind]
    rw [htorn]
    exact .before { c with rest := us, line := u.line } rfl rfl

theorem misses_expression (n : Nat) : g.Misses (expression n) :=
  misses_of_composed (composedExpressions n).expression

theorem misses_varDeclaration (n : Nat) : g.Misses (varDeclaration n) :=
  (misses_expect _ _).bind fun _ => (misses_of_composed (built_initializer? n).composed).bind fun _ =>
    (misses_expect _ _).bind fun _ => misses_pure _

theorem misses_expressionStatement (n : Nat) : g.Misses (expressionStatement n) :=
  (misses_expression n).bind fun _ => (misses_expect _ _).bind fun _ => misses_pure _

theorem misses_printStatement (n line : Nat) : g.Misses (printStatement n line) :=
  (misses_expression n).bind fun _ => (misses_expect _ _).bind fun _ => misses_pure _

theorem whole_nextIs {c : Cursor} (h : c.rest = []) :
    nextIs .semicolon (g.whole c) = .done true (g.whole c) := by
  unfold nextIs
  rw [g.whole_rest h, List.head?_cons, Option.any_some, g.isSemicolon]
  rfl

theorem outcome_of_stuck {c c' : Cursor} {a : α} (h : Stuck p (g.torn c)) (hrest : c.rest = [])
    (hsuffix : c'.rest <:+ g.rest) : g.Outcome c.faults a c' (p (g.torn c)) := by
  rcases h with h | h
  · rw [h]; exact .outOfFuel
  · rw [h, g.faultHere (g.torn_rest hrest) rfl]
    refine .of_suffix g .expression hsuffix (fun h => .here _ _ h (g.torn_rest hrest) rfl rfl) ?_
    exact prefix_faults rfl _

/-- Where nothing stands before the semicolon, an expression is looked for in its place. -/
theorem misses_clause (n : Nat) (what : Expectation) {f : Option Expr → Parser β}
    (hf : ∀ e?, g.Misses (f e?)) :
    g.Misses (expressionBefore? n .semicolon >>= fun e? => expect .semicolon what >>= fun _ => f e?) := by
  have hrest (e? : Option Expr) : g.Misses (expect .semicolon what >>= fun _ => f e?) :=
    (misses_expect _ _).bind fun _ => hf e?
  unfold expressionBefore?
  rw [bind_assoc]
  refine misses_peeks (.nextIs rfl) (peeks_nextIs _) (fun b => ?_) ?_
  · cases b with
    | true => exact (misses_pure none).bind hrest
    | false => exact ((misses_expression n).map some).bind hrest
  · intro c b c'' hc h hclean
    rw [bind_of_done (whole_nextIs hc)] at h
    obtain ⟨_, _, hnone, h⟩ := bind_eq_done h
    cases hnone
    obtain ⟨t, c', ht, hb⟩ := bind_eq_done h
    obtain ⟨ts, hts, -, rfl⟩ := expect_eq_done ht
    rw [g.whole_rest hc] at hts
    obtain ⟨-, rfl⟩ := List.cons.inj hts
    refine outcome_of_stuck ?_ hc (done_onward (hf none).plain hb).rest
    rw [← bind_assoc]
    refine (stuck_expressionBefore? (torn_ends hc) n ?_).bind _
    rw [g.torn_rest hc]
    exact g.head_ne rfl (by decide)

theorem misses_returnStatement (n line : Nat) : g.Misses (returnStatement n line) :=
  misses_clause n _ fun _ => misses_pure _

def clauses (n : Nat) (initializer : Option Stmt) : Parser ForHead := do
  let condition ← expressionBefore? n .semicolon
  let _ ← expect .semicolon .semicolonAfterLoopCondition
  let increment ← expressionBefore? n .rightParen
  let _ ← expect .rightParen .parenAfterForClauses
  pure { initializer, condition, increment }

theorem misses_clauses (n : Nat) (initializer : Option Stmt) : g.Misses (clauses n initializer) := by
  refine misses_clause n _ fun condition => ?_
  have hbefore : Composed Kind.endsExpression (expressionBefore? n .rightParen) := by
    refine (Composed.nextIs rfl).bind fun b => ?_
    split
    · exact .pure none
    · exact (composedExpressions n).expression.map _
  exact (misses_of_composed hbefore).bind fun _ => (misses_expect _ _).bind fun _ => misses_pure _

theorem misses_forHead (n : Nat) : g.Misses (forHead n) := by
  refine (misses_expect .leftParen _).bind fun _ => ?_
  change g.Misses (forInitializer? n >>= clauses n)
  unfold forInitializer?
  rw [bind_assoc]
  refine misses_peeks (plain_accept? _) (peeks_take? _) (fun t? => ?_) ?_
  · cases t? with
    | some => exact (misses_pure none).bind (misses_clauses n)
    | none =>
      rw [bind_assoc]
      refine misses_peeks (plain_accept? _) (peeks_take? _) (fun t? => ?_) ?_
      · cases t? with
        | some => exact ((misses_varDeclaration n).map some).bind (misses_clauses n)
        | none => exact ((misses_expressionStatement n).map some).bind (misses_clauses n)
      · -- The initializer would start with the semicolon.
        intro c b c' hc h _
        rw [bind_of_done (accept?_eq_none .kwVar (whole_ne hc (by decide)))] at h
        exact absurd h (((stuck_expressionStatement (whole_ends hc) n).bind _).bind _).not_done
  · -- The semicolon would stand for the initializer, but then no clause could follow.
    intro c b c' hc h _
    obtain ⟨t?, d, ht, h⟩ := bind_eq_done h
    obtain ⟨rfl, hd⟩ := whole_accept? hc ht
    have hstuck : Stuck (expressionBefore? n .semicolon) d := by
      refine stuck_expressionBefore? ?_ n ?_
      · rw [hd]; exact g.head_endsExpression
      · rw [hd]; exact g.head_ne rfl (by decide)
    exact absurd h (hstuck.bind _).not_done

theorem stuck_statement {c : Cursor} (hc : c.rest = []) (n : Nat) : Stuck (statement n) (g.whole c) := by
  cases n with
  | zero => exact .inl rfl
  | succ n =>
    rw [statement]
    refine .after (take?_eq_none ?_) (stuck_expressionStatement (whole_ends hc) n)
    rw [g.whole_rest hc]
    rintro _ ⟨⟩
    rw [opening?, g.isSemicolon]
    rfl

end Gap

theorem Parser.recovering_faults {p : Parser α} {c : Cursor} (h : p c ≠ .outOfFuel) :
    (recovering p c).faults = (p c).faults := by
  unfold recovering
  cases hp : p c with
  | outOfFuel => exact absurd hp h
  | fault d c' => exact Array.toList_push
  | done a c' => rfl

namespace Gap

open LoxLang.Parser Grammar

variable {α β : Type} {g : Gap} {p : Parser α}

theorem stuck_declared {c : Cursor} (hc : c.rest = []) (n : Nat) : Stuck (declared n) (g.whole c) :=
  .after (accept?_eq_none .kwFun (whole_ne hc (by decide)))
    (.after (accept?_eq_none .kwVar (whole_ne hc (by decide))) (stuck_statement hc n))

/-- No declaration starts with the semicolon. -/
theorem declaration_whole {c c' : Cursor} {n : Nat} {s? : Option Stmt} (hc : c.rest = [])
    (h : declaration n (g.whole c) = .done s? c') : c'.faults ≠ c.faults := by
  intro hclean
  cases n with
  | zero => rw [declaration] at h; cases h
  | succ n =>
    rw [declaration_succ] at h
    obtain ⟨s, -, hs⟩ := recovering_done (assembled_declared n).plain h hclean
    exact (stuck_declared hc n).not_done hs

/-- After a recovery the fault is on record and `f` reads on, past the semicolon in any case. -/
theorem misses_recovering {f : Option α → Parser β} (hp : g.Misses p) (hf : ∀ a?, g.Misses (f a?))
    (hreads : ∀ a? c b c', f a? c = .done b c' → c'.rest.length < c.rest.length) :
    g.Misses (recovering p >>= f) where
  plain := (Composed.recovering (fun _ => rfl) hp.plain).bind fun a? => (hf a?).plain
  outcome := by
    intro c b c'' h hclean
    obtain ⟨a?, c', ha, hb⟩ := bind_eq_done h
    have hpc := done_onward (.recovering (fun _ => rfl) hp.plain) ha
    have hclean' : c'.faults = c.faults := hpc.faults_eq (done_onward (hf a?).plain hb) hclean
    obtain ⟨a, rfl, hbuilt⟩ := recovering_done hp.plain ha hclean'
    have hinside {what : Expectation} (hfuel : p (g.torn c) ≠ .outOfFuel)
        (h : c.faults.toList ++ [g.fault what] <+: (p (g.torn c)).faults)
        (hle : c'.rest.length ≤ g.rest.length) :
        g.Outcome c.faults b c'' ((recovering p >>= f) (g.torn c)) := by
      rw [← recovering_faults hfuel] at h
      exact outcome_inside (fun a? => (hf a?).plain) h (Nat.lt_of_lt_of_le (hreads _ _ _ _ hb) hle)
    have hout := hp.outcome c a c' hbuilt hclean'
    by_cases hfuel : p (g.torn c) = .outOfFuel
    · have hrec : recovering p (g.torn c) = .outOfFuel := by rw [recovering, hfuel]
      rw [bind_of_outOfFuel hrec]
      exact .outOfFuel
    generalize hr : p (g.torn c) = r at hout hfuel hinside
    cases hout with
    | before d hd hdfaults =>
      subst hd
      have hrec : recovering p (g.torn c) = .done (some a) (g.torn d) := by rw [recovering, hr]
      have hnext := (hf (some a)).outcome d b c'' hb (by rw [hclean, hdfaults])
      rw [bind_of_done hrec]
      rwa [hdfaults] at hnext
    | here what d hc' _ _ hdfaults =>
      exact hinside hfuel (prefix_faults hdfaults (g.fault what)) (Nat.le_of_eq (congrArg List.length hc'))
    | inside what _ hlt hprefix => exact hinside hfuel hprefix (Nat.le_of_lt hlt)
    | outOfFuel => exact absurd rfl hfuel

theorem peeks_blockEnds : Peeks blockEnds := by
  intro c us endLine h
  obtain ⟨t, ts, hrest⟩ := List.exists_cons_of_ne_nil h
  simp [blockEnds, atEnd, nextIs, Bind.bind, Parser.bind, Reading.extend, Cursor.extend, hrest]

theorem whole_blockEnds {c : Cursor} (h : c.rest = []) :
    blockEnds (g.whole c) = .done false (g.whole c) := by
  have hend : atEnd (g.whole c) = .done false (g.whole c) := by
    rw [atEnd, g.whole_rest h, List.isEmpty_cons]
  rw [blockEnds, bind_of_done hend]
  exact nextIs_eq_false _ (whole_ne h (by decide))

theorem block_reads {n : Nat} {c c' : Cursor} {ss : List Stmt} (h : block n c = .done ss c') :
    c'.rest.length < c.rest.length := by
  induction n generalizing c ss with
  | zero => rw [block] at h; cases h
  | succ n ih =>
    rw [block] at h
    obtain ⟨b, c₁, hb, h⟩ := bind_eq_done h
    have hle := (done_onward assembled_blockEnds.plain hb).rest.length_le
    cases b with
    | true =>
      obtain ⟨t, c₂, ht, h⟩ := bind_eq_done h
      obtain ⟨ts, hts, -, rfl⟩ := expect_eq_done ht
      cases h
      rw [hts, List.length_cons] at hle
      exact hle
    | false =>
      obtain ⟨s?, c₂, hs, h⟩ := bind_eq_done h
      obtain ⟨ss', c₃, hss, h⟩ := bind_eq_done h
      cases h
      have hdeclaration := (done_onward (assembledStatements n).declaration.plain hs).rest.length_le
      exact Nat.lt_of_lt_of_le (ih hss) (Nat.le_trans hdeclaration hle)

theorem misses_declared {n : Nat} (hstatement : g.Misses (statement n)) (hblock : g.Misses (block n)) :
    g.Misses (declared n) := by
  refine misses_peeks (plain_accept? _) (peeks_take? _) (fun t? => ?_) ?_
  · cases t? with
    | some =>
      exact (misses_of_composed (built_functionHead n).composed).bind fun _ => hblock.bind fun _ => misses_pure _
    | none =>
      refine misses_peeks (plain_accept? _) (peeks_take? _) (fun t? => ?_) ?_
      · cases t? with
        | some => exact misses_varDeclaration n
        | none => exact hstatement
      · intro c s c' hc h _
        rw [bind_of_done (accept?_eq_none .kwVar (whole_ne hc (by decide)))] at h
        exact absurd h (stuck_statement hc n).not_done
  · intro c s c' hc h _
    exact absurd h (stuck_declared hc n).not_done

structure MissesStatements (g : Gap) (n : Nat) : Prop where
  declaration {f : Option Stmt → Parser (List Stmt)} : (∀ s?, g.Misses (f s?)) →
    (∀ s? c ss c', f s? c = .done ss c' → c'.rest.length < c.rest.length) →
      g.Misses (declaration n >>= f)
  statement : g.Misses (statement n)
  elseBranch? : g.Misses (elseBranch? n)
  block : g.Misses (block n)

theorem misses_outOfFuel : g.Misses (outOfFuel : Parser α) := misses_of_composed .outOfFuel

theorem missesStatements (n : Nat) : MissesStatements g n := by
  induction n with
  | zero =>
    constructor
    · intro f hf _; rw [declaration]; exact misses_outOfFuel.bind hf
    · rw [statement]; exact misses_outOfFuel
    · rw [elseBranch?]; exact misses_outOfFuel
    · rw [block]; exact misses_outOfFuel
  | succ n ih =>
    constructor
    case declaration =>
      intro f hf hreads
      rw [declaration_succ]
      exact misses_recovering (misses_declared ih.statement ih.block) hf hreads
    case statement =>
      rw [statement]
      refine misses_peeks (plain_take? _) (peeks_take? _) (fun opening? => ?_) ?_
      · cases opening? with
        | none => exact misses_expressionStatement n
        | some head =>
          obtain ⟨opening, line⟩ := head
          cases opening with
          | print => exact misses_printStatement n line
          | branch =>
            exact (misses_of_composed (built_ifHead n).composed).bind fun _ => ih.statement.bind fun _ =>
              ih.elseBranch?.bind fun _ => misses_pure _
          | loop =>
            exact (misses_of_composed (built_whileHead n).composed).bind fun _ => ih.statement.bind fun _ =>
              misses_pure _
          | forLoop =>
            exact (misses_forHead n).bind fun _ => ih.statement.bind fun _ => misses_pure _
          | result => exact misses_returnStatement n line
          | block => exact ih.block.bind fun _ => misses_pure _
      · intro c s c' hc h _
        rw [← statement] at h
        exact absurd h (stuck_statement hc (n + 1)).not_done
    case elseBranch? =>
      rw [elseBranch?]
      refine (misses_of_composed (Composed.accept? rfl)).bind fun t? => ?_
      cases t? with
      | some => exact ih.statement.map some
      | none => exact misses_pure none
    case block =>
      rw [block]
      refine misses_peeks assembled_blockEnds.plain peeks_blockEnds (fun b => ?_) ?_
      · cases b with
        | true => exact (misses_expect _ _).bind fun _ => misses_pure []
        | false =>
          refine ih.declaration (fun s? => ih.block.bind fun _ => misses_pure _) ?_
          intro s? c ss c' h
          obtain ⟨_, _, hss, h⟩ := bind_eq_done h
          cases h
          exact block_reads hss
      · -- The block does not end here, and no declaration starts with the semicolon.
        intro c ss c' hc h hclean
        rw [bind_of_done (whole_blockEnds hc)] at h
        obtain ⟨s?, c₁, hs, h⟩ := bind_eq_done h
        have hdeclaration := done_onward (assembledStatements n).declaration.plain hs
        have hblock := done_onward ((assembledStatements n).block.plain.bind fun _ => .pure _) h
        have hsame : c₁.faults = c.faults := hdeclaration.faults_eq hblock hclean
        exact absurd hsame (declaration_whole hc hs)

/-- A declaration that ends before the semicolon is built in any case. One that holds the semicolon has a
fault without it; and if it ends with the semicolon, it is dropped, and reading resumes behind the token at
which the fault was found. -/
theorem declaration_torn {n : Nat} {c c' d' : Cursor} {s? s?' : Option Stmt}
    (h : declaration n (g.whole c) = .done s? c') (hclean : c'.faults = c.faults)
    (htorn : declaration n (g.torn c) = .done s?' d') :
    (∃ d, c' = g.whole d ∧ d.faults = c.faults ∧ s?' = s? ∧ d' = g.torn d) ∨
      c'.rest.length ≤ g.rest.length ∧ ∃ what, c.faults.toList ++ [g.fault what] <+: d'.faults.toList ∧
        (c'.rest = g.rest → s?' = none ∧ ∃ d : Cursor, d.rest = g.rest ∧ d.endLine = some g.endLine ∧
          d.faults = c.faults ∧ d' = (d.record (g.fault what)).skipStatement) := by
  cases n with
  | zero => rw [declaration] at h; cases h
  | succ n =>
    rw [declaration_succ] at h htorn
    obtain ⟨s, rfl, hs⟩ := recovering_done (assembled_declared n).plain h hclean
    have hmisses := misses_declared (missesStatements (g := g) n).statement (missesStatements n).block
    have hout := hmisses.outcome c s c' hs hclean
    have hfuel : declared n (g.torn c) ≠ .outOfFuel := by
      intro hfuel
      rw [recovering, hfuel] at htorn
      cases htorn
    have hfaults : d'.faults.toList = (declared n (g.torn c)).faults := by
      rw [← recovering_faults hfuel, htorn]
      rfl
    generalize hr : declared n (g.torn c) = r at hout hfaults
    rw [recovering, hr] at htorn
    cases hout with
    | before d hd hdfaults => cases htorn; exact .inl ⟨d, hd, hdfaults, rfl, rfl⟩
    | here what d hc' hd hend hdfaults =>
      refine .inr ⟨Nat.le_of_eq (congrArg List.length hc'), what, ?_, fun _ => ?_⟩
      · rw [hfaults]
        exact prefix_faults hdfaults _
      · cases htorn
        exact ⟨rfl, d, hd, hend, hdfaults, rfl⟩
    | inside what _ hlt hprefix =>
      refine .inr ⟨Nat.le_of_lt hlt, what, ?_, fun hc' => ?_⟩
      · rw [hfaults]
        exact hprefix
      · rw [hc'] at hlt
        exact absurd hlt (Nat.lt_irrefl _)
    | outOfFuel => exact absurd hr hfuel

end Gap
end LoxLang
