import LoxLang.Proofs.Parse.Numbering

/-!
The fuel of a parse lasts: from one token to the next a parser goes less than sixteen levels down.
-/
namespace LoxLang
namespace Parser

/-- From `c` on `p` does not run out of fuel, and to be done it takes `k` tokens at least. -/
def EndsFrom (c : Cursor) (k : Nat) (p : Parser α) : Prop :=
  match p c with
  | .outOfFuel => False
  | .fault _ c' => c'.rest.length ≤ c.rest.length
  | .done _ c' => c'.rest.length + k ≤ c.rest.length

def Ends (bound k : Nat) (p : Parser α) : Prop :=
  ∀ c, c.rest.length ≤ bound → EndsFrom c k p

section Rules
variable {α β : Type} {bound k l : Nat}

theorem EndsFrom.of_done {p : Parser α} {a : α} {c c' : Cursor} (hp : p c = .done a c')
    (hc : c'.rest.length + k ≤ c.rest.length) : EndsFrom c k p := by
  rw [EndsFrom, hp]
  exact hc

/-- What comes after a part that is done. -/
theorem EndsFrom.bind_done {p : Parser α} {f : α → Parser β} {a : α} {c c' : Cursor}
    (hp : p c = .done a c') (hc : c'.rest.length + k ≤ c.rest.length)
    (hf : EndsFrom c' (l - k) (f a)) : EndsFrom c l (p >>= f) := by
  simp only [EndsFrom, Bind.bind, Parser.bind, hp] at hf ⊢
  cases h : f a c' with
  | outOfFuel => simp [h] at hf
  | fault d c'' => simp only [h] at hf; omega
  | done b c'' => simp only [h] at hf; omega

theorem EndsFrom.bind_stay {p : Parser α} {f : α → Parser β} {a : α} {c : Cursor}
    (hp : p c = .done a c) (hf : EndsFrom c l (f a)) : EndsFrom c l (p >>= f) :=
  .bind_done (k := 0) hp (Nat.le_refl _) hf

theorem Ends.pure (bound : Nat) (a : α) : Ends bound 0 (Pure.pure a : Parser α) :=
  fun _ _ => Nat.le_refl _

theorem Ends.fail (bound k : Nat) (cause : Cause) : Ends bound k (fail cause : Parser α) :=
  fun _ _ => Nat.le_refl _

theorem Ends.bind {p : Parser α} {f : α → Parser β} (hp : Ends bound k p)
    (hf : ∀ a, k ≤ bound → Ends (bound - k) (l - k) (f a)) : Ends bound l (p >>= f) := by
  intro c hc
  have hp := hp c hc
  cases h : p c with
  | outOfFuel => simp [EndsFrom, h] at hp
  | fault d c' => simpa [EndsFrom, Bind.bind, Parser.bind, h] using hp
  | done a c' =>
    simp only [EndsFrom, h] at hp
    exact .bind_done h hp (hf a (by omega) c' (by omega))

theorem Ends.weaken {p : Parser α} (h : Ends bound k p) (hl : l ≤ k) : Ends bound l p := by
  intro c hc
  have h := h c hc
  unfold EndsFrom at *
  cases hp : p c with
  | outOfFuel => simp [hp] at h
  | fault d c' => simpa [hp] using h
  | done a c' => simp only [hp] at h; dsimp only; omega

theorem Ends.map {p : Parser α} (f : α → β) (h : Ends bound k p) : Ends bound k (f <$> p) :=
  h.bind fun a _ => by
    rw [Nat.sub_self]
    exact .pure _ (f a)

theorem ends_take? {f : Token → Option α} {g : Option α → Parser β}
    (hsome : ∀ a, 0 < bound → Ends (bound - 1) (k - 1) (g (some a))) (hnone : Ends bound k (g none)) :
    Ends bound k (take? f >>= g) := by
  intro c hc
  cases hrest : c.rest with
  | nil =>
    have hstay : take? f c = .done none c := by simp [take?, hrest]
    exact .bind_stay hstay (hnone c hc)
  | cons t rest =>
    cases hf : f t with
    | none =>
      have hstay : take? f c = .done none c := by simp [take?, hrest, hf]
      exact .bind_stay hstay (hnone c hc)
    | some a =>
      have hstep : take? f c = .done (some a) { c with rest, line := t.line } := by
        simp [take?, hrest, hf]
      rw [hrest, List.length_cons] at hc
      refine .bind_done hstep (k := 1) (by simp [hrest]) (hsome a (by omega) _ ?_)
      exact Nat.le_sub_one_of_lt hc

theorem ends_accept? {kind : Kind} {g : Option Token → Parser β}
    (hsome : ∀ t, 0 < bound → Ends (bound - 1) (k - 1) (g (some t))) (hnone : Ends bound k (g none)) :
    Ends bound k (accept? kind >>= g) :=
  ends_take? hsome hnone

theorem ends_expect (bound : Nat) (kind : Kind) (what : Expectation) :
    Ends bound 1 (expect kind what) :=
  ends_accept? (fun t _ => .pure _ t) (.fail _ _ _)

theorem ends_nextIs (bound : Nat) (kind : Kind) : Ends bound 0 (nextIs kind) :=
  fun _ _ => Nat.le_refl _

theorem ends_limitCount (bound count : Nat) (cause : Cause) : Ends bound 0 (limitCount count cause) := by
  intro c _
  refine .of_done rfl ?_
  split <;> exact Nat.le_refl _

theorem ends_freshId (bound : Nat) : Ends bound 0 freshId := fun _ _ => Nat.le_refl _

end Rules

theorem ends_assignment (bound : Nat) (equals : Token) (target value : Expr) :
    Ends bound 0 (assignment equals target value) := by
  unfold assignment
  split
  · exact .pure _ _
  · exact fun _ _ => Nat.le_refl _

def depth : Level → Nat
  | .or => 8
  | .and => 7
  | .equality => 6
  | .comparison => 5
  | .term => 4
  | .factor => 3
  | .unary => 2

theorem depth_tighter {level : Level} (h : level ≠ .unary) : depth level.tighter + 1 = depth level := by
  cases level <;> first | rfl | exact absurd rfl h

theorem depth_le (level : Level) : depth level ≤ 8 := by cases level <;> decide

structure EndsExpressions (n : Nat) : Prop where
  expression {b : Nat} : 16 * b + 9 ≤ n → Ends b 1 (expression n)
  operands {b : Nat} (level : Level) : 16 * b + depth level ≤ n → Ends b 1 (operands n level)
  operators {b : Nat} (level : Level) (left : Expr) : 16 * b + 1 ≤ n → Ends b 0 (operators n level left)
  calls {b : Nat} (callee : Expr) : 16 * b + 1 ≤ n → Ends b 0 (calls n callee)
  argumentList {b : Nat} : 16 * b + 11 ≤ n → Ends b 0 (argumentList n)
  arguments {b : Nat} (count : Nat) : 16 * b + 10 ≤ n → Ends b 1 (arguments n count)
  primary {b : Nat} : 16 * b + 1 ≤ n → Ends b 1 (primary n)

theorem endsExpressions (n : Nat) : EndsExpressions n := by
  induction n with
  | zero =>
    constructor
    case operands => intro b level hb; cases level <;> simp [depth] at hb
    all_goals intros; omega
  | succ n ih =>
    constructor
    case expression =>
      intro b hb
      rw [expression]
      refine (ih.operands .or (by simp only [depth]; omega)).bind fun target h1 => ?_
      refine ends_accept? (fun equals h2 => ?_) (.pure _ _)
      exact (ih.expression (by omega)).bind fun value _ => ends_assignment _ equals target value
    case operands =>
      intro b level hb
      by_cases hl : level = .unary
      · subst hl
        simp only [depth] at hb
        rw [operands]
        refine ends_take? (fun node h => ?_) ?_
        · exact ((ih.operands .unary (by simp only [depth]; omega)).map node).weaken (by omega)
        · exact (ih.primary (by omega)).bind fun e h => ih.calls e (by omega)
      · have := depth_tighter hl
        rw [operands.eq_3 _ _ hl]
        exact (ih.operands _ (by omega)).bind fun e h => ih.operators level e (by omega)
    case operators =>
      intro b level left hb
      have := depth_le level.tighter
      rw [operators]
      refine ends_take? (fun join h => ?_) (.pure _ _)
      exact (ih.operands _ (by omega)).bind fun right h' => ih.operators level _ (by omega)
    case calls =>
      intro b callee hb
      rw [calls]
      refine ends_accept? (fun _ h => ?_) (.pure _ _)
      refine (ih.argumentList (by omega)).bind fun args _ => (ends_expect _ _ _).bind fun paren h' => ?_
      exact ih.calls _ (by omega)
    case argumentList =>
      intro b hb
      rw [argumentList]
      refine (ends_nextIs _ _).bind fun closes _ => ?_
      split
      · exact .pure _ _
      · exact (ih.arguments 0 (by omega)).weaken (by omega)
    case arguments =>
      intro b count hb
      rw [arguments]
      refine (ends_limitCount _ _ _).bind fun _ _ => (ih.expression (by omega)).bind fun e h => ?_
      refine ends_accept? (fun _ h' => ?_) (.pure _ _)
      exact ((ih.arguments _ (by omega)).map _).weaken (by omega)
    case primary =>
      intro b hb
      rw [primary]
      refine ends_take? (fun e h => .pure _ _) (ends_accept? (fun t h => ?_) ?_)
      · exact (ends_freshId _).bind fun id _ => .pure _ _
      · refine ends_accept? (fun paren h => ?_) (.fail _ _ _)
        exact (ih.expression (by omega)).bind fun e h' => (ends_expect _ _ _).bind fun _ _ => by
          simpa using Ends.pure _ _

theorem ends_initializer? {n b : Nat} (h : 16 * b + 9 ≤ n) : Ends b 0 (initializer? n) :=
  ends_accept? (fun _ _ => (((endsExpressions n).expression (by omega)).map _).weaken (by omega))
    (.pure _ _)

theorem ends_varDeclaration {n b : Nat} (h : 16 * b + 9 ≤ n) : Ends b 1 (varDeclaration n) :=
  (ends_expect _ _ _).bind fun _ _ => (ends_initializer? (by omega)).bind fun _ _ =>
    (ends_expect _ _ _).bind fun _ _ => .pure _ _

theorem ends_expressionStatement {n b : Nat} (h : 16 * b + 9 ≤ n) :
    Ends b 1 (expressionStatement n) :=
  ((endsExpressions n).expression h).bind fun _ _ => (ends_expect _ _ _).bind fun _ _ => .pure _ _

theorem ends_printStatement {n b : Nat} (line : Nat) (h : 16 * b + 9 ≤ n) :
    Ends b 1 (printStatement n line) :=
  ((endsExpressions n).expression h).bind fun _ _ => (ends_expect _ _ _).bind fun _ _ => .pure _ _

theorem ends_expressionBefore? {n b : Nat} (closing : Kind) (h : 16 * b + 9 ≤ n) :
    Ends b 0 (expressionBefore? n closing) := by
  refine (ends_nextIs _ _).bind fun closes _ => ?_
  split
  · exact .pure _ _
  · exact (((endsExpressions n).expression h).map _).weaken (by omega)

theorem ends_returnStatement {n b : Nat} (line : Nat) (h : 16 * b + 9 ≤ n) :
    Ends b 0 (returnStatement n line) :=
  (ends_expressionBefore? _ h).bind fun _ _ => (ends_expect _ _ _).bind fun _ _ => .pure _ _

theorem ends_ifHead {n b : Nat} (h : 16 * b + 9 ≤ n) : Ends b 0 (ifHead n) :=
  (ends_expect _ _ _).bind fun _ _ => ((endsExpressions n).expression (by omega)).bind fun _ _ =>
    (ends_expect _ _ _).bind fun _ _ => .pure _ _

theorem ends_whileHead {n b : Nat} (h : 16 * b + 9 ≤ n) : Ends b 0 (whileHead n) :=
  (ends_expect _ _ _).bind fun _ _ => ((endsExpressions n).expression (by omega)).bind fun _ _ =>
    (ends_expect _ _ _).bind fun _ _ => .pure _ _

theorem ends_forInitializer? {n b : Nat} (h : 16 * b + 9 ≤ n) : Ends b 0 (forInitializer? n) :=
  ends_accept? (fun _ _ => .pure _ _)
    (ends_accept? (fun _ _ => ((ends_varDeclaration (by omega)).map _).weaken (by omega))
      (((ends_expressionStatement h).map _).weaken (by omega)))

theorem ends_forHead {n b : Nat} (h : 16 * b + 9 ≤ n) : Ends b 0 (forHead n) :=
  (ends_expect _ _ _).bind fun _ _ => (ends_forInitializer? (by omega)).bind fun _ _ =>
    (ends_expressionBefore? _ (by omega)).bind fun _ _ => (ends_expect _ _ _).bind fun _ _ =>
      (ends_expressionBefore? _ (by omega)).bind fun _ _ => (ends_expect _ _ _).bind fun _ _ =>
        .pure _ _

theorem ends_parameters {n b : Nat} (count : Nat) (h : 16 * b + 1 ≤ n) :
    Ends b 0 (parameters n count) := by
  induction n generalizing b count with
  | zero => omega
  | succ n ih =>
    rw [parameters]
    refine (ends_limitCount _ _ _).bind fun _ _ => (ends_expect _ _ _).bind fun _ _ => ?_
    refine ends_accept? (fun _ h' => ?_) (.pure _ _)
    exact (ih _ (by omega)).map _

theorem ends_parameterList {n b : Nat} (h : 16 * b + 9 ≤ n) : Ends b 0 (parameterList n) := by
  refine (ends_nextIs _ _).bind fun closes _ => ?_
  split
  · exact .pure _ _
  · exact ends_parameters 0 (by omega)

theorem ends_functionHead {n b : Nat} (h : 16 * b + 9 ≤ n) : Ends b 0 (functionHead n) :=
  (ends_expect _ _ _).bind fun _ _ => (ends_expect _ _ _).bind fun _ _ =>
    (ends_parameterList (by omega)).bind fun _ _ => (ends_expect _ _ _).bind fun _ _ =>
      (ends_expect _ _ _).bind fun _ _ => .pure _ _

def Advances (bound : Nat) (p : Parser α) : Prop :=
  ∀ c, c.rest.length ≤ bound → ∃ a c', p c = .done a c' ∧ c'.rest.length ≤ c.rest.length - 1

theorem Ends.advances {bound : Nat} {p : Parser α} (h : Ends bound 1 p) :
    Advances bound (recovering p) := by
  intro c hc
  have h := h c hc
  unfold recovering
  cases hp : p c with
  | outOfFuel => simp [EndsFrom, hp] at h
  | fault d c' =>
    simp only [EndsFrom, hp] at h
    refine ⟨none, _, rfl, ?_⟩
    have hskip : (Cursor.skipTokens c'.rest c'.line).1.length ≤ c'.rest.length - 1 := by
      cases hrest : c'.rest with
      | nil => simp [Cursor.skipTokens]
      | cons t rest =>
        unfold Cursor.skipTokens
        split
        · simp
        · simpa using (Cursor.skipTokens_suffix rest t.line).length_le
    exact Nat.le_trans hskip (by omega)
  | done a c' =>
    simp only [EndsFrom, hp] at h
    exact ⟨some a, c', rfl, by omega⟩

section Declarations
variable {α β : Type} {bound k l : Nat}

theorem ends_blockEnds {g : Bool → Parser β} (htrue : Ends bound k (g true))
    (hfalse : ∀ c : Cursor, c.rest.length ≤ bound → c.rest ≠ [] → EndsFrom c k (g false)) :
    Ends bound k (blockEnds >>= g) := by
  intro c hc
  cases hrest : c.rest with
  | nil =>
    have h : blockEnds c = .done true c := by
      simp only [blockEnds, atEnd, Bind.bind, Parser.bind, hrest, List.isEmpty_nil, if_true]
      rfl
    exact .bind_stay h (htrue c hc)
  | cons t rest =>
    have h : blockEnds c = .done (t.kind = .rightBrace) c := by
      simp [blockEnds, atEnd, nextIs, Bind.bind, Parser.bind, hrest]
    refine .bind_stay h ?_
    by_cases hk : t.kind = .rightBrace
    · simpa [hk] using htrue c hc
    · simpa [hk] using hfalse c hc (by simp [hrest])

theorem ends_atEnd {g : Bool → Parser β} (htrue : Ends bound k (g true))
    (hfalse : ∀ c : Cursor, c.rest.length ≤ bound → c.rest ≠ [] → EndsFrom c k (g false)) :
    Ends bound k (atEnd >>= g) := by
  intro c hc
  cases hrest : c.rest with
  | nil =>
    have h : atEnd c = .done true c := by simp [atEnd, hrest]
    exact .bind_stay h (htrue c hc)
  | cons t rest =>
    have h : atEnd c = .done false c := by simp [atEnd, hrest]
    exact .bind_stay h (hfalse c hc (by simp [hrest]))

/-- Where a token is ahead, a declaration takes it. -/
theorem Advances.bind {p : Parser α} {f : α → Parser β} {c : Cursor} (h : Advances bound p)
    (hc : c.rest.length ≤ bound) (hrest : c.rest ≠ [])
    (hf : ∀ a, 0 < bound → Ends (bound - 1) (l - 1) (f a)) : EndsFrom c l (p >>= f) := by
  obtain ⟨a, c', hp, hc'⟩ := h c hc
  have hpos : 0 < c.rest.length := List.length_pos_iff.mpr hrest
  exact .bind_done hp (k := 1) (by omega) (hf a (by omega) c' (by omega))

end Declarations

structure EndsStatements (n : Nat) : Prop where
  declaration {b : Nat} : 16 * b + 11 ≤ n → Advances b (declaration n)
  statement {b : Nat} : 16 * b + 10 ≤ n → Ends b 1 (statement n)
  elseBranch? {b : Nat} : 16 * b + 1 ≤ n → Ends b 0 (elseBranch? n)
  block {b : Nat} : 16 * b + 12 ≤ n → Ends b 1 (block n)

theorem endsStatements (n : Nat) : EndsStatements n := by
  induction n with
  | zero => constructor <;> intros <;> omega
  | succ n ih =>
    constructor
    case declaration =>
      intro b hb
      rw [declaration]
      refine Ends.advances (ends_accept? (fun _ h => ?_) ?_)
      · exact (ends_functionHead (by omega)).bind fun head _ =>
          (ih.block (by omega)).bind fun body _ => .pure _ _
      · exact ends_accept? (fun _ h => (ends_varDeclaration (by omega)).weaken (by omega))
          (ih.statement (by omega))
    case statement =>
      intro b hb
      rw [statement]
      refine ends_take? (fun opening h => ?_) (ends_expressionStatement (by omega))
      obtain ⟨opening, line⟩ := opening
      cases opening with
      | print => exact (ends_printStatement line (by omega)).weaken (by omega)
      | branch =>
        exact (ends_ifHead (by omega)).bind fun condition _ => (ih.statement (by omega)).bind
          fun thenBranch _ => (ih.elseBranch? (by omega)).bind fun elseBranch _ => .pure _ _
      | loop =>
        exact (ends_whileHead (by omega)).bind fun condition _ => (ih.statement (by omega)).bind
          fun body _ => .pure _ _
      | forLoop =>
        exact (ends_forHead (by omega)).bind fun head _ => (ih.statement (by omega)).bind
          fun body _ => .pure _ _
      | result => exact ends_returnStatement line (by omega)
      | block => exact (ih.block (by omega)).bind fun body _ => .pure _ _
    case elseBranch? =>
      intro b hb
      rw [elseBranch?]
      exact ends_accept? (fun _ h => ((ih.statement (by omega)).map _).weaken (by omega)) (.pure _ _)
    case block =>
      intro b hb
      rw [block]
      refine ends_blockEnds ((ends_expect _ _ _).bind fun _ _ => .pure _ _) fun c hc hrest => ?_
      refine (ih.declaration (by omega)).bind hc hrest fun s? h => ?_
      exact ((ih.block (by omega)).map _).weaken (by omega)

theorem ends_program {n b : Nat} (h : 16 * b + 12 ≤ n) : Ends b 0 (program n) := by
  induction n generalizing b with
  | zero => omega
  | succ n ih =>
    rw [program]
    refine ends_atEnd (.pure _ _) fun c hc hrest => ?_
    refine ((endsStatements n).declaration (by omega)).bind hc hrest fun s? h => ?_
    exact (ih (by omega)).map _

end Parser

theorem Parser.ne_outOfFuel_of_le {n : Nat} {c : Cursor} (h : 16 * c.rest.length + 12 ≤ n) :
    Parser.program n c ≠ .outOfFuel := by
  intro hout
  have hends := Parser.ends_program h c (Nat.le_refl _)
  simp [Parser.EndsFrom, hout] at hends

/-- No parse runs out of fuel. -/
theorem Parser.program_ne_outOfFuel (tokens : List Token) (firstId : NodeId) :
    Parser.program (Parser.fuel tokens) (Cursor.start tokens firstId) ≠ .outOfFuel := by
  have hlen : (Cursor.start tokens firstId).rest.length ≤ tokens.length :=
    (List.takeWhile_sublist _).length_le
  exact Parser.ne_outOfFuel_of_le (by unfold Parser.fuel; omega)

end LoxLang
