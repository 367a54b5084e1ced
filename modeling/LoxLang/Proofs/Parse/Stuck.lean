import LoxLang.Proofs.Parse.Composed

/-!
What finds no token to take: a look ahead leaves the cursor where it is, and an expression is stuck at once.
-/
namespace LoxLang
namespace Parser

variable {α β : Type} {p : Parser α} {f : α → Parser β}

theorem take?_eq_none {g : Token → Option α} {c : Cursor} (h : ∀ t ∈ c.rest.head?, g t = none) :
    take? g c = .done none c := by
  unfold take?
  cases hrest : c.rest with
  | nil => rfl
  | cons t ts => rw [hrest] at h; simp only [h t rfl]

theorem take?_eq_done_none {g : Token → Option α} {c c' : Cursor} (h : take? g c = .done none c') :
    c' = c := by
  unfold take? at h
  cases hrest : c.rest with
  | nil => rw [hrest] at h; cases h; rfl
  | cons t ts =>
    rw [hrest] at h
    cases hg : g t with
    | none => simp only [hg] at h; cases h; rfl
    | some b => simp only [hg] at h; cases h

theorem take?_eq_done_some {g : Token → Option α} {c c' : Cursor} {a : α}
    (h : take? g c = .done (some a) c') :
    ∃ t ts, c.rest = t :: ts ∧ g t = some a ∧ c' = { c with rest := ts, line := t.line } := by
  unfold take? at h
  cases hrest : c.rest with
  | nil => rw [hrest] at h; cases h
  | cons t ts =>
    rw [hrest] at h
    cases hg : g t with
    | none => simp only [hg] at h; cases h
    | some b => simp only [hg] at h; cases h; exact ⟨t, ts, rfl, hg, rfl⟩

theorem accept?_eq_none (kind : Kind) {c : Cursor} (h : ∀ t ∈ c.rest.head?, t.kind ≠ kind) :
    accept? kind c = .done none c :=
  take?_eq_none fun t ht => if_neg (h t ht)

theorem nextIs_eq_false (kind : Kind) {c : Cursor} (h : ∀ t ∈ c.rest.head?, t.kind ≠ kind) :
    nextIs kind c = .done false c := by
  unfold nextIs
  cases hrest : c.rest with
  | nil => rfl
  | cons t ts => rw [hrest] at h; simp [h t rfl]

theorem expect_eq_fault {kind : Kind} {c : Cursor} (what : Expectation)
    (h : ∀ t ∈ c.rest.head?, t.kind ≠ kind) :
    expect kind what c = .fault (c.faultHere (.expected what)) c :=
  bind_of_done (accept?_eq_none kind h)

/-- No expression is ahead: `p` fails for want of one, unless its fuel runs out. -/
def Stuck (p : Parser α) (c : Cursor) : Prop :=
  p c = .outOfFuel ∨ p c = .fault (c.faultHere (.expected .expression)) c

theorem Stuck.bind {c : Cursor} (h : Stuck p c) (f : α → Parser β) : Stuck (p >>= f) c :=
  h.imp bind_of_outOfFuel bind_of_fault

theorem Stuck.after {c : Cursor} {a : α} (h : p c = .done a c) (hf : Stuck (f a) c) :
    Stuck (p >>= f) c := by
  rw [Stuck, bind_of_done h]
  exact hf

theorem Stuck.not_done {c c' : Cursor} {a : α} (h : Stuck p c) : p c ≠ .done a c' := by
  intro hp
  rw [Stuck, hp] at h
  rcases h with h | h <;> cases h

section Stuck

variable {c : Cursor} (hc : ∀ t ∈ c.rest.head?, t.kind.endsExpression)

include hc

theorem stuck_primary (n : Nat) : Stuck (primary n) c := by
  have hne (kind : Kind) (hkind : kind.endsExpression = false) : ∀ t ∈ c.rest.head?, t.kind ≠ kind := by
    rintro t ht rfl
    rw [hc t ht] at hkind
    cases hkind
  cases n with
  | zero => exact .inl rfl
  | succ n =>
    rw [primary]
    exact .after (take?_eq_none fun t ht => ofConstant?_endsExpression t (hc t ht))
      (.after (accept?_eq_none .identifier (hne _ rfl))
        (.after (accept?_eq_none .leftParen (hne _ rfl)) (.inr rfl)))

theorem stuck_operands (n : Nat) (level : Level) : Stuck (operands n level) c := by
  induction n generalizing level with
  | zero => left; rw [operands]; rfl
  | succ n ih =>
    by_cases hl : level = .unary
    · subst hl
      rw [operands]
      exact .after (take?_eq_none fun t ht => unaryNode?_endsExpression t (hc t ht))
        ((stuck_primary hc n).bind _)
    · rw [operands.eq_3 _ _ hl]
      exact (ih _).bind _

theorem stuck_expression (n : Nat) : Stuck (expression n) c := by
  cases n with
  | zero => exact .inl rfl
  | succ n => rw [expression]; exact (stuck_operands hc n .or).bind _

theorem stuck_expressionStatement (n : Nat) : Stuck (expressionStatement n) c :=
  (stuck_expression hc n).bind _

theorem stuck_expressionBefore? (n : Nat) {closing : Kind}
    (hclosing : ∀ t ∈ c.rest.head?, t.kind ≠ closing) : Stuck (expressionBefore? n closing) c :=
  .after (nextIs_eq_false closing hclosing) ((stuck_expression hc n).bind _)

end Stuck

end Parser
end LoxLang
