import LoxLang.Proofs.Parse.Composed

/-!
What reads statements is built of expressions and of a few steps. What holds of these and of their sequence
holds of every such parser.
-/
namespace LoxLang
namespace Parser

/-- Built of expressions and of steps that treat a token of a kind in `ends` as they treat the end. -/
inductive Built (ends : Kind → Bool) : {α : Type} → Parser α → Prop where
  | outOfFuel {α : Type} : Built ends (outOfFuel : Parser α)
  | pure {α : Type} (a : α) : Built ends (Pure.pure a : Parser α)
  | fail {α : Type} (cause : Cause) : Built ends (fail cause : Parser α)
  | bind {α β : Type} {p : Parser α} {f : α → Parser β} :
    Built ends p → (∀ a, Built ends (f a)) → Built ends (p >>= f)
  | take? {α : Type} {f : Token → Option α} :
    (∀ t, ends t.kind → f t = none) → Built ends (take? f)
  | nextIs {kind : Kind} : ends kind = false → Built ends (nextIs kind)
  | limitCount (count : Nat) (cause : Cause) : Built ends (limitCount count cause)
  | expression (n : Nat) : (∀ k, ends k → k.endsExpression) → Built ends (expression n)
  | atEnd : (∀ k, ends k = false) → Built ends atEnd
  | recovering {α : Type} {p : Parser α} :
    (∀ k, ends k = false) → Built ends p → Built ends (recovering p)

abbrev Assembled (p : Parser α) : Prop := Built (fun _ => false) p

namespace Built

variable {α β : Type} {ends : Kind → Bool} {p : Parser α}

theorem map (hp : Built ends p) (f : α → β) : Built ends (f <$> p) := hp.bind fun _ => .pure _

theorem accept? {kind : Kind} (h : ends kind = false) : Built ends (accept? kind) :=
  .take? fun t ht => if_neg fun hk => by rw [hk, h] at ht; cases ht

theorem expect {kind : Kind} (h : ends kind = false) (what : Expectation) :
    Built ends (expect kind what) :=
  (Built.accept? h).bind fun
    | some t => .pure t
    | none => .fail _

theorem composed (h : Built ends p) : Composed ends p := by
  induction h with
  | outOfFuel => exact .outOfFuel
  | pure a => exact .pure a
  | fail cause => exact .fail cause
  | bind _ _ hp hf => exact .bind hp hf
  | take? hf => exact .take? hf
  | nextIs hk => exact .nextIs hk
  | limitCount count cause => exact .limitCount count cause
  | expression n hle => exact (composedExpressions n).expression.mono hle
  | atEnd hnone => exact .atEnd hnone
  | recovering hnone _ hp => exact .recovering hnone hp

theorem plain (h : Built ends p) : Plain p := h.composed.plain

theorem assembled (h : Built ends p) : Assembled p := by
  induction h with
  | outOfFuel => exact .outOfFuel
  | pure a => exact .pure a
  | fail cause => exact .fail cause
  | bind _ _ hp hf => exact .bind hp hf
  | take? => exact .take? fun _ ht => by cases ht
  | nextIs => exact .nextIs rfl
  | limitCount count cause => exact .limitCount count cause
  | expression n => exact .expression n fun _ hk => by cases hk
  | atEnd => exact .atEnd fun _ => rfl
  | recovering _ _ hp => exact .recovering (fun _ => rfl) hp

end Built

theorem assembled_take? (f : Token → Option α) : Assembled (take? f) := .take? fun _ ht => by cases ht

theorem assembled_accept? (kind : Kind) : Assembled (accept? kind) := .accept? rfl

theorem assembled_expect (kind : Kind) (what : Expectation) : Assembled (expect kind what) :=
  .expect rfl what

theorem built_expression (n : Nat) : Built Kind.endsExpression (expression n) :=
  .expression n fun _ hk => hk

theorem built_initializer? (n : Nat) : Built Kind.endsExpression (initializer? n) :=
  (Built.accept? rfl).bind fun
    | some _ => (built_expression n).map _
    | none => .pure none

theorem built_ifHead (n : Nat) : Built Kind.endsExpression (ifHead n) :=
  (Built.expect rfl _).bind fun _ => (built_expression n).bind fun _ =>
    (Built.expect rfl _).bind fun _ => .pure _

theorem built_whileHead (n : Nat) : Built Kind.endsExpression (whileHead n) :=
  (Built.expect rfl _).bind fun _ => (built_expression n).bind fun _ =>
    (Built.expect rfl _).bind fun _ => .pure _

theorem built_parameters (n count : Nat) : Built Kind.endsExpression (parameters n count) := by
  induction n generalizing count with
  | zero => exact .outOfFuel
  | succ n ih =>
    rw [parameters]
    refine (Built.limitCount _ _).bind fun _ => (Built.expect rfl _).bind fun name =>
      (Built.accept? rfl).bind fun comma? => ?_
    cases comma? with
    | none => exact .pure _
    | some => exact (ih _).bind fun _ => .pure _

theorem built_parameterList (n : Nat) : Built Kind.endsExpression (parameterList n) := by
  refine (Built.nextIs rfl).bind fun b => ?_
  split
  · exact .pure []
  · exact built_parameters n 0

theorem built_functionHead (n : Nat) : Built Kind.endsExpression (functionHead n) :=
  (Built.expect rfl _).bind fun _ => (Built.expect rfl _).bind fun _ =>
    (built_parameterList n).bind fun _ => (Built.expect rfl _).bind fun _ =>
      (Built.expect rfl _).bind fun _ => .pure _

theorem assembled_expressionBefore? (n : Nat) (closing : Kind) :
    Assembled (expressionBefore? n closing) := by
  refine (Built.nextIs rfl).bind fun b => ?_
  split
  · exact .pure none
  · exact (built_expression n).assembled.map _

theorem assembled_varDeclaration (n : Nat) : Assembled (varDeclaration n) :=
  (assembled_expect _ _).bind fun _ => (built_initializer? n).assembled.bind fun _ =>
    (assembled_expect _ _).bind fun _ => .pure _

theorem assembled_expressionStatement (n : Nat) : Assembled (expressionStatement n) :=
  (built_expression n).assembled.bind fun _ => (assembled_expect _ _).bind fun _ => .pure _

theorem assembled_printStatement (n line : Nat) : Assembled (printStatement n line) :=
  (built_expression n).assembled.bind fun _ => (assembled_expect _ _).bind fun _ => .pure _

theorem assembled_returnStatement (n line : Nat) : Assembled (returnStatement n line) :=
  (assembled_expressionBefore? n _).bind fun _ => (assembled_expect _ _).bind fun _ => .pure _

theorem assembled_forInitializer? (n : Nat) : Assembled (forInitializer? n) := by
  refine (assembled_accept? _).bind fun t? => ?_
  cases t? with
  | some => exact .pure none
  | none =>
    refine (assembled_accept? _).bind fun t? => ?_
    cases t? with
    | some => exact (assembled_varDeclaration n).map _
    | none => exact (assembled_expressionStatement n).map _

theorem assembled_forHead (n : Nat) : Assembled (forHead n) :=
  (assembled_expect _ _).bind fun _ => (assembled_forInitializer? n).bind fun _ =>
    (assembled_expressionBefore? n _).bind fun _ => (assembled_expect _ _).bind fun _ =>
      (assembled_expressionBefore? n _).bind fun _ => (assembled_expect _ _).bind fun _ => .pure _

theorem assembled_blockEnds : Assembled blockEnds := by
  refine (Built.atEnd fun _ => rfl).bind fun b => ?_
  split
  · exact .pure true
  · exact .nextIs rfl

def declared (n : Nat) : Parser Stmt := do
  match ← accept? .kwFun with
  | some _ =>
    let head ← functionHead n
    let body ← block n
    pure (.function head.name.line head.name.lexeme head.params body)
  | none =>
    match ← accept? .kwVar with
    | some _ => varDeclaration n
    | none => statement n

theorem declaration_succ (n : Nat) : declaration (n + 1) = recovering (declared n) := by
  rw [declaration]
  rfl

theorem assembled_declared_of {n : Nat} (hstatement : Assembled (statement n))
    (hblock : Assembled (block n)) : Assembled (declared n) := by
  refine (assembled_accept? _).bind fun t? => ?_
  cases t? with
  | some => exact (built_functionHead n).assembled.bind fun _ => hblock.bind fun _ => .pure _
  | none =>
    refine (assembled_accept? _).bind fun t? => ?_
    cases t? with
    | some => exact assembled_varDeclaration n
    | none => exact hstatement

structure AssembledStatements (n : Nat) : Prop where
  declaration : Assembled (declaration n)
  statement : Assembled (statement n)
  elseBranch? : Assembled (elseBranch? n)
  block : Assembled (block n)

theorem assembledStatements (n : Nat) : AssembledStatements n := by
  induction n with
  | zero =>
    constructor
    · rw [declaration]; exact .outOfFuel
    · rw [statement]; exact .outOfFuel
    · rw [elseBranch?]; exact .outOfFuel
    · rw [block]; exact .outOfFuel
  | succ n ih =>
    constructor
    case declaration =>
      rw [declaration_succ]
      exact .recovering (fun _ => rfl) (assembled_declared_of ih.statement ih.block)
    case statement =>
      rw [statement]
      refine (assembled_take? opening?).bind fun opening? => ?_
      cases opening? with
      | none => exact assembled_expressionStatement n
      | some head =>
        obtain ⟨opening, line⟩ := head
        cases opening with
        | print => exact assembled_printStatement n line
        | branch =>
          exact (built_ifHead n).assembled.bind fun _ => ih.statement.bind fun _ =>
            ih.elseBranch?.bind fun _ => .pure _
        | loop =>
          exact (built_whileHead n).assembled.bind fun _ => ih.statement.bind fun _ => .pure _
        | forLoop =>
          exact (assembled_forHead n).bind fun _ => ih.statement.bind fun _ => .pure _
        | result => exact assembled_returnStatement n line
        | block => exact ih.block.bind fun _ => .pure _
    case elseBranch? =>
      rw [elseBranch?]
      refine (assembled_accept? _).bind fun t? => ?_
      cases t? with
      | some => exact ih.statement.map _
      | none => exact .pure none
    case block =>
      rw [block]
      refine assembled_blockEnds.bind fun b => ?_
      split
      · exact (assembled_expect _ _).bind fun _ => .pure []
      · exact ih.declaration.bind fun _ => ih.block.bind fun _ => .pure _

theorem assembled_declared (n : Nat) : Assembled (declared n) :=
  assembled_declared_of (assembledStatements n).statement (assembledStatements n).block

theorem assembled_program (n : Nat) : Assembled (program n) := by
  induction n with
  | zero => exact .outOfFuel
  | succ n ih =>
    rw [program]
    refine (Built.atEnd fun _ => rfl).bind fun b => ?_
    split
    · exact .pure []
    · exact (assembledStatements n).declaration.bind fun _ => ih.bind fun _ => .pure _

end Parser
end LoxLang
