import Mathlib.Data.List.Perm.Subperm
import LoxLang.Parse.Program
import LoxLang.Proofs.Parse.Ids

/-!
Numbering: each id of a tree comes from an identifier that was read, and the ids of one parse follow
one another from its first.
-/
namespace LoxLang

def identifiers (tokens : List Token) : Nat := tokens.countP (·.kind = .identifier)

/-- From one cursor to another `n` ids are handed out, each for an identifier read on the way. -/
structure Cursor.Leads (c c' : Cursor) (n : Nat) : Prop where
  suffix : c'.rest <:+ c.rest
  ids : c'.nextId = c.nextId + UInt64.ofNat n
  spent : n + identifiers c'.rest ≤ identifiers c.rest

namespace Cursor.Leads

theorem refl (c : Cursor) : c.Leads c 0 := ⟨List.suffix_refl _, by simp, by simp⟩

theorem trans {c c' c'' : Cursor} {m n : Nat} (h : c.Leads c' m) (h' : c'.Leads c'' n) :
    c.Leads c'' (m + n) where
  suffix := h'.suffix.trans h.suffix
  ids := by rw [h'.ids, h.ids, UInt64.add_assoc, UInt64.ofNat_add]
  spent := by have := h.spent; have := h'.spent; omega

theorem of_suffix {c c' : Cursor} (h : c'.rest <:+ c.rest) (hid : c'.nextId = c.nextId) :
    c.Leads c' 0 where
  suffix := h
  ids := by simp [hid]
  spent := by simpa [identifiers] using h.sublist.countP_le

end Cursor.Leads

theorem Cursor.skipTokens_suffix (tokens : List Token) (line : Nat) :
    (skipTokens tokens line).1 <:+ tokens := by
  induction tokens generalizing line with
  | nil => simp [skipTokens]
  | cons t rest ih =>
    unfold skipTokens
    split
    · exact List.suffix_cons t rest
    · exact (ih t.line).trans (List.suffix_cons t rest)

theorem Cursor.leads_skipStatement (c : Cursor) (d : Diagnostic) :
    c.Leads (c.record d).skipStatement 0 :=
  .of_suffix (skipTokens_suffix c.rest c.line) rfl

theorem Level.join?_eq_some {level : Level} {t : Token} {join : Expr → Expr → Expr}
    (h : level.join? t = some join) :
    (∃ op, LogicalOp.ofKind? t.kind = some op ∧ op.level = level ∧ join = .logical t.line op) ∨
    ∃ op, BinaryOp.ofKind? t.kind = some op ∧ op.level = level ∧ join = .binary t.line op := by
  unfold Level.join? at h
  split at h
  · next op hop =>
    split at h
    · next hl => exact .inl ⟨op, hop, hl, (Option.some.inj h).symm⟩
    · cases h
  · split at h
    · next op hop =>
      split at h
      · next hl => exact .inr ⟨op, hop, hl, (Option.some.inj h).symm⟩
      · cases h
    · cases h

namespace Parser

def Numbers (known : List NodeId) (p : Parser α) (ids : α → List NodeId) : Prop :=
  ∀ c, match p c with
    | .outOfFuel => True
    | .fault _ c' => ∃ n, c.Leads c' n
    | .done a c' => ∃ n, c.Leads c' n ∧ (ids a).Subperm (known ++ idsFrom c.nextId n)

section Rules
variable {α β : Type} {known : List NodeId} {ids : α → List NodeId}

theorem Numbers.outOfFuel : Numbers known (outOfFuel : Parser α) ids := fun _ => trivial

theorem Numbers.fail (cause : Cause) : Numbers known (fail cause : Parser α) ids := fun c =>
  ⟨0, .refl c⟩

/-- Whatever only reads on hands out no id. -/
theorem Numbers.of_leads {p : Parser α} (known : List NodeId)
    (h : ∀ c, ∃ a c', p c = .done a c' ∧ c.Leads c' 0) : Numbers known p fun _ => known := by
  intro c
  obtain ⟨a, c', hp, hc⟩ := h c
  rw [hp]
  exact ⟨0, hc, by simp [idsFrom, List.Subperm.refl]⟩

theorem Numbers.pure {a : α} (h : (ids a).Subperm known) :
    Numbers known (Pure.pure a : Parser α) ids := fun c =>
  ⟨0, .refl c, by simpa [idsFrom] using h⟩

theorem Numbers.bind {p : Parser α} {f : α → Parser β} {ids' : β → List NodeId}
    (hp : Numbers known p ids) (hf : ∀ a, Numbers (ids a) (f a) ids') :
    Numbers known (p >>= f) ids' := by
  intro c
  have hp := hp c
  simp only [Bind.bind, Parser.bind]
  cases h : p c with
  | outOfFuel => trivial
  | fault d c' => simpa [h] using hp
  | done a c' =>
    rw [h] at hp
    obtain ⟨m, hm, ha⟩ := hp
    have hf := hf a c'
    dsimp only
    cases h' : f a c' with
    | outOfFuel => trivial
    | fault d c'' =>
      rw [h'] at hf
      obtain ⟨n, hn⟩ := hf
      exact ⟨m + n, hm.trans hn⟩
    | done b c'' =>
      rw [h'] at hf
      obtain ⟨n, hn, hb⟩ := hf
      refine ⟨m + n, hm.trans hn, hb.trans ?_⟩
      rw [idsFrom_add, ← hm.ids, ← List.append_assoc]
      exact (List.subperm_append_right _).mpr ha

/-- What is known stays known. -/
theorem Numbers.frame {p : Parser α} (known : List NodeId) (h : Numbers [] p ids) :
    Numbers known p fun a => known ++ ids a := by
  intro c
  have h := h c
  cases hp : p c with
  | outOfFuel => trivial
  | fault d c' => simpa [hp] using h
  | done a c' =>
    rw [hp] at h
    obtain ⟨n, hn, ha⟩ := h
    exact ⟨n, hn, by simpa using (List.subperm_append_left known).mpr ha⟩

theorem Numbers.mono {p : Parser α} {ids' : α → List NodeId} (h : Numbers known p ids)
    (hle : ∀ a, (ids' a).Subperm (ids a)) : Numbers known p ids' := by
  intro c
  have h := h c
  cases hp : p c with
  | outOfFuel => trivial
  | fault d c' => simpa [hp] using h
  | done a c' =>
    rw [hp] at h
    obtain ⟨n, hn, ha⟩ := h
    exact ⟨n, hn, (hle a).trans ha⟩

theorem Numbers.map {p : Parser α} {ids' : β → List NodeId} {f : α → β}
    (h : Numbers known p ids) (hf : ∀ a, (ids' (f a)).Subperm (ids a)) :
    Numbers known (f <$> p) ids' :=
  h.bind fun a => .pure (hf a)

theorem Numbers.recovering {p : Parser α} (ids : α → List NodeId) (h : Numbers known p ids) :
    Numbers known (recovering p) fun a? => (a?.map ids).getD known := by
  intro c
  have h := h c
  cases hp : p c with
  | outOfFuel => simp [Parser.recovering, hp]
  | fault d c' =>
    rw [hp] at h
    obtain ⟨n, hn⟩ := h
    simp only [Parser.recovering, hp]
    exact ⟨n, hn.trans (c'.leads_skipStatement d), (List.sublist_append_left _ _).subperm⟩
  | done a c' => simpa [Parser.recovering, hp] using h

variable (known)

theorem numbers_take? {f : Token → Option α} {g : Option α → Parser β} {ids : β → List NodeId}
    (hsome : ∀ t a, f t = some a → Numbers known (g (some a)) ids)
    (hnone : Numbers known (g none) ids) : Numbers known (take? f >>= g) ids := by
  intro c
  simp only [Bind.bind, Parser.bind, take?]
  cases hrest : c.rest with
  | nil => exact hnone c
  | cons t rest =>
    cases hf : f t with
    | none => simpa [hf] using hnone c
    | some a =>
      have skip : c.Leads { c with rest, line := t.line } 0 := .of_suffix (by simp [hrest]) rfl
      have h := hsome t a hf { c with rest, line := t.line }
      simp only [hf]
      cases hg : g (some a) { c with rest, line := t.line } with
      | outOfFuel => trivial
      | fault d c' =>
        rw [hg] at h
        obtain ⟨n, hn⟩ := h
        exact ⟨0 + n, skip.trans hn⟩
      | done b c' =>
        rw [hg] at h
        obtain ⟨n, hn, hb⟩ := h
        exact ⟨0 + n, skip.trans hn, by simpa using hb⟩

theorem numbers_accept? {kind : Kind} {g : Option Token → Parser β} {ids : β → List NodeId}
    (hsome : ∀ t, t.kind = kind → Numbers known (g (some t)) ids)
    (hnone : Numbers known (g none) ids) : Numbers known (accept? kind >>= g) ids := by
  refine numbers_take? known (fun t a ha => ?_) hnone
  split at ha
  · next hk => cases ha; exact hsome t hk
  · cases ha

theorem numbers_nextIs (kind : Kind) : Numbers known (nextIs kind) fun _ => known :=
  .of_leads known fun c => ⟨_, _, rfl, .refl c⟩

theorem numbers_atEnd : Numbers known atEnd fun _ => known :=
  .of_leads known fun c => ⟨_, _, rfl, .refl c⟩

theorem numbers_report (d : Diagnostic) : Numbers known (report d) fun _ => known :=
  .of_leads known fun _ => ⟨_, _, rfl, .of_suffix (List.suffix_refl _) rfl⟩

theorem numbers_limitCount (count : Nat) (cause : Cause) :
    Numbers known (limitCount count cause) fun _ => known :=
  .of_leads known fun _ =>
    ⟨_, _, rfl, .of_suffix (by split <;> exact List.suffix_refl _) (by split <;> rfl)⟩

theorem numbers_expect (kind : Kind) (what : Expectation) :
    Numbers known (expect kind what) fun _ => known :=
  numbers_accept? known (fun _ _ => .pure (.refl _)) (.fail _)

end Rules

/-- An identifier pays for the id that it gets. -/
theorem numbers_reference {f : Option Token → Parser Expr}
    (hsome : ∀ t, f (some t) = do return .reference t.line t.lexeme (← freshId))
    (hnone : Numbers [] (f none) Expr.ids) : Numbers [] (accept? .identifier >>= f) Expr.ids := by
  intro c
  simp only [Bind.bind, Parser.bind, accept?, take?]
  cases hrest : c.rest with
  | nil => exact hnone c
  | cons t rest =>
    by_cases hk : t.kind = .identifier
    · simp only [hk, if_true, hsome]
      refine ⟨1, ⟨by simp [hrest], rfl, ?_⟩, ?_⟩
      · simp [hrest, identifiers, hk, Nat.add_comm]
      · simp [idsFrom, Expr.ids]
    · simpa [hk] using hnone c

theorem numbers_assignment (equals : Token) (target value : Expr) :
    Numbers (target.ids ++ value.ids) (assignment equals target value) Expr.ids := by
  unfold assignment
  split
  · exact .pure (by simp [Expr.ids, List.Subperm.refl])
  · refine (numbers_report _ _).bind fun _ => .pure ?_
    exact (List.sublist_append_left _ _).subperm

structure NumbersExpressions (n : Nat) : Prop where
  expression : Numbers [] (expression n) Expr.ids
  operands (level : Level) : Numbers [] (operands n level) Expr.ids
  operators (level : Level) (left : Expr) : Numbers left.ids (operators n level left) Expr.ids
  calls (callee : Expr) : Numbers callee.ids (calls n callee) Expr.ids
  argumentList : Numbers [] (argumentList n) Expr.allIds
  arguments (count : Nat) : Numbers [] (arguments n count) Expr.allIds
  primary : Numbers [] (primary n) Expr.ids

theorem unaryNode?_ids {t : Token} {node : Expr → Expr} (h : unaryNode? t = some node) (e : Expr) :
    (node e).ids = e.ids := by
  obtain ⟨op, -, rfl⟩ := Option.map_eq_some_iff.mp h
  rfl

theorem join?_ids {level : Level} {t : Token} {join : Expr → Expr → Expr}
    (h : level.join? t = some join) (left right : Expr) :
    (join left right).ids = left.ids ++ right.ids := by
  rcases Level.join?_eq_some h with ⟨op, -, -, rfl⟩ | ⟨op, -, -, rfl⟩ <;> rfl

theorem ofConstant?_ids {t : Token} {e : Expr} (h : Expr.ofConstant? t = some e) : e.ids = [] := by
  unfold Expr.ofConstant? at h
  split at h <;> simp_all
  all_goals (subst h; rfl)

theorem numbersExpressions (n : Nat) : NumbersExpressions n := by
  induction n with
  | zero =>
    constructor <;> intros <;> intro c
    all_goals (first | unfold expression | unfold operands | unfold operators | unfold calls
                     | unfold argumentList | unfold arguments | unfold primary)
    all_goals trivial
  | succ n ih =>
    constructor
    case expression =>
      rw [expression]
      refine (ih.operands .or).bind fun target => numbers_accept? _ (fun equals _ => ?_) (.pure (.refl _))
      exact (ih.expression.frame _).bind fun value => numbers_assignment equals target value
    case operands =>
      intro level
      by_cases hl : level = .unary
      · subst hl
        rw [operands]
        refine numbers_take? _ (fun t node hnode => ?_) ?_
        · exact (ih.operands .unary).bind fun e => .pure (by rw [unaryNode?_ids hnode])
        · exact ih.primary.bind fun e => ih.calls e
      · rw [operands.eq_3 _ _ hl]
        exact (ih.operands _).bind fun e => ih.operators level e
    case operators =>
      intro level left
      rw [operators]
      refine numbers_take? _ (fun t join hjoin => ?_) (.pure (.refl _))
      refine ((ih.operands _).frame _).bind fun right => ?_
      simpa only [join?_ids hjoin] using ih.operators level (join left right)
    case calls =>
      intro callee
      rw [calls]
      refine numbers_accept? _ (fun _ _ => ?_) (.pure (.refl _))
      refine (ih.argumentList.frame _).bind fun args => ?_
      exact (numbers_expect _ _ _).bind fun paren => ih.calls (.call paren.line callee args)
    case argumentList =>
      rw [argumentList]
      refine (numbers_nextIs _ _).bind fun b => ?_
      split
      · exact .pure (.refl _)
      · exact ih.arguments 0
    case arguments =>
      intro count
      rw [arguments]
      refine (numbers_limitCount _ _ _).bind fun _ => ih.expression.bind fun e => ?_
      refine numbers_accept? _ (fun _ _ => ?_) (.pure (by simp [Expr.allIds, List.Subperm.refl]))
      exact ((ih.arguments _).frame _).bind fun es => .pure (.refl _)
    case primary =>
      rw [primary]
      refine numbers_take? _ (fun t e he => .pure (by simp [ofConstant?_ids he])) ?_
      refine numbers_reference (fun t => rfl) (numbers_accept? _ (fun paren _ => ?_) (.fail _))
      exact ih.expression.bind fun e => (numbers_expect _ _ _).bind fun _ => .pure (.refl _)

theorem numbers_initializer? (n : Nat) : Numbers [] (initializer? n) Expr.idsOf :=
  numbers_accept? _ (fun _ _ => (numbersExpressions n).expression.map fun _ => .refl _)
    (.pure (.refl _))

theorem numbers_varDeclaration (n : Nat) : Numbers [] (varDeclaration n) Stmt.ids :=
  (numbers_expect _ _ _).bind fun _ => (numbers_initializer? n).bind fun _ =>
    (numbers_expect _ _ _).bind fun _ => .pure (.refl _)

theorem numbers_expressionStatement (n : Nat) : Numbers [] (expressionStatement n) Stmt.ids :=
  (numbersExpressions n).expression.bind fun _ => (numbers_expect _ _ _).bind fun _ =>
    .pure (.refl _)

theorem numbers_printStatement (n line : Nat) : Numbers [] (printStatement n line) Stmt.ids :=
  (numbersExpressions n).expression.bind fun _ => (numbers_expect _ _ _).bind fun _ =>
    .pure (.refl _)

theorem numbers_expressionBefore? (n : Nat) (closing : Kind) :
    Numbers [] (expressionBefore? n closing) Expr.idsOf := by
  refine (numbers_nextIs _ _).bind fun b => ?_
  split
  · exact .pure (.refl _)
  · exact (numbersExpressions n).expression.map fun _ => .refl _

theorem numbers_returnStatement (n line : Nat) : Numbers [] (returnStatement n line) Stmt.ids :=
  (numbers_expressionBefore? n _).bind fun _ => (numbers_expect _ _ _).bind fun _ => .pure (.refl _)

theorem numbers_ifHead (n : Nat) : Numbers [] (ifHead n) Expr.ids :=
  (numbers_expect _ _ _).bind fun _ => (numbersExpressions n).expression.bind fun _ =>
    (numbers_expect _ _ _).bind fun _ => .pure (.refl _)

theorem numbers_whileHead (n : Nat) : Numbers [] (whileHead n) Expr.ids :=
  (numbers_expect _ _ _).bind fun _ => (numbersExpressions n).expression.bind fun _ =>
    (numbers_expect _ _ _).bind fun _ => .pure (.refl _)

theorem numbers_forInitializer? (n : Nat) : Numbers [] (forInitializer? n) Stmt.idsOf :=
  numbers_accept? _ (fun _ _ => .pure (.refl _))
    (numbers_accept? _ (fun _ _ => (numbers_varDeclaration n).map fun _ => .refl _)
      ((numbers_expressionStatement n).map fun _ => .refl _))

def ForHead.ids (head : ForHead) : List NodeId :=
  Stmt.idsOf head.initializer ++ Expr.idsOf head.condition ++ Expr.idsOf head.increment

theorem numbers_forHead (n : Nat) : Numbers [] (forHead n) ForHead.ids :=
  (numbers_expect _ _ _).bind fun _ => (numbers_forInitializer? n).bind fun _ =>
    ((numbers_expressionBefore? n _).frame _).bind fun _ => (numbers_expect _ _ _).bind fun _ =>
      ((numbers_expressionBefore? n _).frame _).bind fun _ => (numbers_expect _ _ _).bind fun _ =>
        .pure (.refl _)

theorem numbers_parameters (n count : Nat) : Numbers [] (parameters n count) fun _ => [] := by
  induction n generalizing count with
  | zero => exact .outOfFuel
  | succ n ih =>
    rw [parameters]
    refine (numbers_limitCount _ _ _).bind fun _ => (numbers_expect _ _ _).bind fun _ => ?_
    exact numbers_accept? _ (fun _ _ => (ih _).bind fun _ => .pure (.refl _)) (.pure (.refl _))

theorem numbers_parameterList (n : Nat) : Numbers [] (parameterList n) fun _ => [] := by
  refine (numbers_nextIs _ _).bind fun b => ?_
  split
  · exact .pure (.refl _)
  · exact numbers_parameters n 0

theorem numbers_functionHead (n : Nat) : Numbers [] (functionHead n) fun _ => [] :=
  (numbers_expect _ _ _).bind fun _ => (numbers_expect _ _ _).bind fun _ =>
    (numbers_parameterList n).bind fun _ => (numbers_expect _ _ _).bind fun _ =>
      (numbers_expect _ _ _).bind fun _ => .pure (.refl _)

theorem numbers_blockEnds : Numbers [] blockEnds fun _ => [] := by
  refine (numbers_atEnd _).bind fun b => ?_
  split
  · exact .pure (.refl _)
  · exact numbers_nextIs _ _

/-- The increment of a `for` loop is read before its body and stands after it in the tree. -/
theorem forLoop_ids (line : Nat) (head : ForHead) (body : Stmt) :
    (Stmt.forLoop line head.initializer head.condition head.increment body).ids.Perm
      (head.ids ++ body.ids) := by
  obtain ⟨initializer, condition, increment⟩ := head
  cases initializer <;> cases condition <;> cases increment <;>
    simp [Stmt.forLoop, Stmt.ids, Stmt.allIds, ForHead.ids, Stmt.idsOf, Expr.idsOf, Expr.ids,
      Stmt.ofExpr, List.perm_append_comm, List.perm_append_left_iff]

structure NumbersStatements (n : Nat) : Prop where
  declaration : Numbers [] (declaration n) Stmt.idsOf
  statement : Numbers [] (statement n) Stmt.ids
  elseBranch? : Numbers [] (elseBranch? n) Stmt.idsOf
  block : Numbers [] (block n) Stmt.allIds

theorem numbersStatements (n : Nat) : NumbersStatements n := by
  induction n with
  | zero =>
    constructor
    · rw [declaration]; exact .outOfFuel
    · rw [statement]; exact .outOfFuel
    · rw [elseBranch?]; exact .outOfFuel
    · rw [block]; exact .outOfFuel
  | succ n ih =>
    constructor
    case declaration =>
      rw [declaration]
      refine Numbers.mono (Numbers.recovering Stmt.ids ?_) fun s? => ?_
      · refine numbers_accept? _ (fun _ _ => ?_) ?_
        · exact (numbers_functionHead n).bind fun head => ih.block.bind fun body => .pure (.refl _)
        · exact numbers_accept? _ (fun _ _ => numbers_varDeclaration n) ih.statement
      · cases s? <;> simp [Stmt.idsOf, List.Subperm.refl]
    case statement =>
      rw [statement]
      refine numbers_take? _ (fun t opening _ => ?_) (numbers_expressionStatement n)
      obtain ⟨opening, line⟩ := opening
      cases opening with
      | print => exact numbers_printStatement n line
      | branch =>
        refine (numbers_ifHead n).bind fun condition => (ih.statement.frame _).bind fun thenBranch => ?_
        refine (ih.elseBranch?.frame _).bind fun elseBranch => .pure ?_
        rw [Stmt.ids_branch]
      | loop =>
        exact (numbers_whileHead n).bind fun condition =>
          (ih.statement.frame _).bind fun body => .pure (.refl _)
      | forLoop =>
        exact (numbers_forHead n).bind fun head =>
          (ih.statement.frame _).bind fun body => .pure (forLoop_ids line head body).subperm
      | result => exact numbers_returnStatement n line
      | block => exact ih.block.bind fun body => .pure (.refl _)
    case elseBranch? =>
      rw [elseBranch?]
      exact numbers_accept? _ (fun _ _ => ih.statement.map fun _ => .refl _) (.pure (.refl _))
    case block =>
      rw [block]
      refine numbers_blockEnds.bind fun b => ?_
      split
      · exact (numbers_expect _ _ _).bind fun _ => .pure (.refl _)
      · refine ih.declaration.bind fun s? => (ih.block.frame _).bind fun ss => .pure ?_
        rw [Stmt.allIds_append, Stmt.allIds_toList]

theorem numbers_program (n : Nat) : Numbers [] (program n) Stmt.allIds := by
  induction n with
  | zero => exact .outOfFuel
  | succ n ih =>
    rw [program]
    refine (numbers_atEnd _).bind fun b => ?_
    split
    · exact .pure (.refl _)
    · refine (numbersStatements n).declaration.bind fun s? => (ih.frame _).bind fun ss => .pure ?_
      rw [Stmt.allIds_append, Stmt.allIds_toList]

end Parser

theorem identifiers_takeWhile (tokens : List Token) (p : Token → Bool) :
    identifiers (tokens.takeWhile p) ≤ identifiers tokens :=
  (List.takeWhile_sublist p).countP_le

/-- The ids of a parse follow its first, one for each of some of the identifiers read. -/
theorem Parsed.ids_ofTokens (tokens : List Token) (firstId : NodeId) :
    ∃ n ≤ identifiers tokens, (ofTokens tokens firstId).nextId = firstId + UInt64.ofNat n ∧
      (Stmt.allIds (ofTokens tokens firstId).program).Subperm (idsFrom firstId n) := by
  have h := Parser.numbers_program (Parser.fuel tokens) (Cursor.start tokens firstId)
  have hle := identifiers_takeWhile tokens (·.kind ≠ .eof)
  unfold ofTokens
  cases hp : Parser.program (Parser.fuel tokens) (Cursor.start tokens firstId) with
  | outOfFuel => exact ⟨0, Nat.zero_le _, by simp [Stmt.allIds]⟩
  | fault d c =>
    rw [hp] at h
    obtain ⟨n, hn⟩ := h
    have hs := hn.spent
    exact ⟨n, by simp only [Cursor.start] at hs; omega, hn.ids, by simp [Stmt.allIds]⟩
  | done program c =>
    rw [hp] at h
    obtain ⟨n, hn, hids⟩ := h
    have hs := hn.spent
    exact ⟨n, by simp only [Cursor.start] at hs; omega, hn.ids, by simpa [Cursor.start] using hids⟩

theorem Parsed.nodup_ids_ofTokens {tokens : List Token} (firstId : NodeId)
    (h : identifiers tokens ≤ UInt64.size) :
    (Stmt.allIds (ofTokens tokens firstId).program).Nodup := by
  obtain ⟨n, hn, -, ids, hperm, hsub⟩ := ids_ofTokens tokens firstId
  exact hperm.nodup_iff.mp ((nodup_idsFrom firstId (Nat.le_trans hn h)).sublist hsub)

end LoxLang
