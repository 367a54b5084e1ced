import LoxLang.Proofs.Matching.Pass
import LoxLang.Proofs.Parse.Fuel

/-!
Parsing depends on lines and ids only where it writes them into the tree and into faults: from tokens that
match, whatever the next free id is and however much fuel there is, come trees and faults that match.
-/
namespace LoxLang

structure Token.Matches (L : Nat → Nat → Prop) (t t' : Token) : Prop where
  kind : t'.kind = t.kind
  lexeme : t'.lexeme = t.lexeme
  line : L t.line t'.line
  literal : t'.literal = t.literal

def Shifted {α : Type} [Add α] (k a a' : α) : Prop := a' = a + k

theorem Shifted.succ {k id id' : NodeId} (h : Shifted k id id') : Shifted k (id + 1) (id' + 1) := by
  rw [Shifted, h, UInt64.add_assoc, UInt64.add_comm k, UInt64.add_assoc]

theorem shifted_sub (id id' : NodeId) : Shifted (id' - id) id id' := by
  rw [Shifted, UInt64.add_comm, UInt64.sub_add_cancel]

/-- Two cursors that differ in lines and in the next free id. Where the end has a line, the line of the
token read last is never asked for. -/
structure Cursor.Matches (L : Nat → Nat → Prop) (k : NodeId) (c c' : Cursor) : Prop where
  rest : List.Forall₂ (Token.Matches L) c.rest c'.rest
  line : c.endLine = none → L c.line c'.line
  endLine : Option.Rel L c.endLine c'.endLine
  nextId : Shifted k c.nextId c'.nextId
  faults : List.Forall₂ (Diagnostic.Matches L) c.faults.toList c'.faults.toList

/-- Unless one of them runs out of fuel, both readings come to the same. -/
inductive Reading.Matches {α : Type} (L : Nat → Nat → Prop) (k : NodeId) (R : α → α → Prop) :
    Reading α → Reading α → Prop where
  | outOfFuel (r : Reading α) : Reading.Matches L k R .outOfFuel r
  | outOfFuel' (r : Reading α) : Reading.Matches L k R r .outOfFuel
  | fault {d d' : Diagnostic} {c c' : Cursor} :
    d.Matches L d' → c.Matches L k c' → Reading.Matches L k R (.fault d c) (.fault d' c')
  | done {a a' : α} {c c' : Cursor} :
    R a a' → c.Matches L k c' → Reading.Matches L k R (.done a c) (.done a' c')

theorem Reading.Matches.imp {α : Type} {L : Nat → Nat → Prop} {k : NodeId} {R S : α → α → Prop}
    {r r' : Reading α} (h : r.Matches L k R r') (hRS : ∀ a a', R a a' → S a a') : r.Matches L k S r' := by
  cases h with
  | outOfFuel => exact .outOfFuel _
  | outOfFuel' => exact .outOfFuel' _
  | fault hd hc => exact .fault hd hc
  | done ha hc => exact .done (hRS _ _ ha) hc

def Parser.Matches {α : Type} (L : Nat → Nat → Prop) (k : NodeId) (R : α → α → Prop)
    (p p' : Parser α) : Prop :=
  ∀ c c', c.Matches L k c' → (p c).Matches L k R (p' c')

variable {L : Nat → Nat → Prop} {k : NodeId}

theorem Token.Matches.diagnostic {t t' : Token} (h : t.Matches L t') (cause : Cause) :
    Diagnostic.Matches L ⟨t.line, .at t.lexeme, cause⟩ ⟨t'.line, .at t'.lexeme, cause⟩ := by
  rw [h.lexeme]
  exact .mk _ _ h.line

namespace Cursor.Matches

variable {c c' : Cursor}

theorem faultHere (h : c.Matches L k c') (cause : Cause) :
    (c.faultHere cause).Matches L (c'.faultHere cause) := by
  have hrest := h.rest
  unfold Cursor.faultHere
  generalize c.rest = rest at hrest
  generalize c'.rest = rest' at hrest
  cases hrest with
  | cons ht _ => exact ht.diagnostic cause
  | nil =>
    refine .mk _ _ ?_
    have hend := h.endLine
    have hline := h.line
    generalize c.endLine = l? at hend hline
    generalize c'.endLine = l?' at hend
    cases hend with
    | none => exact hline rfl
    | some hl => exact hl

theorem record {d d' : Diagnostic} (h : c.Matches L k c') (hd : d.Matches L d') :
    (c.record d).Matches L k (c'.record d') where
  rest := h.rest
  line := h.line
  endLine := h.endLine
  nextId := h.nextId
  faults := by
    simp only [Cursor.record, Array.toList_push]
    exact List.rel_append h.faults (.cons hd .nil)

theorem skipTokens {ts ts' : List Token} (h : List.Forall₂ (Token.Matches L) ts ts') {P : Prop}
    {l l' : Nat} (hl : P → L l l') :
    List.Forall₂ (Token.Matches L) (Cursor.skipTokens ts l).1 (Cursor.skipTokens ts' l').1 ∧
      (P → L (Cursor.skipTokens ts l).2 (Cursor.skipTokens ts' l').2) := by
  induction h generalizing l l' with
  | nil => exact ⟨.nil, hl⟩
  | @cons t t' ts ts' ht hts ih =>
    have hstarts : (ts'.head?.any fun t => t.kind.startsStatement) =
        ts.head?.any fun t => t.kind.startsStatement := by
      cases hts with
      | nil => rfl
      | cons h _ => exact congrArg Kind.startsStatement h.kind
    unfold Cursor.skipTokens
    rw [ht.kind, hstarts]
    split
    · exact ⟨hts, fun _ => ht.line⟩
    · exact ih fun _ => ht.line

theorem skipStatement (h : c.Matches L k c') : c.skipStatement.Matches L k c'.skipStatement :=
  ⟨(skipTokens h.rest h.line).1, (skipTokens h.rest h.line).2, h.endLine, h.nextId, h.faults⟩

end Cursor.Matches

namespace Parser

section Rules
variable {α β : Type} {R : α → α → Prop} {S : β → β → Prop}

theorem Matches.outOfFuel (p : Parser α) : Matches L k R Parser.outOfFuel p := fun _ _ _ => .outOfFuel _

theorem Matches.outOfFuel' (p : Parser α) : Matches L k R p Parser.outOfFuel := fun _ _ _ => .outOfFuel' _

theorem Matches.fail (cause : Cause) : Matches L k R (fail cause) (fail cause) := fun _ _ hc =>
  .fault (hc.faultHere cause) hc

theorem Matches.pure {a a' : α} (h : R a a') : Matches L k R (Pure.pure a) (Pure.pure a') := fun _ _ hc =>
  .done h hc

theorem Matches.imp {R' : α → α → Prop} {p p' : Parser α} (hp : Matches L k R p p')
    (hR : ∀ a a', R a a' → R' a a') : Matches L k R' p p' := fun c c' hc => (hp c c' hc).imp hR

theorem bind_matches {p p' : Parser α} {f f' : α → Parser β} {c c' : Cursor}
    (h : (p c).Matches L k R (p' c')) (hf : ∀ a a', R a a' → Matches L k S (f a) (f' a')) :
    ((p >>= f) c).Matches L k S ((p' >>= f') c') := by
  simp only [Bind.bind, Parser.bind]
  generalize p c = r at h
  generalize p' c' = r' at h
  cases h with
  | outOfFuel => exact .outOfFuel _
  | outOfFuel' => exact .outOfFuel' _
  | fault hd hc => exact .fault hd hc
  | done ha hc => exact hf _ _ ha _ _ hc

theorem Matches.bind {p p' : Parser α} {f f' : α → Parser β} (hp : Matches L k R p p')
    (hf : ∀ a a', R a a' → Matches L k S (f a) (f' a')) : Matches L k S (p >>= f) (p' >>= f') :=
  fun c c' hc => bind_matches (hp c c' hc) hf

theorem Matches.map {p p' : Parser α} {f : α → β} (hp : Matches L k R p p')
    (hf : ∀ a a', R a a' → S (f a) (f a')) : Matches L k S (f <$> p) (f <$> p') :=
  hp.bind fun a a' ha => .pure (hf a a' ha)

theorem recovering_matches {p p' : Parser α} {c c' : Cursor} (h : (p c).Matches L k R (p' c')) :
    (recovering p c).Matches L k (Option.Rel R) (recovering p' c') := by
  unfold Parser.recovering
  generalize p c = r at h
  generalize p' c' = r' at h
  cases h with
  | outOfFuel => exact .outOfFuel _
  | outOfFuel' => exact .outOfFuel' _
  | fault hd hc => exact .done .none (hc.record hd).skipStatement
  | done ha hc => exact .done (.some ha) hc

theorem Matches.recovering {p p' : Parser α} (h : Matches L k R p p') :
    Matches L k (Option.Rel R) (recovering p) (recovering p') :=
  fun c c' hc => recovering_matches (h c c' hc)

theorem matches_take? {f f' : Token → Option α}
    (hf : ∀ t t', t.Matches L t' → Option.Rel R (f t) (f' t')) :
    Matches L k (Option.Rel R) (take? f) (take? f') := by
  intro c c' hc
  have hrest := hc.rest
  unfold take?
  generalize c.rest = rest at hrest
  generalize c'.rest = rest' at hrest
  cases hrest with
  | nil => exact .done .none hc
  | @cons t t' rest rest' ht hrest =>
    have h := hf t t' ht
    dsimp only
    generalize f t = a? at h
    generalize f' t' = a?' at h
    cases h with
    | none => exact .done .none hc
    | some ha => exact .done (.some ha) ⟨hrest, fun _ => ht.line, hc.endLine, hc.nextId, hc.faults⟩

end Rules

theorem matches_accept? (kind : Kind) :
    Matches L k (Option.Rel (Token.Matches L)) (accept? kind) (accept? kind) :=
  matches_take? fun t t' ht => by
    rw [ht.kind]
    split
    · exact .some ht
    · exact .none

theorem matches_nextIs (kind : Kind) : Matches L k (· = ·) (nextIs kind) (nextIs kind) := by
  intro c c' hc
  refine .done ?_ hc
  have hrest := hc.rest
  generalize c.rest = rest at hrest
  generalize c'.rest = rest' at hrest
  cases hrest with
  | nil => rfl
  | cons ht _ => simp [ht.kind]

theorem matches_atEnd : Matches L k (· = ·) atEnd atEnd := by
  intro c c' hc
  refine .done ?_ hc
  have hrest := hc.rest
  generalize c.rest = rest at hrest
  generalize c'.rest = rest' at hrest
  cases hrest <;> rfl

theorem matches_report {d d' : Diagnostic} (h : d.Matches L d') :
    Matches L k whatever (report d) (report d') := fun _ _ hc =>
  .done trivial (hc.record h)

theorem matches_limitCount (count : Nat) (cause : Cause) :
    Matches L k whatever (limitCount count cause) (limitCount count cause) := by
  intro c c' hc
  refine .done trivial ?_
  split
  · exact hc.record (hc.faultHere cause)
  · exact hc

theorem matches_freshId : Matches L k (Shifted k) freshId freshId := fun _ _ hc =>
  .done hc.nextId ⟨hc.rest, hc.line, hc.endLine, hc.nextId.succ, hc.faults⟩

theorem matches_expect (kind : Kind) (what : Expectation) :
    Matches L k (Token.Matches L) (expect kind what) (expect kind what) :=
  (matches_accept? kind).bind fun _ _ ht => by
    cases ht with
    | some ht => exact .pure ht
    | none => exact .fail _

def NodesMatch (L : Nat → Nat → Prop) (k : NodeId) (node node' : Expr → Expr) : Prop :=
  ∀ e e', e.Matches L (Shifted k) e' → (node e).Matches L (Shifted k) (node' e')

theorem unaryNode?_matches {t t' : Token} (ht : t.Matches L t') :
    Option.Rel (NodesMatch L k) (unaryNode? t) (unaryNode? t') := by
  unfold unaryNode?
  rw [ht.kind]
  cases UnaryOp.ofKind? t.kind with
  | none => exact .none
  | some op => exact .some fun e e' he => .unary op ht.line he

theorem join?_matches (level : Level) {t t' : Token} (ht : t.Matches L t') :
    Option.Rel (fun join join' => ∀ left left', left.Matches L (Shifted k) left' →
      NodesMatch L k (join left) (join' left')) (level.join? t) (level.join? t') := by
  unfold Level.join?
  rw [ht.kind]
  cases LogicalOp.ofKind? t.kind with
  | some op =>
    dsimp only
    split
    · exact .some fun _ _ hl _ _ hr => .logical op ht.line hl hr
    · exact .none
  | none =>
    dsimp only
    cases BinaryOp.ofKind? t.kind with
    | some op =>
      dsimp only
      split
      · exact .some fun _ _ hl _ _ hr => .binary op ht.line hl hr
      · exact .none
    | none => exact .none

theorem ofConstant?_matches {t t' : Token} (ht : t.Matches L t') :
    Option.Rel (Expr.Matches L (Shifted k)) (Expr.ofConstant? t) (Expr.ofConstant? t') := by
  unfold Expr.ofConstant?
  rw [ht.kind, ht.literal]
  split
  · exact .some (.literal _ ht.line)
  · exact .some (.literal _ ht.line)
  · exact .some (.literal _ ht.line)
  · exact .some (.literal _ ht.line)
  · exact .some (.literal _ ht.line)
  · exact .none

theorem matches_assignment {equals equals' : Token} {target target' value value' : Expr}
    (hequals : equals.Matches L equals') (ht : target.Matches L (Shifted k) target')
    (hv : value.Matches L (Shifted k) value') :
    Matches L k (Expr.Matches L (Shifted k)) (assignment equals target value)
      (assignment equals' target' value') := by
  have hreport := matches_report (k := k) (hequals.diagnostic .invalidAssignmentTarget)
  have htarget := ht
  cases ht with
  | reference name hl hid => exact .pure (.assign name hl hid hv)
  | _ => exact hreport.bind fun _ _ _ => .pure htarget

structure ExpressionsMatch (L : Nat → Nat → Prop) (k : NodeId) (n m : Nat) : Prop where
  expression : Matches L k (Expr.Matches L (Shifted k)) (expression n) (expression m)
  operands (level : Level) : Matches L k (Expr.Matches L (Shifted k)) (operands n level) (operands m level)
  operators (level : Level) {left left' : Expr} : left.Matches L (Shifted k) left' →
    Matches L k (Expr.Matches L (Shifted k)) (operators n level left) (operators m level left')
  calls {callee callee' : Expr} : callee.Matches L (Shifted k) callee' →
    Matches L k (Expr.Matches L (Shifted k)) (calls n callee) (calls m callee')
  argumentList : Matches L k (Expr.AllMatch L (Shifted k)) (argumentList n) (argumentList m)
  arguments (count : Nat) : Matches L k (Expr.AllMatch L (Shifted k)) (arguments n count) (arguments m count)
  primary : Matches L k (Expr.Matches L (Shifted k)) (primary n) (primary m)

theorem expressionsMatch (n m : Nat) : ExpressionsMatch L k n m := by
  induction n generalizing m with
  | zero =>
    constructor
    · rw [expression.eq_1]; exact .outOfFuel _
    · intro level; rw [operands.eq_1]; exact .outOfFuel _
    · intro level left left' _; rw [operators.eq_1]; exact .outOfFuel _
    · intro callee callee' _; rw [calls.eq_1]; exact .outOfFuel _
    · rw [argumentList.eq_1]; exact .outOfFuel _
    · intro count; rw [arguments.eq_1]; exact .outOfFuel _
    · rw [primary.eq_1]; exact .outOfFuel _
  | succ n ih =>
    cases m with
    | zero =>
      constructor
      · rw [expression.eq_1]; exact .outOfFuel' _
      · intro level; rw [operands.eq_1]; exact .outOfFuel' _
      · intro level left left' _; rw [operators.eq_1]; exact .outOfFuel' _
      · intro callee callee' _; rw [calls.eq_1]; exact .outOfFuel' _
      · rw [argumentList.eq_1]; exact .outOfFuel' _
      · intro count; rw [arguments.eq_1]; exact .outOfFuel' _
      · rw [primary.eq_1]; exact .outOfFuel' _
    | succ m =>
    have ih := ih m
    constructor
    case expression =>
      rw [expression, expression]
      refine (ih.operands .or).bind fun _ _ ht => (matches_accept? .equal).bind fun _ _ he => ?_
      cases he with
      | none => exact .pure ht
      | some he => exact ih.expression.bind fun _ _ hv => matches_assignment he ht hv
    case operands =>
      intro level
      by_cases hl : level = .unary
      · subst hl
        rw [operands, operands]
        refine (matches_take? fun _ _ => unaryNode?_matches (k := k)).bind fun _ _ hnode => ?_
        cases hnode with
        | some hnode => exact (ih.operands .unary).bind fun _ _ he => .pure (hnode _ _ he)
        | none => exact ih.primary.bind fun _ _ => ih.calls
      · rw [operands.eq_3 _ _ hl, operands.eq_3 _ _ hl]
        exact (ih.operands _).bind fun _ _ => ih.operators level
    case operators =>
      intro level left left' hleft
      rw [operators, operators]
      refine (matches_take? fun _ _ => join?_matches (k := k) level).bind fun _ _ hjoin => ?_
      cases hjoin with
      | none => exact .pure hleft
      | some hjoin =>
        exact (ih.operands _).bind fun _ _ hright => ih.operators level (hjoin _ _ hleft _ _ hright)
    case calls =>
      intro callee callee' hcallee
      rw [calls, calls]
      refine (matches_accept? .leftParen).bind fun _ _ hparen => ?_
      cases hparen with
      | none => exact .pure hcallee
      | some =>
        refine ih.argumentList.bind fun _ _ hargs => (matches_expect _ _).bind fun _ _ hparen => ?_
        exact ih.calls (.call hparen.line hcallee hargs)
    case argumentList =>
      rw [argumentList, argumentList]
      refine (matches_nextIs _).bind fun b _ hb => ?_
      subst hb
      split
      · exact .pure .nil
      · exact ih.arguments 0
    case arguments =>
      intro count
      rw [arguments, arguments]
      refine (matches_limitCount _ _).bind fun _ _ _ => ih.expression.bind fun _ _ he => ?_
      refine (matches_accept? .comma).bind fun _ _ hcomma => ?_
      cases hcomma with
      | none => exact .pure (.cons he .nil)
      | some => exact (ih.arguments _).bind fun _ _ hes => .pure (.cons he hes)
    case primary =>
      rw [primary, primary]
      refine (matches_take? fun _ _ => ofConstant?_matches (k := k)).bind fun _ _ he => ?_
      cases he with
      | some he => exact .pure he
      | none =>
        refine (matches_accept? .identifier).bind fun _ _ ht => ?_
        cases ht with
        | @some t t' ht =>
          refine matches_freshId.bind fun _ _ hid => ?_
          rw [ht.lexeme]
          exact .pure (.reference _ ht.line hid)
        | none =>
          refine (matches_accept? .leftParen).bind fun _ _ hparen => ?_
          cases hparen with
          | none => exact .fail _
          | some hparen =>
            exact ih.expression.bind fun _ _ he => (matches_expect _ _).bind fun _ _ _ =>
              .pure (.grouping hparen.line he)

theorem matches_initializer? (n m : Nat) :
    Matches L k (Expr.MatchIfAny L (Shifted k)) (initializer? n) (initializer? m) :=
  (matches_accept? .equal).bind fun _ _ ht => by
    cases ht with
    | some => exact (expressionsMatch n m).expression.map fun _ _ => .some
    | none => exact .pure .none

theorem matches_varDeclaration (n m : Nat) :
    Matches L k (Stmt.Matches L (Shifted k)) (varDeclaration n) (varDeclaration m) :=
  (matches_expect _ _).bind fun _ _ ht => (matches_initializer? n m).bind fun _ _ he =>
    (matches_expect _ _).bind fun _ _ _ => .pure (by rw [ht.lexeme]; exact .var _ ht.line he)

theorem matches_expressionStatement (n m : Nat) :
    Matches L k (Stmt.Matches L (Shifted k)) (expressionStatement n) (expressionStatement m) :=
  (expressionsMatch n m).expression.bind fun _ _ he => (matches_expect _ _).bind fun _ _ _ =>
    .pure (.expression he.line he)

theorem matches_printStatement (n m : Nat) {l l' : Nat} (hl : L l l') :
    Matches L k (Stmt.Matches L (Shifted k)) (printStatement n l) (printStatement m l') :=
  (expressionsMatch n m).expression.bind fun _ _ he => (matches_expect _ _).bind fun _ _ _ =>
    .pure (.print hl he)

theorem matches_expressionBefore? (n m : Nat) (closing : Kind) :
    Matches L k (Expr.MatchIfAny L (Shifted k)) (expressionBefore? n closing)
      (expressionBefore? m closing) := by
  refine (matches_nextIs _).bind fun b _ hb => ?_
  subst hb
  split
  · exact .pure .none
  · exact (expressionsMatch n m).expression.map fun _ _ => .some

theorem matches_returnStatement (n m : Nat) {l l' : Nat} (hl : L l l') :
    Matches L k (Stmt.Matches L (Shifted k)) (returnStatement n l) (returnStatement m l') :=
  (matches_expressionBefore? n m _).bind fun _ _ he => (matches_expect _ _).bind fun _ _ _ =>
    .pure (.result hl he)

theorem matches_ifHead (n m : Nat) : Matches L k (Expr.Matches L (Shifted k)) (ifHead n) (ifHead m) :=
  (matches_expect _ _).bind fun _ _ _ => (expressionsMatch n m).expression.bind fun _ _ he =>
    (matches_expect _ _).bind fun _ _ _ => .pure he

theorem matches_whileHead (n m : Nat) :
    Matches L k (Expr.Matches L (Shifted k)) (whileHead n) (whileHead m) :=
  (matches_expect _ _).bind fun _ _ _ => (expressionsMatch n m).expression.bind fun _ _ he =>
    (matches_expect _ _).bind fun _ _ _ => .pure he

abbrev StmtsMatchIfAny (L : Nat → Nat → Prop) (k : NodeId) : Option Stmt → Option Stmt → Prop :=
  Option.Rel (Stmt.Matches L (Shifted k))

theorem matches_forInitializer? (n m : Nat) :
    Matches L k (StmtsMatchIfAny L k) (forInitializer? n) (forInitializer? m) :=
  (matches_accept? .semicolon).bind fun _ _ ht => by
    cases ht with
    | some => exact .pure .none
    | none =>
      refine (matches_accept? .kwVar).bind fun _ _ ht => ?_
      cases ht with
      | some => exact (matches_varDeclaration n m).map fun _ _ => .some
      | none => exact (matches_expressionStatement n m).map fun _ _ => .some

structure ForHead.Matches (L : Nat → Nat → Prop) (N : NodeId → NodeId → Prop) (head head' : ForHead) :
    Prop where
  initializer : Option.Rel (Stmt.Matches L N) head.initializer head'.initializer
  condition : Expr.MatchIfAny L N head.condition head'.condition
  increment : Expr.MatchIfAny L N head.increment head'.increment

theorem matches_forHead (n m : Nat) :
    Matches L k (ForHead.Matches L (Shifted k)) (forHead n) (forHead m) :=
  (matches_expect _ _).bind fun _ _ _ => (matches_forInitializer? n m).bind fun _ _ hi =>
    (matches_expressionBefore? n m _).bind fun _ _ hc => (matches_expect _ _).bind fun _ _ _ =>
      (matches_expressionBefore? n m _).bind fun _ _ hn => (matches_expect _ _).bind fun _ _ _ =>
        .pure ⟨hi, hc, hn⟩

theorem matches_parameters (n m count : Nat) :
    Matches L k (· = ·) (parameters n count) (parameters m count) := by
  induction n generalizing m count with
  | zero => exact .outOfFuel _
  | succ n ih =>
    cases m with
    | zero => exact .outOfFuel' _
    | succ m =>
    rw [parameters, parameters]
    refine (matches_limitCount _ _).bind fun _ _ _ => (matches_expect _ _).bind fun _ _ ht => ?_
    refine (matches_accept? .comma).bind fun _ _ hcomma => ?_
    cases hcomma with
    | none => exact .pure (by rw [ht.lexeme])
    | some => exact (ih m _).bind fun _ _ hnames => .pure (by rw [ht.lexeme, hnames])

theorem matches_parameterList (n m : Nat) :
    Matches L k (· = ·) (parameterList n) (parameterList m) := by
  refine (matches_nextIs _).bind fun b _ hb => ?_
  subst hb
  split
  · exact .pure rfl
  · exact matches_parameters n m 0

structure FunctionHead.Matches (L : Nat → Nat → Prop) (head head' : FunctionHead) : Prop where
  name : head.name.Matches L head'.name
  params : head'.params = head.params

theorem matches_functionHead (n m : Nat) :
    Matches L k (FunctionHead.Matches L) (functionHead n) (functionHead m) :=
  (matches_expect _ _).bind fun _ _ ht => (matches_expect _ _).bind fun _ _ _ =>
    (matches_parameterList n m).bind fun _ _ hparams => (matches_expect _ _).bind fun _ _ _ =>
      (matches_expect _ _).bind fun _ _ _ => .pure ⟨ht, hparams.symm⟩

theorem matches_blockEnds : Matches L k (· = ·) blockEnds blockEnds := by
  refine matches_atEnd.bind fun b _ hb => ?_
  subst hb
  split
  · exact .pure rfl
  · exact matches_nextIs _

theorem opening?_matches {t t' : Token} (ht : t.Matches L t') :
    Option.Rel (fun o o' : Opening × Nat => o'.1 = o.1 ∧ L o.2 o'.2) (opening? t) (opening? t') := by
  unfold opening?
  rw [ht.kind]
  cases Opening.ofKind? t.kind with
  | none => exact .none
  | some opening => exact .some ⟨rfl, ht.line⟩

theorem matches_forLoop {N : NodeId → NodeId → Prop} {l l' : Nat} {head head' : ForHead} {body body' : Stmt}
    (hl : L l l') (h : ForHead.Matches L N head head') (hb : body.Matches L N body') :
    Stmt.Matches L N (.forLoop l head.initializer head.condition head.increment body)
      (.forLoop l' head'.initializer head'.condition head'.increment body') := by
  obtain ⟨initializer, condition, increment⟩ := head
  obtain ⟨initializer', condition', increment'⟩ := head'
  obtain ⟨hi, hc, hn⟩ := h
  have hcondition : (condition.getD (.literal l (.bool true))).Matches L N
      (condition'.getD (.literal l' (.bool true))) := by
    cases hc with
    | none => exact .literal _ hl
    | some hc => exact hc
  have hloop {b b' : Stmt} (hb : b.Matches L N b') := Stmt.Matches.loop hl hcondition hb
  have hblock {s s' b b' : Stmt} (hs : s.Matches L N s') (hb : b.Matches L N b') :=
    Stmt.Matches.block hl (.cons hs (.cons hb .nil))
  cases hn with
  | none =>
    cases hi with
    | none => exact hloop hb
    | some hs => exact hblock hs (hloop hb)
  | some hn =>
    have hrepeated := hblock hb (.expression hn.line hn)
    cases hi with
    | none => exact hloop hrepeated
    | some hs => exact hblock hs (hloop hrepeated)

structure StatementsMatch (L : Nat → Nat → Prop) (k : NodeId) (n m : Nat) : Prop where
  declaration : Matches L k (StmtsMatchIfAny L k) (declaration n) (declaration m)
  statement : Matches L k (Stmt.Matches L (Shifted k)) (statement n) (statement m)
  elseBranch? : Matches L k (StmtsMatchIfAny L k) (elseBranch? n) (elseBranch? m)
  block : Matches L k (Stmt.AllMatch L (Shifted k)) (block n) (block m)

theorem allMatch_toList {N : NodeId → NodeId → Prop} {s? s?' : Option Stmt}
    (h : Option.Rel (Stmt.Matches L N) s? s?') : Stmt.AllMatch L N s?.toList s?'.toList := by
  cases h with
  | none => exact .nil
  | some h => exact .cons h .nil

theorem statementsMatch (n m : Nat) : StatementsMatch L k n m := by
  induction n generalizing m with
  | zero =>
    constructor
    · rw [declaration.eq_1]; exact .outOfFuel _
    · rw [statement.eq_1]; exact .outOfFuel _
    · rw [elseBranch?.eq_1]; exact .outOfFuel _
    · rw [block.eq_1]; exact .outOfFuel _
  | succ n ih =>
    cases m with
    | zero =>
      constructor
      · rw [declaration.eq_1]; exact .outOfFuel' _
      · rw [statement.eq_1]; exact .outOfFuel' _
      · rw [elseBranch?.eq_1]; exact .outOfFuel' _
      · rw [block.eq_1]; exact .outOfFuel' _
    | succ m =>
    have ih := ih m
    constructor
    case declaration =>
      rw [declaration, declaration]
      refine Matches.recovering ((matches_accept? .kwFun).bind fun _ _ ht => ?_)
      cases ht with
      | some =>
        refine (matches_functionHead n m).bind fun _ _ hhead => ih.block.bind fun _ _ hbody => ?_
        rw [hhead.name.lexeme, hhead.params]
        exact .pure (.function _ _ hhead.name.line hbody)
      | none =>
        refine (matches_accept? .kwVar).bind fun _ _ ht => ?_
        cases ht with
        | some => exact matches_varDeclaration n m
        | none => exact ih.statement
    case statement =>
      rw [statement, statement]
      refine (matches_take? fun _ _ => opening?_matches).bind fun _ _ ho => ?_
      cases ho with
      | none => exact matches_expressionStatement n m
      | @some o o' ho =>
        obtain ⟨opening, l⟩ := o
        obtain ⟨opening', l'⟩ := o'
        obtain ⟨hopening, hl⟩ := ho
        cases hopening
        cases opening with
        | print => exact matches_printStatement n m hl
        | branch =>
          exact (matches_ifHead n m).bind fun _ _ hc => ih.statement.bind fun _ _ hs =>
            ih.elseBranch?.bind fun _ _ ht => .pure (.branch hl hc hs ht)
        | loop =>
          exact (matches_whileHead n m).bind fun _ _ hc => ih.statement.bind fun _ _ hb =>
            .pure (.loop hl hc hb)
        | forLoop =>
          exact (matches_forHead n m).bind fun _ _ hhead => ih.statement.bind fun _ _ hb =>
            .pure (matches_forLoop hl hhead hb)
        | result => exact matches_returnStatement n m hl
        | block => exact ih.block.bind fun _ _ hb => .pure (.block hl hb)
    case elseBranch? =>
      rw [elseBranch?, elseBranch?]
      refine (matches_accept? .kwElse).bind fun _ _ ht => ?_
      cases ht with
      | some => exact ih.statement.map fun _ _ => .some
      | none => exact .pure .none
    case block =>
      rw [block, block]
      refine matches_blockEnds.bind fun b _ hb => ?_
      subst hb
      split
      · exact (matches_expect _ _).bind fun _ _ _ => .pure .nil
      · exact ih.declaration.bind fun _ _ hs => ih.block.bind fun _ _ hss =>
          .pure ((allMatch_toList hs).append hss)

theorem matches_program (n m : Nat) :
    Matches L k (Stmt.AllMatch L (Shifted k)) (program n) (program m) := by
  induction n generalizing m with
  | zero => exact .outOfFuel _
  | succ n ih =>
    cases m with
    | zero => exact .outOfFuel' _
    | succ m =>
    rw [program, program]
    refine matches_atEnd.bind fun b _ hb => ?_
    subst hb
    split
    · exact .pure .nil
    · exact (statementsMatch n m).declaration.bind fun _ _ hs => (ih m).bind fun _ _ hss =>
        .pure ((allMatch_toList hs).append hss)

end Parser

namespace Parsed

theorem takeWhile_matches {ts ts' : List Token} (h : List.Forall₂ (Token.Matches L) ts ts') :
    List.Forall₂ (Token.Matches L) (ts.takeWhile (·.kind ≠ .eof)) (ts'.takeWhile (·.kind ≠ .eof)) := by
  induction h with
  | nil => exact .nil
  | cons ht _ ih =>
    rw [List.takeWhile_cons, List.takeWhile_cons, ht.kind]
    split
    · exact .cons ht ih
    · exact .nil

theorem find?_eof_matches {ts ts' : List Token} (h : List.Forall₂ (Token.Matches L) ts ts') :
    Option.Rel L ((ts.find? (·.kind = .eof)).map Token.line)
      ((ts'.find? (·.kind = .eof)).map Token.line) := by
  induction h with
  | nil => exact .none
  | @cons t t' ts ts' ht _ ih =>
    rw [List.find?_cons, List.find?_cons, ht.kind]
    cases decide (t.kind = .eof) with
    | true => exact .some ht.line
    | false => exact ih

/-- Tokens that match give programs and faults that match, whatever ids they start with. -/
theorem ofTokens_matches {ts ts' : List Token} (h : List.Forall₂ (Token.Matches L) ts ts') (h1 : L 1 1)
    (firstId firstId' : NodeId) :
    Stmt.AllMatch L whatever (ofTokens ts firstId).program (ofTokens ts' firstId').program ∧
      List.Forall₂ (Diagnostic.Matches L) (ofTokens ts firstId).faults
        (ofTokens ts' firstId').faults := by
  have hstart : (Cursor.start ts firstId).Matches L (firstId' - firstId) (Cursor.start ts' firstId') :=
    ⟨takeWhile_matches h, fun _ => h1, find?_eof_matches h, shifted_sub _ _, .nil⟩
  have hread := Parser.matches_program (Parser.fuel ts) (Parser.fuel ts') _ _ hstart
  have hfuel := Parser.program_ne_outOfFuel ts firstId
  have hfuel' := Parser.program_ne_outOfFuel ts' firstId'
  unfold ofTokens
  generalize Parser.program (Parser.fuel ts) (Cursor.start ts firstId) = r at hread hfuel
  generalize Parser.program (Parser.fuel ts') (Cursor.start ts' firstId') = r' at hread hfuel'
  cases hread with
  | outOfFuel => exact absurd rfl hfuel
  | outOfFuel' => exact absurd rfl hfuel'
  | fault hd hc => exact ⟨.nil, List.rel_append hc.faults (.cons hd .nil)⟩
  | done hp hc => exact ⟨hp.imp fun _ _ _ => trivial, hc.faults⟩

end Parsed
end LoxLang
