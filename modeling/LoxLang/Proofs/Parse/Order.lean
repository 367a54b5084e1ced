import Mathlib
import LoxLang.Proofs.Parse.Built
import LoxLang.Proofs.Parse.Stuck
import LoxLang.Proofs.Token.Lines

/-!
The order of the faults of a parse. A fault is reported at the token it is about, and the faults come in
the order of these tokens, with one exception: that a target is invalid is recorded only when the value
after its `=` has been read, and so after the faults inside that value.
-/
namespace LoxLang

/-- What is wrong, and how many tokens come before the one that it is reported at. -/
structure Report where
  position : Nat
  cause : Cause
deriving DecidableEq

def Report.diagnostic (tokens : List Token) (r : Report) : Diagnostic :=
  match (readable tokens)[r.position]? with
  | some t => ⟨t.line, .at t.lexeme, r.cause⟩
  | none => ⟨endLine tokens, .atEnd, r.cause⟩

/-- After these faults an expression is read on. -/
def Cause.Lenient (cause : Cause) : Prop :=
  cause = .invalidAssignmentTarget ∨ cause = .tooManyArguments

def SameExpression (tokens : List Token) (i j : Nat) : Prop :=
  ∀ k t, i < k → k < j → (readable tokens)[k]? = some t → t.kind.endsExpression = false

theorem SameExpression.mono {tokens : List Token} {i j k : Nat} (h : SameExpression tokens i k)
    (hjk : j ≤ k) : SameExpression tokens i j :=
  fun l t hi hj => h l t hi (Nat.lt_of_lt_of_le hj hjk)

/-- The order of two reports is that of their tokens, unless the second is about an invalid target and the
first about the value that it was to get. -/
def Report.Precedes (tokens : List Token) (r r' : Report) : Prop :=
  r.position ≤ r'.position ∨
    (r.cause.Lenient ∧ r'.cause = .invalidAssignmentTarget ∧
      SameExpression tokens r'.position r.position)

structure Report.Between (tokens : List Token) (P : Cause → Prop) (i j : Nat) (rs : List Report) :
    Prop where
  positions : ∀ r ∈ rs, i ≤ r.position ∧ r.position ≤ j
  causes : ∀ r ∈ rs, P r.cause
  order : rs.Pairwise (Report.Precedes tokens)

namespace Report.Between

variable {tokens : List Token} {P : Cause → Prop} {i j k : Nat} {rs rs' : List Report}

theorem nil : Report.Between tokens P i j [] := ⟨nofun, nofun, .nil⟩

theorem single {r : Report} (hi : i ≤ r.position) (hj : r.position ≤ j) (hP : P r.cause) :
    Report.Between tokens P i j [r] where
  positions _ h := by rw [List.mem_singleton.mp h]; exact ⟨hi, hj⟩
  causes _ h := by rw [List.mem_singleton.mp h]; exact hP
  order := List.pairwise_singleton _ _

theorem mono {Q : Cause → Prop} (h : Report.Between tokens P i j rs)
    (hle : ∀ cause, P cause → Q cause) : Report.Between tokens Q i j rs :=
  ⟨h.positions, fun r hr => hle _ (h.causes r hr), h.order⟩

/-- Reports may follow others if each of these precedes each of them. -/
theorem append_of (h : Report.Between tokens P i j rs) (h' : Report.Between tokens P i k rs')
    (hjk : j ≤ k) (hcross : ∀ r ∈ rs, ∀ r' ∈ rs', r.Precedes tokens r') :
    Report.Between tokens P i k (rs ++ rs') where
  positions r hr := by
    obtain hr | hr := List.mem_append.mp hr
    · exact ⟨(h.positions r hr).1, Nat.le_trans (h.positions r hr).2 hjk⟩
    · exact h'.positions r hr
  causes r hr := (List.mem_append.mp hr).elim (h.causes r) (h'.causes r)
  order := List.pairwise_append.mpr ⟨h.order, h'.order, hcross⟩

theorem weaken (h : Report.Between tokens P j k rs) (hij : i ≤ j) : Report.Between tokens P i k rs :=
  ⟨fun r hr => ⟨Nat.le_trans hij (h.positions r hr).1, (h.positions r hr).2⟩, h.causes, h.order⟩

theorem append (h : Report.Between tokens P i j rs) (h' : Report.Between tokens P j k rs') (hij : i ≤ j)
    (hjk : j ≤ k) : Report.Between tokens P i k (rs ++ rs') :=
  h.append_of (h'.weaken hij) hjk fun r hr r' hr' =>
    .inl (Nat.le_trans (h.positions r hr).2 (h'.positions r' hr').1)

end Report.Between

structure Cursor.At (tokens : List Token) (c : Cursor) (i : Nat) : Prop where
  le : i ≤ (readable tokens).length
  rest : c.rest = (readable tokens).drop i
  line : c.line = lineBefore (readable tokens) i
  endLine : c.endLine = (tokens.find? (·.kind = .eof)).map Token.line

namespace Cursor.At

variable {tokens : List Token} {c c' : Cursor} {i : Nat}

theorem start (tokens : List Token) (firstId : NodeId) : (Cursor.start tokens firstId).At tokens 0 :=
  ⟨Nat.zero_le _, rfl, rfl, rfl⟩

theorem getElem? (h : c.At tokens i) {t : Token} {rest : List Token} (hrest : c.rest = t :: rest) :
    (readable tokens)[i]? = some t := by
  have hhead := List.head?_drop (l := readable tokens) (i := i)
  rw [← h.rest, hrest] at hhead
  exact hhead.symm

/-- Past the next token. -/
theorem next (h : c.At tokens i) {t : Token} {rest : List Token} (hrest : c.rest = t :: rest) :
    ({ c with rest, line := t.line } : Cursor).At tokens (i + 1) where
  le := (List.getElem?_eq_some_iff.mp (h.getElem? hrest)).1
  rest := by rw [← List.drop_drop, ← h.rest, hrest]; rfl
  line := (lineBefore_succ (h.getElem? hrest)).symm
  endLine := h.endLine

/-- A fault at the next token, or at the end, is reported at the position of the cursor. -/
theorem faultHere (h : c.At tokens i) (cause : Cause) :
    c.faultHere cause = Report.diagnostic tokens ⟨i, cause⟩ := by
  unfold Cursor.faultHere Report.diagnostic
  cases hrest : c.rest with
  | cons t rest => rw [h.getElem? hrest]
  | nil =>
    have hi : i = (readable tokens).length := by
      have hlength := congrArg List.length (h.rest.symm.trans hrest)
      rw [List.length_drop, List.length_nil] at hlength
      exact Nat.le_antisymm h.le (Nat.sub_eq_zero_iff_le.mp hlength)
    rw [List.getElem?_eq_none (Nat.le_of_eq hi.symm), h.endLine, h.line, hi]
    rfl

/-- The tokens between two cursors are those at the positions between theirs. -/
theorem getElem?_of_read {j : Nat} (h : c.At tokens i) (h' : c'.At tokens j) {read : List Token}
    (hread : c.rest = read ++ c'.rest) {k : Nat} {t : Token} (hi : i ≤ k) (hj : k < j)
    (ht : (readable tokens)[k]? = some t) : t ∈ read := by
  have hlength := congrArg List.length hread
  rw [h.rest, h'.rest, List.length_append, List.length_drop, List.length_drop] at hlength
  have hk : k - i < read.length := by have := h'.le; omega
  have hat : (c.rest)[k - i]? = some t := by
    rw [h.rest, List.getElem?_drop, Nat.add_sub_cancel' hi, ht]
  rw [hread, List.getElem?_append_left hk] at hat
  exact List.mem_of_getElem? hat

theorem of_eq (h : c.At tokens i) (hrest : c'.rest = c.rest) (hline : c'.line = c.line)
    (hend : c'.endLine = c.endLine) : c'.At tokens i :=
  ⟨h.le, hrest.trans h.rest, hline.trans h.line, hend.trans h.endLine⟩

theorem skipTokens {ts : List Token} {line i : Nat}
    (h : (⟨ts, line, c.endLine, c.nextId, c.faults⟩ : Cursor).At tokens i) :
    ∃ j, i ≤ j ∧ (⟨(Cursor.skipTokens ts line).1, (Cursor.skipTokens ts line).2, c.endLine, c.nextId,
      c.faults⟩ : Cursor).At tokens j := by
  induction ts generalizing line i with
  | nil => exact ⟨i, Nat.le_refl i, h⟩
  | cons t ts ih =>
    have hnext := h.next rfl
    unfold Cursor.skipTokens
    split
    · exact ⟨i + 1, Nat.le_succ i, hnext⟩
    · obtain ⟨j, hij, hj⟩ := ih hnext
      exact ⟨j, Nat.le_trans (Nat.le_succ i) hij, hj⟩

end Cursor.At

structure Cursor.Records (tokens : List Token) (P : Cause → Prop) (c : Cursor) (i : Nat) (c' : Cursor)
    (j : Nat) : Prop where
  le : i ≤ j
  arrives : c'.At tokens j
  recorded : ∃ rs, c'.faults.toList = c.faults.toList ++ rs.map (Report.diagnostic tokens) ∧
    Report.Between tokens P i j rs

namespace Cursor.Records

variable {tokens : List Token} {P : Cause → Prop} {c c' c'' : Cursor} {i j k : Nat}

theorem silent (hij : i ≤ j) (h : c'.At tokens j) (hfaults : c'.faults = c.faults) :
    c.Records tokens P i c' j :=
  ⟨hij, h, [], by rw [hfaults]; simp, .nil⟩

theorem trans (h : c.Records tokens P i c' j) (h' : c'.Records tokens P j c'' k) :
    c.Records tokens P i c'' k := by
  obtain ⟨rs, hfaults, hrs⟩ := h.recorded
  obtain ⟨rs', hfaults', hrs'⟩ := h'.recorded
  refine ⟨Nat.le_trans h.le h'.le, h'.arrives, rs ++ rs', ?_, hrs.append hrs' h.le h'.le⟩
  rw [hfaults', hfaults, List.append_assoc, List.map_append]

theorem mono {Q : Cause → Prop} (h : c.Records tokens P i c' j) (hle : ∀ cause, P cause → Q cause) :
    c.Records tokens Q i c' j := by
  obtain ⟨rs, hfaults, hrs⟩ := h.recorded
  exact ⟨h.le, h.arrives, rs, hfaults, hrs.mono hle⟩

theorem record (h : c.At tokens i) {cause : Cause} (hP : P cause) :
    c.Records tokens P i (c.record (Report.diagnostic tokens ⟨i, cause⟩)) i where
  le := Nat.le_refl i
  arrives := h.of_eq rfl rfl rfl
  recorded := ⟨[⟨i, cause⟩], by simp [Cursor.record], .single (Nat.le_refl i) (Nat.le_refl i) hP⟩

/-- An invalid target is reported at its `=`, when what comes after it has been read. -/
theorem recordTarget (hc : c.At tokens i) {t : Token} {rest : List Token} (hrest : c.rest = t :: rest)
    (h : c.Records tokens Cause.Lenient i c' j)
    (hvalue : SameExpression tokens i j) :
    c.Records tokens Cause.Lenient i (c'.record ⟨t.line, .at t.lexeme, .invalidAssignmentTarget⟩) j where
  le := h.le
  arrives := h.arrives.of_eq rfl rfl rfl
  recorded := by
    obtain ⟨rs, hfaults, hrs⟩ := h.recorded
    have hlast : Report.Between tokens Cause.Lenient i j [⟨i, .invalidAssignmentTarget⟩] :=
      .single (Nat.le_refl i) h.le (.inl rfl)
    refine ⟨rs ++ [⟨i, .invalidAssignmentTarget⟩], ?_, hrs.append_of hlast (Nat.le_refl j) ?_⟩
    · simp [Cursor.record, hfaults, Report.diagnostic, hc.getElem? hrest]
    · intro r hr r' hr'
      rw [List.mem_singleton.mp hr']
      exact .inr ⟨hrs.causes r hr, rfl, hvalue.mono (hrs.positions r hr).2⟩

theorem skipStatement (h : c.At tokens i) : ∃ j, c.Records tokens P i c.skipStatement j := by
  obtain ⟨j, hij, hj⟩ := Cursor.At.skipTokens (c := c) (h.of_eq rfl rfl rfl)
  exact ⟨j, .silent hij hj rfl⟩

end Cursor.Records

def Reading.InOrder (tokens : List Token) (P : Cause → Prop) (c : Cursor) (i : Nat) : Reading α → Prop
  | .outOfFuel => True
  | .fault d c' => ∃ j cause, c.Records tokens P i c' j ∧ d = Report.diagnostic tokens ⟨j, cause⟩
  | .done _ c' => ∃ j, c.Records tokens P i c' j

namespace Parser

def InOrder (tokens : List Token) (P : Cause → Prop) (p : Parser α) : Prop :=
  ∀ c i, c.At tokens i → (p c).InOrder tokens P c i

section Rules
variable {α β : Type} {tokens : List Token} {P : Cause → Prop} {p : Parser α} {f : α → Parser β}

theorem InOrder.outOfFuel : InOrder tokens P (outOfFuel : Parser α) := fun _ _ _ => trivial

theorem InOrder.pure (a : α) : InOrder tokens P (Pure.pure a) := fun _ i h =>
  ⟨i, .silent (Nat.le_refl i) h rfl⟩

theorem InOrder.fail (cause : Cause) : InOrder tokens P (fail cause : Parser α) := fun _ i h =>
  ⟨i, cause, .silent (Nat.le_refl i) h rfl, h.faultHere cause⟩

theorem InOrder.bind (hp : InOrder tokens P p) (hf : ∀ a, InOrder tokens P (f a)) :
    InOrder tokens P (p >>= f) := by
  intro c i hc
  have hp := hp c i hc
  cases hpc : p c with
  | outOfFuel => rw [bind_of_outOfFuel hpc]; trivial
  | fault d c' => rw [hpc] at hp; rw [bind_of_fault hpc]; exact hp
  | done a c' =>
    rw [hpc] at hp
    rw [bind_of_done hpc]
    obtain ⟨j, hj⟩ := hp
    have hf := hf a c' j hj.arrives
    cases hfc : f a c' with
    | outOfFuel => trivial
    | fault d c'' =>
      rw [hfc] at hf
      obtain ⟨k, cause, hk, hd⟩ := hf
      exact ⟨k, cause, hj.trans hk, hd⟩
    | done b c'' =>
      rw [hfc] at hf
      obtain ⟨k, hk⟩ := hf
      exact ⟨k, hj.trans hk⟩

theorem InOrder.map (hp : InOrder tokens P p) (g : α → β) : InOrder tokens P (g <$> p) :=
  hp.bind fun a => .pure (g a)

theorem InOrder.mono {Q : Cause → Prop} (hp : InOrder tokens P p) (hle : ∀ cause, P cause → Q cause) :
    InOrder tokens Q p := by
  intro c i hc
  have hp := hp c i hc
  cases hpc : p c with
  | outOfFuel => trivial
  | fault d c' =>
    rw [hpc] at hp
    obtain ⟨j, cause, hj, hd⟩ := hp
    exact ⟨j, cause, hj.mono hle, hd⟩
  | done a c' =>
    rw [hpc] at hp
    obtain ⟨j, hj⟩ := hp
    exact ⟨j, hj.mono hle⟩

theorem InOrder.take? (g : Token → Option α) : InOrder tokens P (take? g) := by
  intro c i hc
  have hstay : ∃ j, c.Records tokens P i c j := ⟨i, .silent (Nat.le_refl i) hc rfl⟩
  unfold Parser.take?
  cases hrest : c.rest with
  | nil => exact hstay
  | cons t rest =>
    cases hg : g t with
    | none => simp only [hg]; exact hstay
    | some a =>
      simp only [hg]
      exact ⟨i + 1, .silent (Nat.le_succ i) (hc.next hrest) rfl⟩

theorem InOrder.accept? (kind : Kind) : InOrder tokens P (accept? kind) := .take? _

theorem InOrder.expect (kind : Kind) (what : Expectation) : InOrder tokens P (expect kind what) :=
  (InOrder.accept? kind).bind fun
    | some t => .pure t
    | none => .fail _

theorem InOrder.nextIs (kind : Kind) : InOrder tokens P (nextIs kind) := fun _ i h =>
  ⟨i, .silent (Nat.le_refl i) h rfl⟩

theorem InOrder.atEnd : InOrder tokens P atEnd := fun _ i h =>
  ⟨i, .silent (Nat.le_refl i) h rfl⟩

theorem InOrder.freshId : InOrder tokens P freshId := fun _ i h =>
  ⟨i, .silent (Nat.le_refl i) (h.of_eq rfl rfl rfl) rfl⟩

theorem InOrder.limitCount (count : Nat) {cause : Cause} (hP : P cause) :
    InOrder tokens P (limitCount count cause) := by
  intro c i h
  unfold Parser.limitCount
  split
  · rw [h.faultHere]
    exact ⟨i, .record h hP⟩
  · exact ⟨i, .silent (Nat.le_refl i) h rfl⟩

theorem InOrder.recovering (hp : InOrder tokens P p) :
    InOrder tokens (fun _ => True) (recovering p) := by
  intro c i hc
  have hp := hp c i hc
  unfold Parser.recovering
  cases hpc : p c with
  | outOfFuel => trivial
  | fault d c' =>
    rw [hpc] at hp
    obtain ⟨j, cause, hj, rfl⟩ := hp
    have hrecord : c'.Records tokens (fun _ => True) j
        (c'.record (Report.diagnostic tokens ⟨j, cause⟩)) j := .record hj.arrives trivial
    obtain ⟨k, hk⟩ := Cursor.Records.skipStatement hrecord.arrives
    exact ⟨k, ((hj.mono fun _ _ => trivial).trans hrecord).trans hk⟩
  | done a c' =>
    rw [hpc] at hp
    obtain ⟨j, hj⟩ := hp
    exact ⟨j, hj.mono fun _ _ => trivial⟩

end Rules

section Rules
variable {tokens : List Token}

theorem assignment_eq (equals : Token) (target value : Expr) (c : Cursor) :
    (∃ e, assignment equals target value c = .done e c) ∨
      assignment equals target value c =
        .done target (c.record ⟨equals.line, .at equals.lexeme, .invalidAssignmentTarget⟩) := by
  unfold assignment
  split
  · exact .inl ⟨_, rfl⟩
  · exact .inr rfl

/-- An assignment to something else than a variable is reported at its `=`, after the reports inside its
value. -/
theorem inOrder_assignment {target : Expr} {value : Parser Expr}
    (hcomposed : Composed Kind.endsExpression value) (hv : InOrder tokens Cause.Lenient value) :
    InOrder tokens Cause.Lenient (do
      match ← Parser.accept? .equal with
      | none => pure target
      | some equals => assignment equals target (← value)) := by
  intro c i hc
  have hstay (h : Parser.accept? .equal c = .done none c) :
      ((Parser.accept? .equal >>= fun
        | none => pure target
        | some equals => value >>= assignment equals target) c).InOrder tokens Cause.Lenient c i := by
    rw [bind_of_done h]
    exact ⟨i, .silent (Nat.le_refl i) hc rfl⟩
  cases hrest : c.rest with
  | nil => exact hstay (accept?_eq_none .equal (by simp [hrest]))
  | cons t rest =>
    by_cases ht : t.kind = .equal
    · have haccept : Parser.accept? .equal c = .done (some t) { c with rest, line := t.line } := by
        simp [Parser.accept?, Parser.take?, hrest, ht]
      have hstep : c.Records tokens Cause.Lenient i { c with rest, line := t.line } (i + 1) :=
        .silent (Nat.le_succ i) (hc.next hrest) rfl
      have hv := hv _ _ hstep.arrives
      rw [bind_of_done haccept]
      dsimp only
      cases hvc : value { c with rest, line := t.line } with
      | outOfFuel => rw [bind_of_outOfFuel hvc]; trivial
      | fault d c' =>
        rw [hvc] at hv
        obtain ⟨j, cause, hj, hd⟩ := hv
        rw [bind_of_fault hvc]
        exact ⟨j, cause, hstep.trans hj, hd⟩
      | done v c' =>
        rw [hvc] at hv
        obtain ⟨j, hj⟩ := hv
        rw [bind_of_done hvc]
        have hread := hstep.trans hj
        have hvalue : SameExpression tokens i j := by
          intro k t hi hk ht
          obtain ⟨read, hrest, hkinds⟩ := hcomposed.passesOver hvc
          exact hkinds t (hstep.arrives.getElem?_of_read hj.arrives hrest hi hk ht)
        obtain ⟨e, he⟩ | he := assignment_eq t target v c'
        · rw [he]; exact ⟨j, hread⟩
        · rw [he]; exact ⟨j, hread.recordTarget hc hrest hvalue⟩
    · exact hstay (accept?_eq_none .equal (by simpa [hrest] using ht))

end Rules

structure InOrderExpressions (tokens : List Token) (n : Nat) : Prop where
  expression : InOrder tokens Cause.Lenient (expression n)
  operands (level : Level) : InOrder tokens Cause.Lenient (operands n level)
  operators (level : Level) (left : Expr) : InOrder tokens Cause.Lenient (operators n level left)
  calls (callee : Expr) : InOrder tokens Cause.Lenient (calls n callee)
  argumentList : InOrder tokens Cause.Lenient (argumentList n)
  arguments (count : Nat) : InOrder tokens Cause.Lenient (arguments n count)
  primary : InOrder tokens Cause.Lenient (primary n)

theorem inOrderExpressions (tokens : List Token) (n : Nat) : InOrderExpressions tokens n := by
  induction n with
  | zero =>
    constructor
    · rw [expression]; exact .outOfFuel
    · intro level; rw [operands]; exact .outOfFuel
    · intro level left; rw [operators]; exact .outOfFuel
    · intro callee; rw [calls]; exact .outOfFuel
    · rw [argumentList]; exact .outOfFuel
    · intro count; rw [arguments]; exact .outOfFuel
    · rw [primary]; exact .outOfFuel
  | succ n ih =>
    constructor
    case expression =>
      rw [expression]
      exact (ih.operands .or).bind fun target =>
        inOrder_assignment (composedExpressions n).expression ih.expression
    case operands =>
      intro level
      by_cases hl : level = .unary
      · subst hl
        rw [operands]
        refine (InOrder.take? unaryNode?).bind fun node? => ?_
        cases node? with
        | some node => exact (ih.operands .unary).map node
        | none => exact ih.primary.bind ih.calls
      · rw [operands.eq_3 _ _ hl]
        exact (ih.operands _).bind (ih.operators level)
    case operators =>
      intro level left
      rw [operators]
      refine (InOrder.take? level.join?).bind fun join? => ?_
      cases join? with
      | none => exact .pure left
      | some join => exact (ih.operands _).bind fun _ => ih.operators level _
    case calls =>
      intro callee
      rw [calls]
      refine (InOrder.accept? _).bind fun paren? => ?_
      cases paren? with
      | none => exact .pure callee
      | some => exact ih.argumentList.bind fun _ => (InOrder.expect _ _).bind fun _ => ih.calls _
    case argumentList =>
      rw [argumentList]
      refine (InOrder.nextIs _).bind fun b => ?_
      split
      · exact .pure []
      · exact ih.arguments 0
    case arguments =>
      intro count
      rw [arguments]
      refine (InOrder.limitCount count (.inr rfl)).bind fun _ => ih.expression.bind fun e =>
        (InOrder.accept? _).bind fun comma? => ?_
      cases comma? with
      | none => exact .pure [e]
      | some => exact (ih.arguments _).map _
    case primary =>
      rw [primary]
      refine (InOrder.take? Expr.ofConstant?).bind fun e? => ?_
      cases e? with
      | some e => exact .pure e
      | none =>
        refine (InOrder.accept? _).bind fun t? => ?_
        cases t? with
        | some t => exact InOrder.freshId.map _
        | none =>
          refine (InOrder.accept? _).bind fun paren? => ?_
          cases paren? with
          | none => exact .fail _
          | some => exact ih.expression.bind fun _ => (InOrder.expect _ _).bind fun _ => .pure _

/-- Whatever is built of expressions reads in order. -/
theorem Built.inOrder {ends : Kind → Bool} {p : Parser α} (h : Built ends p) (tokens : List Token) :
    InOrder tokens (fun _ => True) p := by
  induction h with
  | outOfFuel => exact .outOfFuel
  | pure a => exact .pure a
  | fail cause => exact .fail cause
  | bind _ _ hp hf => exact hp.bind hf
  | take? => exact .take? _
  | nextIs => exact .nextIs _
  | limitCount count cause => exact .limitCount count trivial
  | expression n => exact (inOrderExpressions tokens n).expression.mono fun _ _ => trivial
  | atEnd => exact .atEnd
  | recovering _ _ hp => exact hp.recovering

end Parser

section Lines
variable {tokens : List Token}

/-- A report at a later token, or at the end, is on no earlier line. -/
theorem LinesInOrder.line_le (h : LinesInOrder tokens) {r r' : Report} (hle : r.position ≤ r'.position) :
    (r.diagnostic tokens).line ≤ (r'.diagnostic tokens).line := by
  unfold Report.diagnostic
  cases hr' : (readable tokens)[r'.position]? with
  | none =>
    cases hr : (readable tokens)[r.position]? with
    | none => exact Nat.le_refl _
    | some t => exact h.le_endLine (List.mem_of_getElem? hr)
  | some t' =>
    obtain ⟨hlt', ht'⟩ := List.getElem?_eq_some_iff.mp hr'
    have hlt : r.position < (readable tokens).length := Nat.lt_of_le_of_lt hle hlt'
    rw [List.getElem?_eq_getElem hlt, ← ht']
    obtain heq | hlt := Nat.eq_or_lt_of_le hle
    · simp [heq]
    · exact List.pairwise_iff_getElem.mp h.toReadable _ _ _ _ hlt

end Lines

/-- The order of two faults of a parse by their lines, unless the second is an invalid target. -/
def Diagnostic.Precedes (d d' : Diagnostic) : Prop :=
  d.line ≤ d'.line ∨ (d.cause.Lenient ∧ d'.cause = .invalidAssignmentTarget)

theorem Report.cause_diagnostic (tokens : List Token) (r : Report) :
    (r.diagnostic tokens).cause = r.cause := by
  unfold Report.diagnostic
  split <;> rfl

theorem LinesInOrder.precedes {tokens : List Token} (h : LinesInOrder tokens) {r r' : Report}
    (hr : r.Precedes tokens r') : (r.diagnostic tokens).Precedes (r'.diagnostic tokens) := by
  unfold Diagnostic.Precedes
  rw [r.cause_diagnostic, r'.cause_diagnostic]
  exact hr.imp h.line_le fun hlate => ⟨hlate.1, hlate.2.1⟩

namespace Parsed

/-- The faults of a parse are those of reports in order. -/
theorem exists_reports (tokens : List Token) (firstId : NodeId) :
    ∃ rs : List Report, (ofTokens tokens firstId).faults = rs.map (Report.diagnostic tokens) ∧
      (∀ r ∈ rs, r.position ≤ (readable tokens).length) ∧ rs.Pairwise (Report.Precedes tokens) := by
  have hordered := (Parser.assembled_program (Parser.fuel tokens)).inOrder tokens _ 0 (.start tokens firstId)
  unfold ofTokens
  cases hp : Parser.program (Parser.fuel tokens) (Cursor.start tokens firstId) with
  | outOfFuel => exact ⟨[], rfl, nofun, .nil⟩
  | fault d c =>
    rw [hp] at hordered
    obtain ⟨j, cause, hj, rfl⟩ := hordered
    obtain ⟨rs, hfaults, hrs⟩ := hj.recorded
    have hlast : Report.Between tokens (fun _ => True) j j [⟨j, cause⟩] :=
      .single (Nat.le_refl j) (Nat.le_refl j) trivial
    have hall := hrs.append hlast hj.le (Nat.le_refl j)
    refine ⟨_, ?_, fun r hr => Nat.le_trans (hall.positions r hr).2 hj.arrives.le, hall.order⟩
    simp [hfaults, Cursor.start]
  | done program c =>
    rw [hp] at hordered
    obtain ⟨j, hj⟩ := hordered
    obtain ⟨rs, hfaults, hrs⟩ := hj.recorded
    exact ⟨rs, hfaults, fun r hr => Nat.le_trans (hrs.positions r hr).2 hj.arrives.le, hrs.order⟩

theorem precedes_of_lines {tokens : List Token} (h : LinesInOrder tokens) (firstId : NodeId) :
    (ofTokens tokens firstId).faults.Pairwise Diagnostic.Precedes := by
  obtain ⟨rs, hfaults, -, hrs⟩ := exists_reports tokens firstId
  rw [hfaults, List.pairwise_map]
  exact hrs.imp h.precedes

/-- Each fault is reported at a token that was read or at the end, and the faults come in the order of these
tokens and of their lines. Only the report of an invalid target may follow others that stand behind it: those
of invalid targets and of arguments too many inside the value that it was to get. -/
theorem faults_in_order (tokens : List Token) (firstId : NodeId) :
    ∃ rs : List Report, (ofTokens tokens firstId).faults = rs.map (Report.diagnostic tokens) ∧
      (∀ r ∈ rs, r.position ≤ (readable tokens).length) ∧ rs.Pairwise (Report.Precedes tokens) ∧
      (LinesInOrder tokens → (ofTokens tokens firstId).faults.Pairwise Diagnostic.Precedes) := by
  obtain ⟨rs, hfaults, hle, hrs⟩ := exists_reports tokens firstId
  exact ⟨rs, hfaults, hle, hrs, fun hlines => precedes_of_lines hlines firstId⟩

theorem faults_in_order_of_lines :
    LinesInOrder (scan "1 = 2;\nprint;").tokens ∧
      (ofTokens (scan "1 = 2;\nprint;").tokens 0).faults.Pairwise Diagnostic.Precedes := by
  obtain ⟨-, -, -, -, hlines⟩ := faults_in_order (scan "1 = 2;\nprint;").tokens 0
  exact ⟨linesInOrder_scan _, hlines (linesInOrder_scan _)⟩

/-- Of two invalid targets, one in the value of the other, the inner one is reported first. -/
theorem nested_targets_inside_out :
    LinesInOrder (scan "true\n= false\n= nil;").tokens ∧
      (ofTokens (scan "true\n= false\n= nil;").tokens 0).faults =
        [⟨3, .at "=", .invalidAssignmentTarget⟩, ⟨2, .at "=", .invalidAssignmentTarget⟩] :=
  ⟨linesInOrder_scan _, by cbv⟩

end Parsed
end LoxLang
