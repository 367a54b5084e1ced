import LoxLang.Proofs.Parse.Built
import LoxLang.Proofs.Token.Lines

/-!
The lines of the declarations and returns of a tree, in the order of the tree, are lines of tokens that were
read in this order.
-/
namespace LoxLang

mutual

def Stmt.checkedLines : Stmt → List Nat
  | .expression _ _ => []
  | .print _ _ => []
  | .var line _ _ => [line]
  | .block _ body => Stmt.allCheckedLines body
  | .branch _ _ thenBranch none => thenBranch.checkedLines
  | .branch _ _ thenBranch (some elseBranch) => thenBranch.checkedLines ++ elseBranch.checkedLines
  | .loop _ _ body => body.checkedLines
  | .function line _ _ body => line :: Stmt.allCheckedLines body
  | .result line _ => [line]

def Stmt.allCheckedLines : List Stmt → List Nat
  | [] => []
  | s :: ss => s.checkedLines ++ Stmt.allCheckedLines ss

end

def Stmt.checkedLinesOf : Option Stmt → List Nat
  | none => []
  | some s => s.checkedLines

theorem Stmt.checkedLines_branch (line : Nat) (condition : Expr) (thenBranch : Stmt)
    (elseBranch : Option Stmt) :
    (Stmt.branch line condition thenBranch elseBranch).checkedLines =
      thenBranch.checkedLines ++ Stmt.checkedLinesOf elseBranch := by
  cases elseBranch <;> simp [Stmt.checkedLines, Stmt.checkedLinesOf]

theorem Stmt.checkedLines_forLoop (line : Nat) (initializer : Option Stmt)
    (condition increment : Option Expr) (body : Stmt) :
    (Stmt.forLoop line initializer condition increment body).checkedLines =
      Stmt.checkedLinesOf initializer ++ body.checkedLines := by
  cases initializer <;> cases increment <;>
    simp [Stmt.forLoop, Stmt.checkedLines, Stmt.allCheckedLines, Stmt.checkedLinesOf, Stmt.ofExpr]

theorem Stmt.allCheckedLines_append (ss ts : List Stmt) :
    Stmt.allCheckedLines (ss ++ ts) = Stmt.allCheckedLines ss ++ Stmt.allCheckedLines ts := by
  induction ss with
  | nil => rfl
  | cons s ss ih => simp [Stmt.allCheckedLines, ih]

theorem Stmt.allCheckedLines_toList (s? : Option Stmt) :
    Stmt.allCheckedLines s?.toList = Stmt.checkedLinesOf s? := by
  cases s? <;> simp [Stmt.allCheckedLines, Stmt.checkedLinesOf]

namespace Parser

/-- The lines of what `p` builds are among those known before and those of the tokens read on the way, in
this order. -/
def Lines (known : List Nat) (p : Parser α) (lines : α → List Nat) : Prop :=
  ∀ c a c', p c = .done a c' →
    ∃ read, c.rest = read ++ c'.rest ∧ (lines a).Sublist (known ++ read.map Token.line)

section Rules
variable {α β : Type} {known : List Nat} {p : Parser α} {f : α → Parser β} {lines : α → List Nat}
  {lines' : β → List Nat}

theorem Lines.outOfFuel : Lines known (outOfFuel : Parser α) lines := fun _ _ _ h => nomatch h

theorem Lines.pure {a : α} (h : (lines a).Sublist known) : Lines known (Pure.pure a) lines := by
  rintro c b c' ⟨⟩
  exact ⟨[], rfl, h.trans (List.sublist_append_left _ _)⟩

theorem Lines.bind (hp : Lines known p lines) (hf : ∀ a, Lines (lines a) (f a) lines') :
    Lines known (p >>= f) lines' := by
  intro c b c'' h
  obtain ⟨a, c', ha, hb⟩ := bind_eq_done h
  obtain ⟨read, hrest, hlines⟩ := hp c a c' ha
  obtain ⟨read', hrest', hlines'⟩ := hf a c' b c'' hb
  refine ⟨read ++ read', by rw [hrest, hrest', List.append_assoc], hlines'.trans ?_⟩
  rw [List.map_append, ← List.append_assoc]
  exact hlines.append_right _

/-- What only reads on keeps what is known. -/
theorem Lines.of_plain (known : List Nat) (hp : Plain p) : Lines known p fun _ => known := by
  intro c a c' h
  have honward := hp.onward c
  rw [h] at honward
  obtain ⟨read, hread⟩ := honward.rest
  exact ⟨read, hread.symm, List.sublist_append_left _ _⟩

theorem Lines.mono {lines' : α → List Nat} (hp : Lines known p lines)
    (hle : ∀ a, (lines' a).Sublist (lines a)) : Lines known p lines' := by
  intro c a c' h
  obtain ⟨read, hrest, hlines⟩ := hp c a c' h
  exact ⟨read, hrest, (hle a).trans hlines⟩

/-- What is known stays known. -/
theorem Lines.frame (known : List Nat) (hp : Lines [] p lines) :
    Lines known p fun a => known ++ lines a := by
  intro c a c' h
  obtain ⟨read, hrest, hlines⟩ := hp c a c' h
  exact ⟨read, hrest, hlines.append_left known⟩

theorem Lines.map {g : α → β} (hp : Lines known p lines)
    (hg : ∀ a, (lines' (g a)).Sublist (lines a)) : Lines known (g <$> p) lines' :=
  hp.bind fun a => .pure (hg a)

theorem Lines.recovering (hplain : Plain p) (hp : Lines known p lines) :
    Lines known (recovering p) fun a? => (a?.map lines).getD known := by
  intro c a? c' h
  cases a? with
  | none => exact Lines.of_plain known (.recovering (fun _ => rfl) hplain) c none c' h
  | some a =>
    unfold Parser.recovering at h
    split at h <;> cases h
    next hpc => exact hp c a c' hpc

variable (known)

theorem lines_take? {g : Token → Option α} {f : Option α → Parser β}
    (hsome : ∀ t a, g t = some a → Lines (known ++ [t.line]) (f (some a)) lines')
    (hnone : Lines known (f none) lines') : Lines known (take? g >>= f) lines' := by
  have hstay {c c' : Cursor} {b : β} (h : take? g c = .done none c)
      (hb : (take? g >>= f) c = .done b c') :
      ∃ read, c.rest = read ++ c'.rest ∧ (lines' b).Sublist (known ++ read.map Token.line) := by
    rw [bind_of_done h] at hb
    exact hnone c b c' hb
  intro c b c' h
  cases hrest : c.rest with
  | nil => rw [← hrest]; exact hstay (by simp [take?, hrest]) h
  | cons t rest =>
    cases hg : g t with
    | none => rw [← hrest]; exact hstay (by simp [take?, hrest, hg]) h
    | some a =>
      have hstep : take? g c = .done (some a) { c with rest, line := t.line } := by
        simp [take?, hrest, hg]
      rw [bind_of_done hstep] at h
      obtain ⟨read, hread, hlines⟩ := hsome t a hg _ b c' h
      exact ⟨t :: read, congrArg (t :: ·) hread, by simpa using hlines⟩

theorem lines_accept? {kind : Kind} {f : Option Token → Parser β}
    (hsome : ∀ t, Lines (known ++ [t.line]) (f (some t)) lines') (hnone : Lines known (f none) lines') :
    Lines known (accept? kind >>= f) lines' := by
  refine lines_take? known (fun t a ha => ?_) hnone
  split at ha <;> cases ha
  exact hsome t

theorem lines_expect (kind : Kind) (what : Expectation) :
    Lines known (expect kind what) fun t => known ++ [t.line] :=
  lines_accept? known (fun _ => .pure (List.Sublist.refl _)) fun _ _ _ h => nomatch h

end Rules

theorem lines_varDeclaration (n : Nat) : Lines [] (varDeclaration n) Stmt.checkedLines :=
  (lines_expect [] _ _).bind fun _ => (Lines.of_plain _ (built_initializer? n).plain).bind fun _ =>
    (Lines.of_plain _ (plain_expect _ _)).bind fun _ => .pure (List.Sublist.refl _)

theorem lines_expressionStatement (n : Nat) : Lines [] (expressionStatement n) Stmt.checkedLines :=
  (Lines.of_plain [] (plain_expression n)).bind fun _ =>
    (Lines.of_plain [] (plain_expect _ _)).bind fun _ => .pure (List.Sublist.refl _)

theorem lines_printStatement (n line : Nat) : Lines [] (printStatement n line) Stmt.checkedLines :=
  (Lines.of_plain [] (plain_expression n)).bind fun _ =>
    (Lines.of_plain [] (plain_expect _ _)).bind fun _ => .pure (List.Sublist.refl _)

theorem lines_returnStatement (n line : Nat) :
    Lines [line] (returnStatement n line) Stmt.checkedLines :=
  (Lines.of_plain [line] (assembled_expressionBefore? n _).plain).bind fun _ =>
    (Lines.of_plain [line] (plain_expect _ _)).bind fun _ => .pure (List.Sublist.refl _)

theorem lines_forInitializer? (n : Nat) : Lines [] (forInitializer? n) Stmt.checkedLinesOf :=
  lines_accept? [] (fun _ => .pure (List.nil_sublist _))
    (lines_accept? [] (fun _ => ((lines_varDeclaration n).frame _).map fun _ => List.sublist_append_right _ _)
      ((lines_expressionStatement n).map fun _ => List.Sublist.refl _))

theorem lines_forHead (n : Nat) :
    Lines [] (forHead n) fun head => Stmt.checkedLinesOf head.initializer :=
  (Lines.of_plain [] (plain_expect _ _)).bind fun _ => (lines_forInitializer? n).bind fun _ =>
    (Lines.of_plain _ (assembled_expressionBefore? n _).plain).bind fun _ =>
      (Lines.of_plain _ (plain_expect _ _)).bind fun _ =>
        (Lines.of_plain _ (assembled_expressionBefore? n _).plain).bind fun _ =>
          (Lines.of_plain _ (plain_expect _ _)).bind fun _ => .pure (List.Sublist.refl _)

theorem lines_functionHead (n : Nat) : Lines [] (functionHead n) fun head => [head.name.line] :=
  (lines_expect [] _ _).bind fun _ => (Lines.of_plain _ (plain_expect _ _)).bind fun _ =>
    (Lines.of_plain _ (built_parameterList n).plain).bind fun _ =>
      (Lines.of_plain _ (plain_expect _ _)).bind fun _ =>
        (Lines.of_plain _ (plain_expect _ _)).bind fun _ => .pure (List.Sublist.refl _)

theorem lines_declared {n : Nat} (hstatement : Lines [] (statement n) Stmt.checkedLines)
    (hblock : Lines [] (block n) Stmt.allCheckedLines) : Lines [] (declared n) Stmt.checkedLines := by
  refine lines_accept? [] (fun t => ?_) (lines_accept? [] (fun t => ?_) hstatement)
  · refine ((lines_functionHead n).frame _).bind fun head => (hblock.frame _).bind fun body => .pure ?_
    rw [List.append_assoc]
    exact List.sublist_append_right _ _
  · exact ((lines_varDeclaration n).frame _).mono fun _ => List.sublist_append_right _ _

structure LinesOfStatements (n : Nat) : Prop where
  declaration : Lines [] (declaration n) Stmt.checkedLinesOf
  statement : Lines [] (statement n) Stmt.checkedLines
  elseBranch? : Lines [] (elseBranch? n) Stmt.checkedLinesOf
  block : Lines [] (block n) Stmt.allCheckedLines

theorem linesOfStatements (n : Nat) : LinesOfStatements n := by
  induction n with
  | zero =>
    constructor
    · rw [declaration]; exact .outOfFuel
    · rw [statement]; exact .outOfFuel
    · rw [elseBranch?]; exact .outOfFuel
    · rw [block]; exact .outOfFuel
  | succ n ih =>
    constructor
    case declaration =>
      rw [declaration_succ]
      have hdeclared := lines_declared ih.statement ih.block
      refine (Lines.recovering (assembled_declared n).plain hdeclared).mono fun s? => ?_
      cases s? <;> exact List.Sublist.refl _
    case statement =>
      rw [statement]
      refine lines_take? [] (fun t head hhead => ?_) (lines_expressionStatement n)
      obtain ⟨opening, -, rfl⟩ := Option.map_eq_some_iff.mp hhead
      have hright (lines : List Nat) : lines.Sublist ([] ++ [t.line] ++ lines) :=
        List.sublist_append_right _ _
      cases opening with
      | print => exact ((lines_printStatement n t.line).frame _).mono fun s => hright s.checkedLines
      | branch =>
        refine (Lines.of_plain _ (built_ifHead n).plain).bind fun condition =>
          (ih.statement.frame _).bind fun thenBranch => (ih.elseBranch?.frame _).bind fun elseBranch =>
            .pure ?_
        rw [Stmt.checkedLines_branch, List.append_assoc]
        exact hright _
      | loop =>
        exact (Lines.of_plain _ (built_whileHead n).plain).bind fun condition =>
          (ih.statement.frame _).bind fun body => .pure (hright body.checkedLines)
      | forLoop =>
        refine ((lines_forHead n).frame _).bind fun head => (ih.statement.frame _).bind fun body =>
          .pure ?_
        rw [Stmt.checkedLines_forLoop, List.append_assoc]
        exact hright _
      | result => exact lines_returnStatement n t.line
      | block => exact (ih.block.frame _).bind fun body => .pure (hright (Stmt.allCheckedLines body))
    case elseBranch? =>
      rw [elseBranch?]
      refine lines_accept? [] (fun t => ?_) (.pure (List.nil_sublist _))
      exact (ih.statement.frame _).map fun s => List.sublist_append_right _ _
    case block =>
      rw [block]
      refine (Lines.of_plain [] assembled_blockEnds.plain).bind fun b => ?_
      split
      · exact (Lines.of_plain [] (plain_expect _ _)).bind fun _ => .pure (List.Sublist.refl _)
      · refine ih.declaration.bind fun s? => (ih.block.frame _).bind fun ss => .pure ?_
        rw [Stmt.allCheckedLines_append, Stmt.allCheckedLines_toList]

theorem lines_program (n : Nat) : Lines [] (program n) Stmt.allCheckedLines := by
  induction n with
  | zero => exact .outOfFuel
  | succ n ih =>
    rw [program]
    refine (Lines.of_plain [] (Composed.atEnd fun _ => rfl)).bind fun b => ?_
    split
    · exact .pure (List.Sublist.refl _)
    · refine (linesOfStatements n).declaration.bind fun s? => (ih.frame _).bind fun ss => .pure ?_
      rw [Stmt.allCheckedLines_append, Stmt.allCheckedLines_toList]

end Parser

namespace Parsed

/-- The declarations and returns of a parse stand on lines of its tokens, one token each, in order. -/
theorem checkedLines_ofTokens (tokens : List Token) (firstId : NodeId) :
    (Stmt.allCheckedLines (ofTokens tokens firstId).program).Sublist
      ((readable tokens).map Token.line) := by
  unfold ofTokens
  split
  · next program c hp =>
    obtain ⟨read, hread, hlines⟩ := Parser.lines_program _ _ _ _ hp
    have hsub : read.Sublist (readable tokens) := by
      rw [show readable tokens = read ++ c.rest from hread]
      exact List.sublist_append_left _ _
    exact hlines.trans (hsub.map Token.line)
  · exact List.nil_sublist _
  · exact List.nil_sublist _

/-- Where the lines of the tokens never decrease, those of the declarations and returns do not either. -/
theorem checkedLines_in_order {tokens : List Token} (h : LinesInOrder tokens) (firstId : NodeId) :
    (Stmt.allCheckedLines (ofTokens tokens firstId).program).Pairwise (· ≤ ·) :=
  (List.pairwise_map.mpr h.toReadable).sublist (checkedLines_ofTokens tokens firstId)

end Parsed
end LoxLang
