import LoxLang.Proofs.Parse.Exchange
import LoxLang.Proofs.Parse.Placement

/-!
A `for` loop and the loop that it stands for, as tokens. Both have one tree, and so one may stand in the place
of the other.
-/
namespace LoxLang

open Grammar

def ReadsAs (ts : List Token) (s : Stmt) : Prop :=
  (Parsed.ofTokens ts 0).faults = [] ∧ (Parsed.ofTokens ts 0).program = [s]

def ReadsAsExpression (ts : List Token) : Prop :=
  ∃ n e c, Parser.expression n (Cursor.start ts 0) = .done e c ∧ c.rest = [] ∧ c.faults = #[]

def Stmt.Initializes : Stmt → Prop
  | .var _ _ _ | .expression _ _ => True
  | _ => False

structure ForLoop where
  initializer : List Token
  condition : List Token
  increment : List Token
  body : List Token
  reads_initializer : initializer.map (·.kind) = [.semicolon] ∨ ∃ s, ReadsAs initializer s ∧ s.Initializes
  reads_condition : condition = [] ∨ ReadsAsExpression condition
  reads_increment : increment = [] ∨ ReadsAsExpression increment
  reads_body : ∃ s, ReadsAs body s ∧ s.declares? = none
  lacks_eof : Lacks .eof (initializer ++ condition ++ increment ++ body)

structure Delimiters where
  token : Kind → Nat → Token
  kind_token : ∀ kind i, (token kind i).kind = kind

attribute [simp] Delimiters.kind_token

namespace ForLoop

variable (f : ForLoop) (m : Delimiters)

def tokens : List Token :=
  m.token .kwFor 0 :: m.token .leftParen 0 :: (f.initializer ++ (f.condition ++
    m.token .semicolon 0 :: (f.increment ++ m.token .rightParen 0 :: f.body)))

def repeatedTokens : List Token :=
  if f.increment.isEmpty then f.body
  else m.token .leftBrace 1 :: (f.body ++ (f.increment ++ [m.token .semicolon 0]) ++ [m.token .rightBrace 1])

/-- Without a condition the loop goes on forever. -/
def conditionTokens : List Token :=
  if f.condition.isEmpty then [m.token .kwTrue 0] else f.condition

def whileTokens : List Token :=
  m.token .kwWhile 0 :: m.token .leftParen 0 ::
    (f.conditionTokens m ++ m.token .rightParen 0 :: f.repeatedTokens m)

def expansion : List Token :=
  if f.initializer.map (·.kind) = [.semicolon] then f.whileTokens m
  else m.token .leftBrace 0 :: (f.initializer ++ f.whileTokens m ++ [m.token .rightBrace 0])

end ForLoop

section Reads
variable {ts : List Token} {s : Stmt}

@[simp] theorem Stmt.bare_declares? (s : Stmt) : s.bare.declares? = s.declares? := by
  cases s with
  | branch _ _ _ elseBranch => cases elseBranch <;> rfl
  | _ => rfl

theorem ReadsAs.declaration (h : ReadsAs ts s) (hts : Lacks .eof ts) :
    Declaration True ts s.bare := by
  have hd := Parsed.derives_of_faults_eq_nil h.1
  rw [h.2, ← readable, readable_eq_self.mpr hts, Stmt.allBare, Stmt.allBare] at hd
  cases hd with
  | cons hs hnil =>
    cases hnil
    rwa [List.append_nil]

theorem Grammar.Declaration.isStatement (h : Declaration True ts s) (hs : s.declares? = none) :
    ∃ isOpen, Statement True isOpen ts s := by
  cases h with
  | function => cases hs
  | var _ h => cases h; cases hs
  | statement h => exact ⟨_, h⟩

/-- No loop is an expression statement or a variable. -/
theorem Stmt.Initializes.ne_expanded (hs : s.Initializes) (initializer : Option Stmt)
    (condition increment : Option Expr) (body : Stmt) :
    s ≠ expanded initializer condition increment body := by
  rintro rfl
  cases initializer <;> exact hs

theorem Grammar.Declaration.initializer (h : Declaration True ts s) (hs : s.Initializes) :
    ForInitializer ts (some s) := by
  cases h with
  | function => exact hs.elim
  | var hk h => exact .var hk h
  | statement h =>
    cases h with
    | expression h => exact .expression h
    | forLoop => exact absurd rfl (hs.ne_expanded _ _ _ _)
    | _ => exact hs.elim

theorem Stmt.Initializes.bare (h : s.Initializes) : s.bare.Initializes := by
  cases s <;> trivial

theorem ReadsAsExpression.derives (h : ReadsAsExpression ts) (hts : Lacks .eof ts) :
    ∃ e, Expression ts e := by
  obtain ⟨n, e, c, hdone, hrest, hfaults⟩ := h
  have hreads := (Parser.readsExpressions n).expression (Cursor.start ts 0)
  simp only [Parser.ReadsFrom, hdone, hfaults, hrest] at hreads
  obtain ⟨us, hus, he⟩ := hreads.2 rfl
  have hstart : us = readable ts := by simpa [Cursor.start, readable] using hus.symm
  rw [hstart, readable_eq_self.mpr hts] at he
  exact ⟨_, he⟩

/-- An empty list of tokens stands for no expression. -/
theorem exists_optional (h : ts = [] ∨ ReadsAsExpression ts) (hts : Lacks .eof ts) :
    ∃ e?, Optional ts e? := by
  obtain rfl | h := h
  · exact ⟨none, .none⟩
  · obtain ⟨e, he⟩ := h.derives hts
    exact ⟨some e, .some he⟩

end Reads

namespace Grammar

theorem ForInitializer.eq_semicolon {ts : List Token} {s? : Option Stmt} (h : ForInitializer ts s?) :
    ts.map (·.kind) = [.semicolon] ↔ s? = Option.none := by
  cases h with
  | none hk => simp [hk]
  | var hk => simp [hk]
  | expression h =>
    obtain ⟨t, us, rfl, hk⟩ := h.start
    simp only [List.map_cons, List.cons.injEq, reduceCtorEq, iff_false]
    rintro ⟨ht, -⟩
    rw [ht] at hk
    exact absurd hk (by decide)

theorem ForInitializer.declaration {ts : List Token} {s : Stmt} (h : ForInitializer ts (some s)) :
    Declaration True ts s := by
  cases h with
  | var hk h => exact .var hk h
  | expression h => exact .statement (.expression h)

theorem Optional.isEmpty {ts : List Token} {e? : Option Expr} (h : Optional ts e?) :
    ts.isEmpty = e?.isNone := by
  cases h with
  | none => rfl
  | some h =>
    obtain ⟨t, us, rfl, -⟩ := h.start
    rfl

end Grammar

namespace ForLoop

variable (f : ForLoop) (m : Delimiters)

theorem parts_lack_eof : Lacks .eof f.initializer ∧ Lacks .eof f.condition ∧
    Lacks .eof f.increment ∧ Lacks .eof f.body := by
  simpa [and_assoc] using f.lacks_eof

/-- The parts as the grammar has them. -/
theorem derives : ∃ initializer condition increment body isOpen,
    ForInitializer f.initializer initializer ∧ Optional f.condition condition ∧
      Optional f.increment increment ∧ Statement True isOpen f.body body := by
  obtain ⟨hinitializer, hcondition, hincrement, hbody⟩ := f.parts_lack_eof
  obtain ⟨condition, hc⟩ := exists_optional f.reads_condition hcondition
  obtain ⟨increment, hn⟩ := exists_optional f.reads_increment hincrement
  obtain ⟨s, hreads, hs⟩ := f.reads_body
  obtain ⟨isOpen, hb⟩ := (hreads.declaration hbody).isStatement (by simpa using hs)
  obtain hlone | ⟨s', hreads', hs'⟩ := f.reads_initializer
  · obtain ⟨t, hi, hk⟩ := List.map_eq_singleton_iff.mp hlone
    exact ⟨none, condition, increment, s.bare, isOpen, hi ▸ .none hk, hc, hn, hb⟩
  · have hi := (hreads'.declaration hinitializer).initializer hs'.bare
    exact ⟨some s'.bare, condition, increment, s.bare, isOpen, hi, hc, hn, hb⟩

section Derived
variable {f}

theorem derives_condition {condition : Option Expr} (h : Optional f.condition condition) :
    Expression (f.conditionTokens m) (condition.getD (.literal 0 (.bool true))) := by
  rw [conditionTokens, h.isEmpty]
  generalize f.condition = ts at h ⊢
  cases h with
  | none => exact Primary.expression (.constant (.true (m.kind_token _ _)))
  | some h => exact h

theorem derives_repeated {increment : Option Expr} {isOpen : Bool} {body : Stmt}
    (hn : Optional f.increment increment) (hb : Statement True isOpen f.body body) :
    ∃ isOpen', (isOpen' = true → isOpen = true) ∧
      Statement True isOpen' (f.repeatedTokens m) (repeated increment body) := by
  rw [repeatedTokens, hn.isEmpty]
  generalize f.increment = ts at hn ⊢
  cases hn with
  | none => exact ⟨isOpen, id, hb⟩
  | some h =>
    have hsemicolon := m.kind_token .semicolon 0
    have hstep : Declarations True _ _ := .cons (.statement (.expression (.mk hsemicolon h))) .nil
    rw [List.append_nil] at hstep
    have hblock := Statement.block (m.kind_token .leftBrace 1) (m.kind_token .rightBrace 1)
      (.cons (.statement hb) hstep)
    exact ⟨false, (absurd · Bool.false_ne_true), hblock⟩

theorem derives_expansion {initializer : Option Stmt} {condition increment : Option Expr}
    {isOpen : Bool} {body : Stmt} (hi : ForInitializer f.initializer initializer)
    (hc : Optional f.condition condition) (hn : Optional f.increment increment)
    (hb : Statement True isOpen f.body body) :
    ∃ isOpen', (isOpen' = true → isOpen = true) ∧
      Statement True isOpen' (f.expansion m) (expanded initializer condition increment body) := by
  obtain ⟨isOpen', hopen, hrepeated⟩ := derives_repeated m hn hb
  have hloop := Statement.loop (m.kind_token .kwWhile 0) (m.kind_token .leftParen 0)
    (m.kind_token .rightParen 0) (derives_condition m hc) hrepeated
  cases initializer with
  | none =>
    rw [expansion, if_pos (hi.eq_semicolon.mpr rfl)]
    exact ⟨isOpen', hopen, hloop⟩
  | some s =>
    rw [expansion, if_neg fun h => Option.some_ne_none s (hi.eq_semicolon.mp h)]
    have hinside := Declarations.cons hi.declaration (.cons (.statement hloop) .nil)
    rw [List.append_nil] at hinside
    have hblock := Statement.block (m.kind_token .leftBrace 0) (m.kind_token .rightBrace 0) hinside
    exact ⟨false, (absurd · Bool.false_ne_true), hblock⟩

end Derived

/-- Both derive one tree, and the expansion is not open where the loop is not. -/
theorem exists_tree (m' : Delimiters) : ∃ isOpen isOpen' s, Statement True isOpen (f.tokens m) s ∧
    Statement True isOpen' (f.expansion m') s ∧ (isOpen' = true → isOpen = true) := by
  obtain ⟨initializer, condition, increment, body, isOpen, hi, hc, hn, hb⟩ := f.derives
  obtain ⟨isOpen', hopen, hexpansion⟩ := derives_expansion m' hi hc hn hb
  exact ⟨isOpen, isOpen', _, .forLoop (m.kind_token _ _) (m.kind_token _ _) (m.kind_token _ _)
    (m.kind_token _ _) hi hc hn hb, hexpansion, hopen⟩

theorem lacks_eof_tokens : Lacks .eof (f.tokens m) := by
  simp [tokens, f.parts_lack_eof]

theorem lacks_eof_whileTokens : Lacks .eof (f.whileTokens m) := by
  have hcondition : Lacks .eof (f.conditionTokens m) := by
    unfold conditionTokens
    split <;> simp [f.parts_lack_eof]
  have hrepeated : Lacks .eof (f.repeatedTokens m) := by
    unfold repeatedTokens
    split <;> simp [f.parts_lack_eof]
  simp [whileTokens, hcondition, hrepeated]

theorem lacks_eof_expansion : Lacks .eof (f.expansion m) := by
  unfold expansion
  split <;> simp [f.parts_lack_eof, f.lacks_eof_whileTokens m]

theorem identifiers_whileTokens : identifiers (f.whileTokens m) =
    identifiers f.condition + identifiers f.increment + identifiers f.body := by
  have hcondition : identifiers (f.conditionTokens m) = identifiers f.condition := by
    unfold conditionTokens
    split
    · next h => simp [List.isEmpty_iff.mp h, identifiers]
    · rfl
  have hrepeated :
      identifiers (f.repeatedTokens m) = identifiers f.increment + identifiers f.body := by
    unfold repeatedTokens
    split
    · next h => simp [List.isEmpty_iff.mp h, identifiers]
    · simp [identifiers, Nat.add_comm]
  unfold identifiers at hcondition hrepeated ⊢
  simp [whileTokens, hcondition, hrepeated, Nat.add_assoc]

/-- The expansion has the identifiers of the loop, in another order. -/
theorem identifiers_expansion (m' : Delimiters) :
    identifiers (f.expansion m') = identifiers (f.tokens m) := by
  have hwhile := f.identifiers_whileTokens m'
  have htokens : identifiers (f.tokens m) = identifiers f.initializer +
      (identifiers f.condition + identifiers f.increment + identifiers f.body) := by
    simp [tokens, identifiers, Nat.add_assoc]
  rw [htokens, ← hwhile, expansion]
  split
  · next h =>
    obtain ⟨t, ht, hk⟩ := List.map_eq_singleton_iff.mp h
    simp [identifiers, ht, hk]
  · simp [identifiers]

end ForLoop

namespace Parsed

/-- Where a loop stands in a program without faults and no `else` follows, its expansion may stand, and the tree
is the same. -/
theorem exchange_forLoop (f : ForLoop) (m m' : Delimiters) {before behind : List Token} {firstId : NodeId}
    (hbehind : ∀ t ∈ behind.head?, t.kind ≠ .kwElse)
    (h : (ofTokens (before ++ f.tokens m ++ behind) firstId).faults = []) (firstId' : NodeId) :
    (ofTokens (before ++ f.expansion m' ++ behind) firstId').faults = [] ∧
      Stmt.allBare (ofTokens (before ++ f.expansion m' ++ behind) firstId').program =
        Stmt.allBare (ofTokens (before ++ f.tokens m ++ behind) firstId).program := by
  obtain ⟨isOpen, isOpen', s, hloop, hexpansion, hopen⟩ := f.exists_tree m m'
  refine faults_eq_nil_of_derives firstId' ?_
  have hd := derives_of_faults_eq_nil h
  generalize Stmt.allBare (ofTokens (before ++ f.tokens m ++ behind) firstId).program = tree at hd ⊢
  rw [← readable, List.append_assoc] at hd ⊢
  by_cases hbefore : Lacks .eof before
  · rw [readable_append hbefore, readable_append (f.lacks_eof_tokens m), ← List.append_assoc] at hd
    rw [readable_append hbefore, readable_append (f.lacks_eof_expansion m'), ← List.append_assoc]
    refine hd.exchange rfl (m.kind_token .kwFor 0) hloop hexpansion hopen fun t ht => hbehind t ?_
    rw [readable, List.head?_takeWhile] at ht
    exact (Option.mem_filter_iff.mp ht).1
  · rw [readable_append_of_eof hbefore] at hd ⊢
    exact hd

end Parsed
end LoxLang
