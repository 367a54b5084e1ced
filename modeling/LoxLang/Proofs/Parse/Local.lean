import LoxLang.Proofs.Parse.Built
import LoxLang.Proofs.Parse.Stuck

/-!
How far a parser looks ahead. What stops before the tokens end goes the same way when more tokens follow,
faults and recovery included. And what builds a statement builds it whatever stands behind its last token,
unless that is an `else`.
-/
namespace LoxLang

def Cursor.extend (c : Cursor) (us : List Token) (endLine : Option Nat) : Cursor :=
  { c with rest := c.rest ++ us, endLine }

namespace Reading

variable {α : Type}

def extend (us : List Token) (endLine : Option Nat) : Reading α → Reading α
  | .outOfFuel => .outOfFuel
  | .fault d c => .fault d (c.extend us endLine)
  | .done a c => .done a (c.extend us endLine)

def Stops : Reading α → Prop
  | .outOfFuel => False
  | .fault _ c => c.rest ≠ []
  | .done _ c => c.rest ≠ []

end Reading

namespace Cursor

variable {c d : Cursor} {us : List Token} {endLine : Option Nat}

theorem extend_nil (c : Cursor) : c.extend [] c.endLine = c := by
  simp only [extend, List.append_nil]

theorem extend_congr (h : c.extend us endLine = d.extend us endLine) (us' : List Token)
    (endLine' : Option Nat) : c.extend us' endLine' = d.extend us' endLine' := by
  simp only [extend] at h ⊢
  injection h with hrest hline _ hid hfaults
  rw [List.append_cancel_right hrest, hline, hid, hfaults]

/-- The same tokens stand behind a cursor between two. -/
theorem Onward.exists_extend {c₁ : Cursor} (h : (c.extend us endLine).Onward c₁)
    (h' : c₁.Onward (d.extend us endLine)) :
    ∃ c' : Cursor, c₁ = c'.extend us endLine ∧ d.rest <:+ c'.rest := by
  obtain ⟨ts, hts⟩ := h'.rest
  have hrest : ts ++ d.rest ++ us = c₁.rest := (List.append_assoc _ _ _).trans hts
  have hend : c₁.endLine = endLine := h.endLine
  refine ⟨{ c₁ with rest := ts ++ d.rest }, ?_, List.suffix_append _ _⟩
  simp only [extend, hrest, ← hend]

theorem ne_nil_of_extend_lt (h : (d.extend us endLine).rest.length < (c.extend us endLine).rest.length) :
    c.rest ≠ [] := by
  intro hc
  simp only [extend, hc, List.length_append, List.nil_append] at h
  omega

theorem extend_faultHere (h : c.rest ≠ []) (cause : Cause) :
    (c.extend us endLine).faultHere cause = c.faultHere cause := by
  obtain ⟨t, ts, hrest⟩ := List.exists_cons_of_ne_nil h
  simp only [faultHere, extend, hrest, List.cons_append]

theorem skipTokens_append {ts : List Token} {line : Nat} (us : List Token)
    (h : (skipTokens ts line).1 ≠ []) :
    ts ≠ [] ∧
      skipTokens (ts ++ us) line = ((skipTokens ts line).1 ++ us, (skipTokens ts line).2) := by
  induction ts generalizing line with
  | nil => exact absurd rfl h
  | cons t ts ih =>
    refine ⟨List.cons_ne_nil t ts, ?_⟩
    have hhead (hne : ts ≠ []) : (ts ++ us).head? = ts.head? := by
      rw [List.head?_append, Option.or_of_isSome (List.isSome_head?.mpr hne)]
    by_cases hstop : (t.kind = .semicolon || ts.head?.any (·.kind.startsStatement)) = true
    · have hskip : skipTokens (t :: ts) line = (ts, t.line) := by rw [skipTokens, if_pos hstop]
      rw [hskip] at h ⊢
      rw [List.cons_append, skipTokens, hhead h, if_pos hstop]
    · have hskip : skipTokens (t :: ts) line = skipTokens ts t.line := by
        rw [skipTokens, if_neg hstop]
      rw [hskip] at h ⊢
      obtain ⟨hne, hrest⟩ := ih h
      rw [List.cons_append, skipTokens, hhead hne, if_neg hstop, hrest]

theorem extend_skipStatement (us : List Token) (endLine : Option Nat)
    (h : c.skipStatement.rest ≠ []) :
    c.rest ≠ [] ∧ (c.extend us endLine).skipStatement = c.skipStatement.extend us endLine := by
  obtain ⟨hne, hskip⟩ := skipTokens_append us h
  refine ⟨hne, ?_⟩
  simp only [skipStatement, extend, hskip]

end Cursor

namespace Parser

section Peeks
variable {α : Type}

/-- Where a token is ahead, those behind the last make no difference. -/
def Peeks (p : Parser α) : Prop := ∀ c us endLine, c.rest ≠ [] →
  p (c.extend us endLine) = (p c).extend us endLine

theorem peeks_take? (g : Token → Option α) : Peeks (take? g) := by
  intro c us endLine h
  obtain ⟨t, ts, hrest⟩ := List.exists_cons_of_ne_nil h
  simp only [take?, hrest, Cursor.extend, List.cons_append]
  cases g t with
  | none => simp [Reading.extend, Cursor.extend, hrest]
  | some a => rfl

theorem peeks_nextIs (kind : Kind) : Peeks (nextIs kind) := by
  intro c us endLine h
  obtain ⟨t, ts, hrest⟩ := List.exists_cons_of_ne_nil h
  simp [nextIs, Reading.extend, Cursor.extend, hrest]

theorem peeks_atEnd : Peeks atEnd := by
  intro c us endLine h
  obtain ⟨t, ts, hrest⟩ := List.exists_cons_of_ne_nil h
  simp [atEnd, Reading.extend, Cursor.extend, hrest]

theorem peeks_fail (cause : Cause) : Peeks (fail cause : Parser α) := fun _ _ _ h =>
  congrArg (Reading.fault · _) (Cursor.extend_faultHere h cause)

theorem peeks_expect (kind : Kind) (what : Expectation) : Peeks (expect kind what) := by
  intro c us endLine h
  obtain ⟨t, ts, hrest⟩ := List.exists_cons_of_ne_nil h
  by_cases hkind : t.kind = kind
  · simp [expect, accept?, take?, Bind.bind, Parser.bind, Pure.pure, Parser.pure, Reading.extend,
      Cursor.extend, hrest, hkind]
  · have hne : ∀ u ∈ c.rest.head?, u.kind ≠ kind := by simpa [hrest] using hkind
    have hne' : ∀ u ∈ (c.extend us endLine).rest.head?, u.kind ≠ kind := by
      simpa [Cursor.extend, hrest] using hkind
    rw [expect_eq_fault what hne, expect_eq_fault what hne', Cursor.extend_faultHere h]
    rfl

theorem peeks_limitCount (count : Nat) (cause : Cause) : Peeks (limitCount count cause) := by
  intro c us endLine h
  by_cases hcount : count = maxArguments
  · simp only [limitCount, hcount, if_true]
    rw [Cursor.extend_faultHere h]
    rfl
  · simp only [limitCount, hcount, if_false]
    rfl

end Peeks

section Rules
variable {α β : Type} {ends : Kind → Bool} {p : Parser α} {f : α → Parser β}

/-- What stops before the tokens end began before it. -/
theorem Composed.rest_ne_nil (h : Composed ends p) {c : Cursor} (hstops : (p c).Stops) : c.rest ≠ [] := by
  have hon := h.onward c
  cases hp : p c with
  | outOfFuel => rw [hp] at hstops; exact hstops.elim
  | fault d c' => rw [hp] at hstops hon; exact fun hnil => hstops (List.suffix_nil.mp (hnil ▸ hon.rest))
  | done a c' => rw [hp] at hstops hon; exact fun hnil => hstops (List.suffix_nil.mp (hnil ▸ hon.rest))

/-- Where it stops before the tokens end, more of them make no difference. -/
theorem Composed.extend (h : Composed ends p) {c : Cursor} (us : List Token) (endLine : Option Nat)
    (hstops : (p c).Stops) : p (c.extend us endLine) = (p c).extend us endLine := by
  induction h generalizing c with
  | outOfFuel => exact hstops.elim
  | pure | report | freshId => rfl
  | fail cause => exact peeks_fail cause c us endLine hstops
  | take? h => exact peeks_take? _ c us endLine (Composed.rest_ne_nil (.take? h) hstops)
  | nextIs => exact peeks_nextIs _ c us endLine hstops
  | atEnd => exact peeks_atEnd c us endLine hstops
  | limitCount count cause =>
    have hlimit : Plain (Parser.limitCount count cause) := .limitCount count cause
    exact peeks_limitCount count cause c us endLine (hlimit.rest_ne_nil hstops)
  | @bind _ _ p f _ hcf hp hf =>
    cases hpc : p c with
    | outOfFuel => rw [bind_of_outOfFuel hpc] at hstops; exact hstops.elim
    | fault d c' =>
      rw [bind_of_fault hpc] at hstops ⊢
      have hext := hp (c := c) (by rw [hpc]; exact hstops)
      rw [hpc] at hext
      exact bind_of_fault hext
    | done a c' =>
      rw [bind_of_done hpc] at hstops ⊢
      have hext := hp (c := c) (by rw [hpc]; exact (hcf a).rest_ne_nil hstops)
      rw [hpc] at hext
      rw [bind_of_done hext]
      exact hf a hstops
  | @recovering _ p _ _ hp =>
    unfold Parser.recovering at hstops ⊢
    cases hpc : p c with
    | outOfFuel => rw [hpc] at hstops; exact hstops.elim
    | fault d c' =>
      rw [hpc] at hstops
      obtain ⟨hne, hskip⟩ := Cursor.extend_skipStatement us endLine hstops
      rw [hp (c := c) (by rw [hpc]; exact hne), hpc]
      exact congrArg (Reading.done none) hskip
    | done a c' =>
      rw [hpc] at hstops
      rw [hp (c := c) (by rw [hpc]; exact hstops), hpc]
      rfl

end Rules

section Rules
variable {ends : Kind → Bool} {p : Parser α} {f : α → Parser β}

theorem Peeks.swap (hp : Peeks p) {c d : Cursor} {a : α} {us : List Token} {endLine : Option Nat}
    (hc : c.rest ≠ []) (h : p (c.extend us endLine) = .done a (d.extend us endLine)) (us' : List Token)
    (endLine' : Option Nat) : p (c.extend us' endLine') = .done a (d.extend us' endLine') := by
  rw [hp c us endLine hc] at h
  rw [hp c us' endLine' hc]
  cases hpc : p c with
  | outOfFuel | fault => rw [hpc] at h; cases h
  | done b c' =>
    rw [hpc] at h
    injection h with hb hc'
    rw [hb, Reading.extend, Cursor.extend_congr hc' us' endLine']

/-- Where it is done without a fault and before some tokens, others make no difference. -/
theorem Composed.swap (h : Composed ends p) {c d : Cursor} {a : α} {us : List Token} {endLine : Option Nat}
    (hp : p (c.extend us endLine) = .done a (d.extend us endLine)) (hd : d.rest ≠ [])
    (hclean : d.faults = c.faults) (us' : List Token) (endLine' : Option Nat) :
    p (c.extend us' endLine') = .done a (d.extend us' endLine') := by
  have hc : c.rest ≠ [] := by
    rintro hc
    have hle := (done_onward h.plain hp).rest.length_le
    simp only [Cursor.extend, hc, List.length_append, List.length_nil] at hle
    exact hd (List.length_eq_zero_iff.mp (by omega))
  induction h generalizing c d with
  | outOfFuel | fail => cases hp
  | pure | report | freshId => exact Peeks.swap (fun _ _ _ _ => rfl) hc hp us' endLine'
  | take? => exact (peeks_take? _).swap hc hp us' endLine'
  | nextIs => exact (peeks_nextIs _).swap hc hp us' endLine'
  | atEnd => exact peeks_atEnd.swap hc hp us' endLine'
  | limitCount count cause => exact (peeks_limitCount count cause).swap hc hp us' endLine'
  | bind hcp hcf ihp ihf =>
    obtain ⟨b, c₁, hb, ha⟩ := bind_eq_done hp
    have hon := done_onward hcp.plain hb
    have hon' := done_onward (hcf b).plain ha
    have hsame : c₁.faults = c.faults := hon.faults_eq hon' hclean
    obtain ⟨c₁, rfl, hsuffix⟩ := hon.exists_extend hon'
    have hc₁ : c₁.rest ≠ [] := fun hnil => hd (List.suffix_nil.mp (hnil ▸ hsuffix))
    rw [bind_of_done (ihp hb hc₁ hsame hc)]
    exact ihf b ha hd (hclean.trans hsame.symm) hc₁
  | recovering _ hcp ih =>
    obtain ⟨b, rfl, hb⟩ := recovering_done hcp.plain hp hclean
    rw [Parser.recovering, ih hb hd hclean hc]

end Rules

/-- Where it is done without a fault and before some tokens, others make no difference, even if it looks at
the first of them; only that must not be an `else`. -/
structure Steady (p : Parser α) : Prop where
  plain : Plain p
  swap : ∀ (c d : Cursor) (a : α) (us us' : List Token) (endLine endLine' : Option Nat),
    p (c.extend us endLine) = .done a (d.extend us endLine) → d.faults = c.faults →
      (∀ t ∈ us'.head?, t.kind ≠ .kwElse) → p (c.extend us' endLine') = .done a (d.extend us' endLine')

structure Closes (p : Parser α) : Prop extends Steady p where
  reads : ∀ c a c', p c = .done a c' → c'.rest.length < c.rest.length

section Rules
variable {p : Parser α} {f : α → Parser β}

theorem Steady.pure (a : α) : Steady (Pure.pure a : Parser α) where
  plain := .pure a
  swap c d b us us' endLine endLine' h _ _ := by
    injection h with ha hc
    rw [← ha, ← Cursor.extend_congr hc us' endLine']
    rfl

theorem Steady.bind (hp : Steady p) (hf : ∀ a, Steady (f a)) : Steady (p >>= f) where
  plain := hp.plain.bind fun a => (hf a).plain
  swap := by
    intro c d b us us' endLine endLine' h hclean helse
    obtain ⟨a, c₁, ha, hb⟩ := bind_eq_done h
    have hon := done_onward hp.plain ha
    have hon' := done_onward (hf a).plain hb
    have hsame : c₁.faults = c.faults := hon.faults_eq hon' hclean
    obtain ⟨c₁, rfl, -⟩ := hon.exists_extend hon'
    rw [bind_of_done (hp.swap c c₁ a us us' endLine endLine' ha hsame helse)]
    exact (hf a).swap c₁ d b us us' endLine endLine' hb (hclean.trans hsame.symm) helse

theorem Steady.recovering (hp : Steady p) : Steady (recovering p) where
  plain := .recovering (fun _ => rfl) hp.plain
  swap := by
    intro c d a? us us' endLine endLine' h hclean helse
    obtain ⟨a, rfl, ha⟩ := recovering_done hp.plain h hclean
    rw [Parser.recovering, hp.swap c d a us us' endLine endLine' ha hclean helse]

theorem Closes.bind (hp : Closes p) (hf : ∀ a, Steady (f a)) : Closes (p >>= f) where
  toSteady := hp.toSteady.bind hf
  reads c b c' h := by
    obtain ⟨a, c₁, ha, hb⟩ := bind_eq_done h
    exact Nat.lt_of_le_of_lt (done_onward (hf a).plain hb).rest.length_le (hp.reads c a c₁ ha)

/-- A part that looks ahead stands before one that reads on. -/
theorem Composed.closes {ends : Kind → Bool} (hp : Composed ends p) (hf : ∀ a, Closes (f a)) :
    Closes (p >>= f) where
  plain := hp.plain.bind fun a => (hf a).plain
  swap := by
    intro c d b us us' endLine endLine' h hclean helse
    obtain ⟨a, c₁, ha, hb⟩ := bind_eq_done h
    have hon := done_onward hp.plain ha
    have hon' := done_onward (hf a).plain hb
    have hsame : c₁.faults = c.faults := hon.faults_eq hon' hclean
    obtain ⟨c₁, rfl, -⟩ := hon.exists_extend hon'
    have hc₁ := Cursor.ne_nil_of_extend_lt ((hf a).reads _ b _ hb)
    rw [bind_of_done (hp.swap ha hc₁ hsame us' endLine')]
    exact (hf a).swap c₁ d b us us' endLine endLine' hb (hclean.trans hsame.symm) helse
  reads c b c' h := by
    obtain ⟨a, c₁, ha, hb⟩ := bind_eq_done h
    exact Nat.lt_of_lt_of_le ((hf a).reads c₁ b c' hb) (done_onward hp.plain ha).rest.length_le

theorem expect_eq_done {kind : Kind} {what : Expectation} {c c' : Cursor} {t : Token}
    (h : expect kind what c = .done t c') :
    ∃ ts, c.rest = t :: ts ∧ t.kind = kind ∧ c' = { c with rest := ts, line := t.line } := by
  obtain ⟨t?, c₁, htake, hend⟩ := bind_eq_done h
  unfold accept? take? at htake
  cases hrest : c.rest with
  | nil => rw [hrest] at htake; cases htake; cases hend
  | cons u us =>
    rw [hrest] at htake
    by_cases hkind : u.kind = kind
    · simp only [hkind, if_true] at htake
      cases htake
      cases hend
      exact ⟨us, rfl, hkind, rfl⟩
    · simp only [hkind, if_false] at htake
      cases htake
      cases hend

theorem expect_reads {kind : Kind} {what : Expectation} {c c' : Cursor} {t : Token}
    (h : expect kind what c = .done t c') : c'.rest.length < c.rest.length := by
  obtain ⟨ts, hrest, -, rfl⟩ := expect_eq_done h
  rw [hrest]
  exact Nat.lt_succ_self _

theorem closes_expect (kind : Kind) (what : Expectation) : Closes (expect kind what) where
  plain := plain_expect kind what
  swap _ _ _ _ us' _ endLine' h _ _ :=
    (peeks_expect kind what).swap (Cursor.ne_nil_of_extend_lt (expect_reads h)) h us' endLine'
  reads _ _ _ := expect_reads

end Rules

theorem closes_varDeclaration (n : Nat) : Closes (varDeclaration n) :=
  (plain_expect _ _).closes fun _ => (built_initializer? n).composed.closes fun _ =>
    (closes_expect _ _).bind fun _ => .pure _

theorem closes_expressionStatement (n : Nat) : Closes (expressionStatement n) :=
  (plain_expression n).closes fun _ => (closes_expect _ _).bind fun _ => .pure _

theorem closes_printStatement (n line : Nat) : Closes (printStatement n line) :=
  (plain_expression n).closes fun _ => (closes_expect _ _).bind fun _ => .pure _

theorem closes_returnStatement (n line : Nat) : Closes (returnStatement n line) :=
  (assembled_expressionBefore? n _).plain.closes fun _ => (closes_expect _ _).bind fun _ => .pure _

theorem closes_ifHead (n : Nat) : Closes (ifHead n) :=
  (plain_expect _ _).closes fun _ => (plain_expression n).closes fun _ => (closes_expect _ _).bind fun _ =>
    .pure _

theorem closes_whileHead (n : Nat) : Closes (whileHead n) :=
  (plain_expect _ _).closes fun _ => (plain_expression n).closes fun _ => (closes_expect _ _).bind fun _ =>
    .pure _

theorem closes_forHead (n : Nat) : Closes (forHead n) :=
  (plain_expect _ _).closes fun _ => (assembled_forInitializer? n).plain.closes fun _ =>
    (assembled_expressionBefore? n _).plain.closes fun _ => (plain_expect _ _).closes fun _ =>
      (assembled_expressionBefore? n _).plain.closes fun _ => (closes_expect _ _).bind fun _ => .pure _

theorem closes_functionHead (n : Nat) : Closes (functionHead n) :=
  (plain_expect _ _).closes fun _ => (plain_expect _ _).closes fun _ =>
    (built_parameterList n).plain.closes fun _ => (plain_expect _ _).closes fun _ =>
      (closes_expect _ _).bind fun _ => .pure _

theorem steady_acceptElse : Steady (accept? .kwElse) where
  plain := plain_accept? _
  swap := by
    intro c d t? us us' endLine endLine' h _ helse
    by_cases hc : c.rest = []
    · -- Nothing is read, so no `else` was there either.
      cases t? with
      | some =>
        obtain ⟨t, ts, hrest, -, hd⟩ := take?_eq_done_some h
        exact absurd hc (Cursor.ne_nil_of_extend_lt (by rw [hd, hrest]; exact Nat.lt_succ_self _))
      | none =>
        have hnone : accept? .kwElse (c.extend us' endLine') = .done none (c.extend us' endLine') :=
          accept?_eq_none _ fun t ht => helse t (by simpa [Cursor.extend, hc] using ht)
        rw [hnone, Cursor.extend_congr (take?_eq_done_none h) us' endLine']
    · exact (peeks_take? _).swap hc h us' endLine'

theorem steady_elseBranch? {n : Nat} (h : Closes (statement n)) : Steady (elseBranch? (n + 1)) := by
  rw [elseBranch?]
  refine steady_acceptElse.bind fun t? => ?_
  cases t? with
  | none => exact .pure none
  | some => exact h.toSteady.bind fun _ => .pure _

structure ClosesStatements (n : Nat) : Prop where
  statement : Closes (statement n)
  elseBranch? : Steady (elseBranch? n)
  block : Closes (block n)

theorem closes_outOfFuel : Closes (outOfFuel : Parser α) where
  plain := .outOfFuel
  swap _ _ _ _ _ _ _ h := by cases h
  reads _ _ _ h := by cases h

theorem closesStatements (n : Nat) : ClosesStatements n := by
  induction n with
  | zero =>
    constructor
    · rw [statement]; exact closes_outOfFuel
    · rw [elseBranch?]; exact closes_outOfFuel.toSteady
    · rw [block]; exact closes_outOfFuel
  | succ n ih =>
    constructor
    case statement =>
      rw [statement]
      refine (plain_take? opening?).closes fun opening? => ?_
      cases opening? with
      | none => exact closes_expressionStatement n
      | some head =>
        obtain ⟨opening, line⟩ := head
        cases opening with
        | print => exact closes_printStatement n line
        | branch =>
          exact (closes_ifHead n).bind fun _ => ih.statement.toSteady.bind fun _ => ih.elseBranch?.bind fun _ =>
            .pure _
        | loop => exact (closes_whileHead n).bind fun _ => ih.statement.toSteady.bind fun _ => .pure _
        | forLoop => exact (closes_forHead n).bind fun _ => ih.statement.toSteady.bind fun _ => .pure _
        | result => exact closes_returnStatement n line
        | block => exact ih.block.bind fun _ => .pure _
    case elseBranch? => exact steady_elseBranch? ih.statement
    case block =>
      rw [block]
      refine assembled_blockEnds.plain.closes fun b => ?_
      split
      · exact (closes_expect _ _).bind fun _ => .pure []
      · exact (assembledStatements n).declaration.plain.closes fun _ => ih.block.bind fun _ => .pure _

theorem closes_declared (n : Nat) : Closes (declared n) := by
  refine (plain_accept? _).closes fun t? => ?_
  cases t? with
  | some =>
    exact (closes_functionHead n).bind fun _ => (closesStatements n).block.toSteady.bind fun _ => .pure _
  | none =>
    refine (plain_accept? _).closes fun t? => ?_
    cases t? with
    | some => exact closes_varDeclaration n
    | none => exact (closesStatements n).statement

theorem steady_declaration (n : Nat) : Steady (declaration n) := by
  cases n with
  | zero => rw [declaration]; exact closes_outOfFuel.toSteady
  | succ n => rw [declaration_succ]; exact (closes_declared n).toSteady.recovering

/-- What is built is built from the same tokens when others follow. -/
theorem Steady.extend {p : Parser α} (hp : Steady p) {c c' : Cursor} {a : α} {us : List Token}
    (endLine : Option Nat) (helse : ∀ t ∈ us.head?, t.kind ≠ .kwElse) (h : p c = .done a c')
    (hclean : c'.faults = c.faults) : p (c.extend us endLine) = .done a (c'.extend us endLine) := by
  refine hp.swap c c' a [] us c.endLine endLine ?_ hclean helse
  have hend := (done_onward hp.plain h).endLine
  rw [Cursor.extend_nil, ← hend, Cursor.extend_nil]
  exact h

end Parser
end LoxLang
