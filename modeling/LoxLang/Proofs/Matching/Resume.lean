import Mathlib
import LoxLang.Proofs.Parse.Semicolon
import LoxLang.Proofs.Parse.Segments

/-!
Where reading goes on after a malformed statement. One without a semicolon and without an opening brace is
given up as a whole, up to the keyword of the next statement; what stands around it is read as if it stood
alone, at the top level as in a block.
-/
namespace LoxLang

namespace Parser

section Rules
variable {α β : Type} {p : Parser α} {f : α → Parser β}

def Concludes (p : Parser α) : Prop := ∀ c a c', p c = .done a c' →
  ∃ t ∈ c.rest, t.kind = .semicolon ∨ t.kind = .leftBrace

theorem Concludes.bind (hp : Concludes p) (f : α → Parser β) : Concludes (p >>= f) := by
  intro c b c' h
  obtain ⟨a, c₁, ha, -⟩ := bind_eq_done h
  exact hp c a c₁ ha

theorem Plain.concludes (hp : Plain p) (hf : ∀ a, Concludes (f a)) : Concludes (p >>= f) := by
  intro c b c' h
  obtain ⟨a, c₁, ha, hb⟩ := bind_eq_done h
  obtain ⟨t, ht, hkind⟩ := hf a c₁ b c' hb
  exact ⟨t, (done_onward hp ha).rest.subset ht, hkind⟩

theorem concludes_expect {kind : Kind} (h : kind = .semicolon ∨ kind = .leftBrace) (what : Expectation) :
    Concludes (expect kind what) := by
  intro c t c' hdone
  obtain ⟨ts, hrest, rfl, -⟩ := expect_eq_done hdone
  exact ⟨t, by simp [hrest], h⟩

end Rules

theorem concludes_varDeclaration (n : Nat) : Concludes (varDeclaration n) :=
  (plain_expect _ _).concludes fun _ => (built_initializer? n).plain.concludes fun _ =>
    (concludes_expect (.inl rfl) _).bind _

theorem concludes_expressionStatement (n : Nat) : Concludes (expressionStatement n) :=
  (plain_expression n).concludes fun _ => (concludes_expect (.inl rfl) _).bind _

theorem concludes_printStatement (n line : Nat) : Concludes (printStatement n line) :=
  (plain_expression n).concludes fun _ => (concludes_expect (.inl rfl) _).bind _

theorem concludes_returnStatement (n line : Nat) : Concludes (returnStatement n line) :=
  (assembled_expressionBefore? n _).plain.concludes fun _ => (concludes_expect (.inl rfl) _).bind _

theorem concludes_functionHead (n : Nat) : Concludes (functionHead n) :=
  (plain_expect _ _).concludes fun _ => (plain_expect _ _).concludes fun _ =>
    (built_parameterList n).plain.concludes fun _ => (plain_expect _ _).concludes fun _ =>
      (concludes_expect (.inr rfl) _).bind _

theorem kind_of_block {t : Token} {line : Nat} (h : opening? t = some (.block, line)) :
    t.kind = .leftBrace := by
  obtain ⟨opening, hopening, heq⟩ := Option.map_eq_some_iff.mp h
  cases heq
  generalize t.kind = k at hopening
  cases k <;> first | rfl | cases hopening

theorem concludes_statement (n : Nat) : Concludes (statement n) := by
  induction n with
  | zero => rw [statement]; nofun
  | succ n ih =>
    rw [statement]
    intro c s c' h
    obtain ⟨head?, c₁, hhead, hs⟩ := bind_eq_done h
    have hlater {p : Parser Stmt} (hp : Concludes p) (hdone : p c₁ = .done s c') :
        ∃ t ∈ c.rest, t.kind = .semicolon ∨ t.kind = .leftBrace := by
      obtain ⟨t, ht, hkind⟩ := hp c₁ s c' hdone
      exact ⟨t, (done_onward (plain_take? _) hhead).rest.subset ht, hkind⟩
    cases head? with
    | none => exact hlater (concludes_expressionStatement n) hs
    | some head =>
      obtain ⟨opening, line⟩ := head
      cases opening with
      | print => exact hlater (concludes_printStatement n line) hs
      | branch => exact hlater ((built_ifHead n).plain.concludes fun _ => ih.bind _) hs
      | loop => exact hlater ((built_whileHead n).plain.concludes fun _ => ih.bind _) hs
      | forLoop => exact hlater ((assembled_forHead n).plain.concludes fun _ => ih.bind _) hs
      | result => exact hlater (concludes_returnStatement n line) hs
      | block =>
        -- The brace itself has been read.
        obtain ⟨t, ts, hrest, hopening, -⟩ := take?_eq_done_some hhead
        exact ⟨t, by simp [hrest], .inr (kind_of_block hopening)⟩

theorem concludes_declared (n : Nat) : Concludes (declared n) := by
  refine (plain_accept? _).concludes fun t? => ?_
  cases t? with
  | some => exact (concludes_functionHead n).bind _
  | none =>
    refine (plain_accept? _).concludes fun t? => ?_
    cases t? with
    | some => exact concludes_varDeclaration n
    | none => exact concludes_statement n

/-- A parser stops at the token that its fault is about. -/
theorem Composed.fault_here {α : Type} {ends : Kind → Bool} {p : Parser α} (h : Composed ends p)
    {c c' : Cursor} {d : Diagnostic} (hp : p c = .fault d c') : ∃ cause, d = c'.faultHere cause := by
  induction h generalizing c c' d with
  | outOfFuel | pure | nextIs | report | limitCount | freshId | atEnd => cases hp
  | fail cause => cases hp; exact ⟨cause, rfl⟩
  | @take? _ g =>
    unfold Parser.take? at hp
    cases hrest : c.rest with
    | nil => rw [hrest] at hp; cases hp
    | cons t ts =>
      rw [hrest] at hp
      cases hg : g t <;> simp only [hg] at hp <;> cases hp
  | @bind _ _ p f _ _ ihp ihf =>
    cases hpc : p c with
    | outOfFuel => rw [bind_of_outOfFuel hpc] at hp; cases hp
    | fault d' c₁ => rw [bind_of_fault hpc] at hp; cases hp; exact ihp hpc
    | done a c₁ => rw [bind_of_done hpc] at hp; exact ihf a hp
  | @recovering _ p =>
    unfold Parser.recovering at hp
    cases hpc : p c <;> rw [hpc] at hp <;> cases hp

end Parser

/-- With no semicolon and no keyword on the way, all is skipped up to the keyword behind. -/
theorem Cursor.skipTokens_eq {ts us : List Token} (line : Nat) (hne : ts ≠ [])
    (hopen : ∀ t ∈ ts, t.kind ≠ .semicolon) (hsingle : ∀ t ∈ ts.tail, t.kind.startsStatement = false)
    (hus : ∀ t ∈ us.head?, t.kind.startsStatement) : (skipTokens (ts ++ us) line).1 = us := by
  induction ts generalizing line with
  | nil => exact absurd rfl hne
  | cons t ts ih =>
    have ht : t.kind ≠ .semicolon := hopen t List.mem_cons_self
    cases ts with
    | nil =>
      cases us with
      | nil => simp [skipTokens, ht]
      | cons u us => simp [skipTokens, hus u rfl]
    | cons u ts =>
      have hu : u.kind.startsStatement = false := hsingle u List.mem_cons_self
      have hskip : skipTokens (t :: u :: ts ++ us) line = skipTokens (u :: ts ++ us) t.line := by
        simp [skipTokens, ht, hu]
      rw [hskip]
      exact ih t.line (List.cons_ne_nil u ts) (fun v hv => hopen v (List.mem_cons_of_mem t hv))
        fun v hv => hsingle v (List.mem_cons_of_mem u hv)

theorem mem_tail_of_suffix {ts us : List Token} (h : us <:+ ts) {t : Token} (ht : t ∈ us.tail) :
    t ∈ ts.tail := by
  obtain ⟨pre, rfl⟩ := h
  cases pre with
  | nil => exact ht
  | cons u pre => exact List.mem_append_right pre (List.mem_of_mem_tail ht)

namespace Parser

/-- Where nothing is amiss, the line of the end makes no difference. -/
theorem program_endLine {n : Nat} {c c' : Cursor} {ss : List Stmt} (endLine : Option Nat)
    (hn : 16 * c.rest.length + 12 ≤ n) (h : program n c = .done ss c')
    (hclean : c'.faults.size = c.faults.size) :
    program n (c.extend [] endLine) = .done ss (c'.extend [] endLine) := by
  have helse : ∀ t ∈ ([] : List Token).head?, t.kind ≠ .kwElse := by simp
  obtain ⟨hend, m, hm⟩ := program_extend endLine helse h hclean
  have hends : program n (c.extend [] endLine) ≠ .outOfFuel :=
    ne_outOfFuel_of_le (by simpa [Cursor.extend] using hn)
  have hrest : (c'.extend [] endLine).rest = [] := by simp [Cursor.extend, hend]
  cases m with
  | zero => exact absurd hm hends
  | succ m =>
    rw [hm, map_of_done ((program_succ m _).trans (if_pos hrest)), List.append_nil]

theorem start_rest {ts : List Token} (hinside : ∀ t ∈ ts, t.kind ≠ .eof) (firstId : NodeId) :
    (Cursor.start ts firstId).rest = ts :=
  readable_eq_self.mpr hinside

/-- Tokens that stand alone, with the faults that `c` has had and with more tokens and an end behind: they
match the same tokens ahead of `c`. -/
theorem matches_alone {ts : List Token} (hinside : ∀ t ∈ ts, t.kind ≠ .eof) (us : List Token)
    (firstId : NodeId) (c : Cursor) :
    (((Cursor.start ts firstId).after c.faults).extend us (some 0)).Matches (· = ·) (c.nextId - firstId)
      { c with rest := ts ++ us, endLine := some 0 } where
  rest := by
    simp only [Cursor.extend, Cursor.after, start_rest hinside]
    exact Token.matches_self (fun _ => rfl) _
  line := nofun
  endLine := .some rfl
  nextId := shifted_sub firstId c.nextId
  faults := by
    simp only [Cursor.extend, Cursor.after, Cursor.start, Array.append_empty]
    exact List.forall₂_same.mpr fun d _ => .mk d.place d.cause rfl

/-- Tokens that are read without a fault when they stand alone are read alike in any loop over declarations,
with something behind them that does not begin with `else`. -/
theorem Iterates.reads_sound {loop : Nat → Parser (List Stmt)} (hloop : Iterates loop)
    {ts us : List Token} {firstId : NodeId} (hinside : ∀ t ∈ ts, t.kind ≠ .eof)
    (hclean : (Parsed.ofTokens ts firstId).faults = []) (helse : ∀ t ∈ us.head?, t.kind ≠ .kwElse)
    {n : Nat} {c : Cursor} (hrest : c.rest = ts ++ us) (hn : 16 * c.rest.length + 12 ≤ n) :
    ∃ ss m c', loop n c = ((ss ++ ·) <$> loop m) c' ∧
      Stmt.AllMatch (· = ·) (Shifted (c.nextId - firstId)) (Parsed.ofTokens ts firstId).program ss ∧
      c'.rest = us ∧ c'.faults = c.faults ∧ 16 * us.length + 12 ≤ m := by
  obtain ⟨ss₀, c₀, halone, heq⟩ := Parsed.exists_program_ofTokens ts firstId
  rw [heq] at hclean ⊢
  have hstart := start_rest hinside firstId
  have hafter := (assembled_program (fuel ts)).plain.after c.faults (Cursor.start ts firstId)
  rw [halone] at hafter
  have hnone : c₀.faults = #[] := Array.toList_eq_nil_iff.mp hclean
  have hsize : (c₀.after c.faults).faults.size = ((Cursor.start ts firstId).after c.faults).faults.size := by
    simp only [Cursor.after, Cursor.start, hnone]
  have hfuel : 16 * ((Cursor.start ts firstId).after c.faults).rest.length + 12 ≤ fuel ts := by
    simp only [Cursor.after, hstart, fuel]
    omega
  have hended := program_endLine (some 0) hfuel hafter hsize
  have hmatches := matches_alone hinside [] firstId c
  rw [List.append_nil] at hmatches
  obtain ⟨d, hd⟩ : ∃ d : Cursor, d = { c with rest := ts, endLine := some 0 } := ⟨_, rfl⟩
  rw [← hd] at hmatches
  have hread := matches_program (fuel ts) n _ _ hmatches
  have hlength := congrArg List.length hrest
  rw [List.length_append] at hlength
  have hends : program n d ≠ .outOfFuel := ne_outOfFuel_of_le (by rw [hd]; dsimp only; omega)
  rw [hended] at hread
  generalize hr : program n d = r at hread hends
  cases hread with
  | outOfFuel' => exact absurd rfl hends
  | @done _ ss _ d' hss hd' =>
    have hfaults : d'.faults = c.faults := by
      rw [← Array.toList_inj, ← Diagnostic.eq_of_allMatch hd'.faults]
      simp [Cursor.extend, Cursor.after, hnone]
    have hsame : d'.faults.size = d.faults.size := by rw [hfaults, hd]
    obtain ⟨hend, m, hm, hloop⟩ := hloop.extend c.endLine helse hr hsame
    have hwhole : d.extend us c.endLine = c := by simp only [hd, Cursor.extend, ← hrest]
    rw [hwhole] at hloop
    refine ⟨ss, m, _, hloop, hss, by simp [Cursor.extend, hend], hfaults, ?_⟩
    have hrest' : d.rest.length = ts.length := by rw [hd]
    omega

end Parser

/-- A malformed statement between two sound stretches. It holds neither a semicolon nor an opening brace, no
keyword of a statement but for its first token, and its faults are at its tokens; the sound stretch behind it
begins with such a keyword. -/
structure Interrupted (before broken after : List Token) (firstId : NodeId) : Prop where
  inside : ∀ t ∈ before ++ broken ++ after, t.kind ≠ .eof
  before_sound : (Parsed.ofTokens before firstId).faults = []
  after_sound : (Parsed.ofTokens after firstId).faults = []
  resumes : ∃ t ∈ after.head?, t.kind.startsStatement
  unfinished : ∀ t ∈ broken, t.kind ≠ .semicolon ∧ t.kind ≠ .leftBrace
  single : ∀ t ∈ broken.tail, t.kind.startsStatement = false
  head : ∀ t ∈ broken.head?, t.kind ≠ .kwElse ∧ t.kind ≠ .rightBrace
  faulty : (Parsed.ofTokens broken firstId).faults ≠ []
  faults_inside : ∀ d ∈ (Parsed.ofTokens broken firstId).faults, d.place ≠ .atEnd

theorem Token.Matches.eq {t t' : Token} (h : t.Matches (· = ·) t') : t = t' := by
  obtain ⟨kind, lexeme, line, literal⟩ := t
  obtain ⟨rfl, rfl, rfl, rfl⟩ := h
  rfl

namespace Interrupted

open LoxLang.Parser

variable {before broken after us : List Token} {firstId : NodeId}

theorem broken_inside (h : Interrupted before broken after firstId) : ∀ t ∈ broken, t.kind ≠ .eof :=
  fun t ht => h.inside t (List.mem_append_left _ (List.mem_append_right _ ht))

/-- Up to the keyword of the next statement, or to the end, nothing of it is left. -/
theorem skipTokens (h : Interrupted before broken after firstId) {ts : List Token} (hts : ts <:+ broken)
    (hne : ts ≠ []) (hus : ∀ t ∈ us.head?, t.kind.startsStatement) (line : Nat) :
    (Cursor.skipTokens (ts ++ us) line).1 = us :=
  Cursor.skipTokens_eq line hne (fun t ht => (h.unfinished t (hts.subset ht)).1)
    (fun t ht => h.single t (mem_tail_of_suffix hts ht)) hus

/-- When it stands alone its only declaration stops at a fault, before its end. -/
theorem alone (h : Interrupted before broken after firstId) :
    ∃ n d c, declared n (Cursor.start broken firstId) = .fault d c ∧ c.rest <:+ broken ∧ c.rest ≠ [] ∧
      (Parsed.ofTokens broken firstId).faults = (c.record d).faults.toList := by
  obtain ⟨ss, c₂, hprogram, heq⟩ := Parsed.exists_program_ofTokens broken firstId
  have hfaulty := h.faulty
  have hinside := h.faults_inside
  have hstart := start_rest h.broken_inside firstId
  obtain ⟨n, hn⟩ : ∃ n, fuel broken = n + 1 + 1 + 1 := ⟨16 * broken.length + 13, by unfold fuel; omega⟩
  rw [heq] at hfaulty hinside ⊢
  rw [hn, program_succ] at hprogram
  split at hprogram
  · cases hprogram
    exact absurd rfl hfaulty
  obtain ⟨s?, c₁, hdeclaration, hprogram⟩ := bind_eq_done hprogram
  obtain ⟨ss', _, hrest, hpure⟩ := bind_eq_done hprogram
  cases hpure
  rw [declaration_succ, recovering] at hdeclaration
  have honward := (assembled_declared (n + 1)).plain.onward (Cursor.start broken firstId)
  cases hp : declared (n + 1) (Cursor.start broken firstId) with
  | outOfFuel => rw [hp] at hdeclaration; cases hdeclaration
  | done s c =>
    obtain ⟨t, ht, hkind⟩ := concludes_declared (n + 1) _ s c hp
    rw [hstart] at ht
    exact absurd hkind (not_or.mpr (h.unfinished t ht))
  | fault d c =>
    rw [hp] at hdeclaration honward
    cases hdeclaration
    have hsuffix : c.rest <:+ broken := hstart ▸ honward.rest
    have hlater := done_onward (assembled_program (n + 1 + 1)).plain hrest
    have hd : d ∈ c₂.faults.toList := hlater.faults.subset (by simp [Cursor.skipStatement, Cursor.record])
    have hne : c.rest ≠ [] := by
      obtain ⟨cause, rfl⟩ := (assembled_declared (n + 1)).plain.fault_here hp
      intro hnil
      exact hinside _ hd (by simp [Cursor.faultHere, hnil])
    have hend : (c.record d).skipStatement.rest = [] := by
      have hnone : ∀ t ∈ ([] : List Token).head?, t.kind.startsStatement := by simp
      have hskip := h.skipTokens hsuffix hne hnone c.line
      rwa [List.append_nil] at hskip
    rw [program_succ, if_pos hend] at hrest
    cases hrest
    exact ⟨n + 1, d, c, hp, hsuffix, hne, rfl⟩

theorem broken_ne_nil (h : Interrupted before broken after firstId) : broken ≠ [] := by
  obtain ⟨n, d, c, -, hsuffix, hne, -⟩ := h.alone
  rintro rfl
  exact hne (List.suffix_nil.mp hsuffix)

/-- The declaration that reads it ends just before what is behind it, with the faults that it has alone. -/
theorem declaration (h : Interrupted before broken after firstId) {n : Nat} {c : Cursor}
    (hrest : c.rest = broken ++ us) (hus : ∃ t ∈ us.head?, t.kind.startsStatement)
    (hn : 16 * c.rest.length + 11 ≤ n) :
    ∃ c', Parser.declaration n c = .done none c' ∧ c'.rest = us ∧
      c'.faults.toList = c.faults.toList ++ (Parsed.ofTokens broken firstId).faults := by
  obtain ⟨m, d, c₀, hfault, hsuffix, hne, heq⟩ := h.alone
  obtain ⟨u, hu, hstarts⟩ := hus
  have hus : ∀ t ∈ us.head?, t.kind.startsStatement := fun t ht => by
    rw [Option.mem_unique ht hu]
    exact hstarts
  have hus_ne : us ≠ [] := by rintro rfl; cases hu
  -- With the faults that `c` has had and with what comes behind, it stops at the same token.
  have hafter := (assembled_declared m).plain.after c.faults (Cursor.start broken firstId)
  rw [hfault] at hafter
  have hstops : (declared m ((Cursor.start broken firstId).after c.faults)).Stops := by
    rw [hafter]
    exact hne
  have hmore := (assembled_declared m).plain.extend us (some 0) hstops
  rw [hafter] at hmore
  have hread := (statementsMatch (m + 1) n).declaration _ _ (matches_alone h.broken_inside us firstId c)
  rw [declaration_succ, recovering, hmore] at hread
  have hskip : ((((c₀.after c.faults).extend us (some 0)).record d).skipStatement).rest = us :=
    h.skipTokens hsuffix hne hus c₀.line
  obtain ⟨x, hx⟩ : ∃ x : Cursor, x = { c with rest := broken ++ us, endLine := some 0 } := ⟨_, rfl⟩
  have hxrest : x.rest = c.rest := by rw [hx, hrest]
  rw [← hx] at hread
  obtain ⟨s?, c₁, hdone, -⟩ := (endsStatements n).declaration (hxrest ▸ hn) x (Nat.le_refl _)
  rw [hdone] at hread
  cases hread with
  | done hs hc₁ =>
    cases hs
    have hrest₁ : c₁.rest = us := by
      rw [← hskip]
      exact (List.forall₂_eq_eq_eq ▸ hc₁.rest.imp fun _ _ => Token.Matches.eq).symm
    have hstops : (Parser.declaration n x).Stops := by
      rw [hdone]
      exact fun hnil => hus_ne (hrest₁.symm.trans hnil)
    have hdone' := (assembledStatements n).declaration.plain.extend [] c.endLine hstops
    rw [hdone] at hdone'
    have hwhole : x.extend [] c.endLine = c := by
      simp only [hx, Cursor.extend, List.append_nil, ← hrest]
    rw [hwhole] at hdone'
    refine ⟨_, hdone', by simp [Cursor.extend, hrest₁], ?_⟩
    simp only [Cursor.extend, heq, ← Diagnostic.eq_of_allMatch hc₁.faults]
    simp [Cursor.skipStatement, Cursor.record, Cursor.after]

/-- In any loop over declarations both sound stretches are read as if they stood alone. -/
theorem loop (h : Interrupted before broken after firstId) {loop : Nat → Parser (List Stmt)}
    (hloop : Iterates loop) (helse : ∀ t ∈ us.head?, t.kind ≠ .kwElse) {n : Nat} {c : Cursor}
    (hrest : c.rest = before ++ broken ++ after ++ us) (hn : 16 * c.rest.length + 12 ≤ n) :
    ∃ ss ts m c', loop n c = ((ss ++ ts ++ ·) <$> loop m) c' ∧
      Stmt.AllMatch (· = ·) (Shifted (c.nextId - firstId)) (Parsed.ofTokens before firstId).program ss ∧
      (∃ k, Stmt.AllMatch (· = ·) (Shifted k) (Parsed.ofTokens after firstId).program ts) ∧
      c'.rest = us ∧ c'.faults.toList = c.faults.toList ++ (Parsed.ofTokens broken firstId).faults ∧
      16 * us.length + 12 ≤ m := by
  obtain ⟨t, ts, rfl⟩ := List.exists_cons_of_ne_nil h.broken_ne_nil
  obtain ⟨helse', hbrace⟩ := h.head t rfl
  have hrest₀ : c.rest = before ++ (t :: ts ++ (after ++ us)) := by simp [hrest]
  obtain ⟨ss, m₁, c₁, hloop₁, hss, hrest₁, hfaults₁, hm₁⟩ := hloop.reads_sound
    (fun u hu => h.inside u (by simp [hu])) h.before_sound (by rintro _ ⟨⟩; exact helse') hrest₀ hn
  rw [← hrest₁] at hm₁
  obtain ⟨m₂, rfl⟩ : ∃ m₂, m₁ = m₂ + 1 := ⟨m₁ - 1, by omega⟩
  obtain ⟨u, hu, hstarts⟩ := h.resumes
  obtain ⟨c₂, hdeclaration, hrest₂, hfaults₂⟩ := h.declaration (n := m₂) hrest₁
    ⟨u, List.mem_head?_append_of_mem_head? hu, hstarts⟩ (by omega)
  have hloop₂ := hloop m₂ c₁ t (ts ++ (after ++ us)) hrest₁ hbrace
  rw [bind_of_done hdeclaration] at hloop₂
  have hlength := congrArg List.length hrest₁
  rw [List.length_append, ← hrest₂, List.length_cons] at hlength
  obtain ⟨ss', m, c', hloop₃, hss', hrest₃, hfaults₃, hm⟩ := hloop.reads_sound
    (fun u hu => h.inside u (List.mem_append_right _ hu)) h.after_sound helse hrest₂ (n := m₂) (by omega)
  refine ⟨ss, ss', m, c', ?_, hss, ⟨_, hss'⟩, hrest₃, by rw [hfaults₃, hfaults₂, hfaults₁], hm⟩
  rw [hloop₁, map_congr hloop₂, Functor.map_map, map_congr hloop₃, Functor.map_map]
  simp only [Option.toList_none, List.nil_append, List.append_assoc]

end Interrupted
namespace Parser

/-- Read are the statements of both sound stretches, up to ids, with the faults of what stands between. -/
def Resumes (before broken after : List Token) (firstId : NodeId) (ss : List Stmt)
    (faults : List Diagnostic) : Prop :=
  (∃ k l us vs, ss = us ++ vs ∧
    Stmt.AllMatch (· = ·) (Shifted k) (Parsed.ofTokens before firstId).program us ∧
    Stmt.AllMatch (· = ·) (Shifted l) (Parsed.ofTokens after firstId).program vs) ∧
  faults = (Parsed.ofTokens broken firstId).faults

def ResumesIn {α : Type} (before broken after : List Token) (firstId : NodeId) (p : Parser α)
    (build : List Stmt → α) (already : Array Diagnostic) (c : Cursor) (us : List Token) : Prop :=
  ∃ ss faults c', p c = .done (build ss) c' ∧ c'.rest = us ∧
    c'.faults.toList = already.toList ++ faults ∧ Resumes before broken after firstId ss faults

variable {before broken after us : List Token} {firstId : NodeId} {n : Nat} {c : Cursor} {close : Token}

/-- In a block, up to its brace. -/
theorem block_resumes (h : Interrupted before broken after firstId)
    (hrest : c.rest = before ++ broken ++ after ++ close :: us) (hclose : close.kind = .rightBrace)
    (hn : 16 * c.rest.length + 12 ≤ n) :
    ResumesIn before broken after firstId (block n) id c.faults c us := by
  have helse : ∀ t ∈ (close :: us).head?, t.kind ≠ .kwElse := by
    rintro _ ⟨⟩
    rw [hclose]
    decide
  obtain ⟨ss, ts, m, c', hblock, hss, ⟨k, hts⟩, hrest', hfaults, hm⟩ := h.loop iterates_block helse hrest hn
  obtain ⟨m, rfl⟩ : ∃ m', m = m' + 1 := ⟨m - 1, by omega⟩
  rw [map_of_done (block_of_brace hrest' hclose), List.append_nil] at hblock
  exact ⟨ss ++ ts, _, _, hblock, rfl, hfaults, ⟨_, k, ss, ts, rfl, hss, hts⟩, rfl⟩

/-- In a block statement. -/
theorem statement_resumes (h : Interrupted before broken after firstId) {brace : Token}
    (hrest : c.rest = brace :: (before ++ broken ++ after ++ close :: us)) (hbrace : brace.kind = .leftBrace)
    (hclose : close.kind = .rightBrace) (hn : 16 * c.rest.length + 12 ≤ n) :
    ResumesIn before broken after firstId (statement (n + 1)) (.block brace.line) c.faults c us := by
  have htake : take? opening? c = .done (some (.block, brace.line))
      { c with rest := before ++ broken ++ after ++ close :: us, line := brace.line } := by
    simp only [take?, hrest, opening?, hbrace, Opening.ofKind?, Option.map_some]
  rw [hrest, List.length_cons] at hn
  obtain ⟨ss, faults, c', hblock, hend⟩ := block_resumes (n := n)
    (c := { c with rest := before ++ broken ++ after ++ close :: us, line := brace.line }) h rfl hclose
    (by dsimp only; omega)
  refine ⟨ss, faults, c', ?_, hend⟩
  rw [statement, bind_of_done htake]
  exact bind_of_done hblock

/-- In the body of a function, behind its head. -/
theorem declaration_resumes (h : Interrupted before broken after firstId) {keyword : Token}
    {ts : List Token} {head : FunctionHead} {c₁ : Cursor} (hrest : c.rest = keyword :: ts)
    (hkeyword : keyword.kind = .kwFun)
    (hhead : functionHead n { c with rest := ts, line := keyword.line } = .done head c₁)
    (hrest₁ : c₁.rest = before ++ broken ++ after ++ close :: us) (hclose : close.kind = .rightBrace)
    (hn : 16 * c₁.rest.length + 12 ≤ n) :
    ResumesIn before broken after firstId (declaration (n + 1))
      (fun ss => some (.function head.name.line head.name.lexeme head.params ss)) c₁.faults c us := by
  have haccept : accept? .kwFun c = .done (some keyword) { c with rest := ts, line := keyword.line } := by
    simp [accept?, take?, hrest, hkeyword]
  obtain ⟨ss, faults, c', hblock, hend⟩ := block_resumes h hrest₁ hclose hn
  have hdeclared : declared n c =
      .done (.function head.name.line head.name.lexeme head.params ss) c' := by
    rw [declared, bind_of_done haccept]
    exact (bind_of_done hhead).trans (bind_of_done hblock)
  refine ⟨ss, faults, c', ?_, hend⟩
  rw [declaration_succ, recovering, hdeclared]

end Parser

namespace Parsed

open LoxLang.Parser

/-- Recovery resumes exactly at the next statement: a malformed one between two sound stretches costs nothing
but itself. The statements of both are returned, up to ids, and the faults are those of the malformed one alone.
So it is where the three are a whole program, and where they are the contents of a block or of the body of a
function, wherever it stands. -/
theorem ofTokens_resumes {before broken after : List Token} {firstId : NodeId}
    (h : Interrupted before broken after firstId) :
    Resumes before broken after firstId (ofTokens (before ++ broken ++ after) firstId).program
        (ofTokens (before ++ broken ++ after) firstId).faults ∧
      ∀ (n : Nat) (c : Cursor) (close : Token) (us : List Token), close.kind = .rightBrace →
        (c.rest = before ++ broken ++ after ++ close :: us → 16 * c.rest.length + 12 ≤ n →
          ResumesIn before broken after firstId (block n) id c.faults c us) ∧
        (∀ brace : Token, brace.kind = .leftBrace →
          c.rest = brace :: (before ++ broken ++ after ++ close :: us) → 16 * c.rest.length + 12 ≤ n →
            ResumesIn before broken after firstId (statement (n + 1)) (.block brace.line) c.faults c us) ∧
        ∀ (keyword : Token) (ts : List Token) (head : FunctionHead) (c₁ : Cursor),
          keyword.kind = .kwFun → c.rest = keyword :: ts →
          functionHead n { c with rest := ts, line := keyword.line } = .done head c₁ →
          c₁.rest = before ++ broken ++ after ++ close :: us → 16 * c₁.rest.length + 12 ≤ n →
            ResumesIn before broken after firstId (declaration (n + 1))
              (fun ss => some (.function head.name.line head.name.lexeme head.params ss)) c₁.faults c us := by
  refine ⟨?_, fun n c close us hclose => ⟨fun hrest hn => block_resumes h hrest hclose hn,
    fun brace hbrace hrest hn => statement_resumes h hrest hbrace hclose hn,
    fun keyword ts head c₁ hkeyword hrest hhead hrest₁ hn =>
      declaration_resumes h hrest hkeyword hhead hrest₁ hclose hn⟩⟩
  have hstart : (Cursor.start (before ++ broken ++ after) firstId).rest = before ++ broken ++ after ++ [] := by
    rw [start_rest h.inside, List.append_nil]
  have hfuel : 16 * (Cursor.start (before ++ broken ++ after) firstId).rest.length + 12 ≤
      fuel (before ++ broken ++ after) := by
    rw [start_rest h.inside, fuel]
    omega
  have helse : ∀ t ∈ ([] : List Token).head?, t.kind ≠ .kwElse := by simp
  obtain ⟨ss, ts, m, c', hprogram, hss, ⟨k, hts⟩, hrest, hfaults, hm⟩ :=
    h.loop iterates_program helse hstart hfuel
  obtain ⟨m, rfl⟩ : ∃ m', m = m' + 1 := ⟨m - 1, by omega⟩
  rw [map_of_done ((program_succ m c').trans (if_pos hrest)), List.append_nil] at hprogram
  rw [ofTokens, hprogram]
  exact ⟨⟨_, k, ss, ts, rfl, hss, hts⟩, hfaults⟩

/-- `print b c` between `print a;` and `print d;`. -/
theorem ofTokens_resumes_print :
    let before : List Token :=
      [⟨.kwPrint, "print", 1, none⟩, ⟨.identifier, "a", 1, none⟩, ⟨.semicolon, ";", 1, none⟩]
    let broken : List Token :=
      [⟨.kwPrint, "print", 2, none⟩, ⟨.identifier, "b", 2, none⟩, ⟨.identifier, "c", 2, none⟩]
    let after : List Token :=
      [⟨.kwPrint, "print", 3, none⟩, ⟨.identifier, "d", 3, none⟩, ⟨.semicolon, ";", 3, none⟩]
    Interrupted before broken after 0 ∧
      (ofTokens (before ++ broken ++ after) 0).faults = [⟨2, .at "c", .expected .semicolonAfterValue⟩] := by
  intro before broken after
  have hbroken : (ofTokens broken 0).faults = [⟨2, .at "c", .expected .semicolonAfterValue⟩] := by cbv
  have h : Interrupted before broken after 0 := {
    inside := by decide
    before_sound := by cbv
    after_sound := by cbv
    resumes := ⟨⟨.kwPrint, "print", 3, none⟩, rfl, rfl⟩
    unfinished := by decide
    single := by decide
    head := by decide
    faulty := by rw [hbroken]; exact List.cons_ne_nil _ _
    faults_inside := by rw [hbroken]; decide }
  exact ⟨h, (ofTokens_resumes h).1.2.trans hbroken⟩

end Parsed
end LoxLang
