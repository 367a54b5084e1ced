import LoxLang.Token.Scan

/-!
The pieces of a source and what they become. A piece ends at a separator that does not belong to it; only
an unterminated string goes on past a line break.
-/
namespace LoxLang

namespace Piece

def IsSeparator (d : Char) : Prop := d = '\n' ∨ isBlank d

structure EndsAt (d : Char) (kind : Option Kind) : Prop where
  separator : IsSeparator d
  closed : kind ≠ some .unterminatedString
  blank : kind = some .blank → isBlank d = false
  comment : kind = some .comment → d = '\n'

/-- Only an unterminated string goes on past a line break. -/
theorem endsAt_newline {kind : Option Kind} (h : kind ≠ some .unterminatedString) :
    EndsAt '\n' kind :=
  ⟨.inl rfl, h, fun _ => rfl, fun _ => rfl⟩

/-- No token goes on past a space. -/
theorem endsAt_space {kind : Kind} (h : kind.isToken) : EndsAt ' ' (some kind) := by
  refine ⟨.inr rfl, ?_, fun hkind => ?_, fun hkind => ?_⟩
  · rintro ⟨⟩; cases h
  · cases hkind; cases h
  · cases hkind; cases h

theorem IsSeparator.ends {d : Char} (h : IsSeparator d) :
    isWordChar d = false ∧ isDigit d = false ∧ d ≠ '.' ∧ d ≠ '/' ∧ d ≠ '=' := by
  simp only [IsSeparator, isBlank, Bool.or_eq_true, decide_eq_true_eq] at h
  obtain rfl | ((rfl | rfl) | rfl) | rfl := h <;> decide

section Separator

variable {c d : Char} {a : List Char}

/-- A run of characters ends at a character that does not belong to it. -/
theorem takeWhile_separator {p : Char → Bool} (hp : p d = false) (a b : List Char) :
    (a ++ d :: b).takeWhile p = a.takeWhile p := by
  induction a with
  | nil => rw [List.nil_append, List.takeWhile_cons, hp]; rfl
  | cons c a ih => rw [List.cons_append, List.takeWhile_cons, List.takeWhile_cons, ih]

theorem fraction_separator (hdigit : isDigit d = false) (hpoint : d ≠ '.') (a b : List Char) :
    fraction (a ++ d :: b) = fraction a := by
  match a with
  | [] => simp [fraction, hpoint]
  | [c] => by_cases hc : c = '.' <;> simp [fraction, hc, hdigit]
  | c :: e :: a =>
    by_cases hc : c = '.'
    · subst hc
      simp only [fraction, List.cons_append, takeWhile_separator hdigit]
    · simp [fraction, hc]

/-- The first piece of a text is the same with anything behind a separator that it ends at. -/
theorem first_separator (h : EndsAt d (first c a).kind) (b : List Char) :
    first c (a ++ d :: b) = first c a := by
  obtain ⟨hword, hdigit, hpoint, hslash, hequal⟩ := h.separator.ends
  have hhead {e : Char} (he : d ≠ e) : (a ++ d :: b).head? = some e ↔ a.head? = some e := by
    cases a with
    | nil => simp [he]
    | cons => rfl
  unfold first at h ⊢
  by_cases hcletter : isLetter c
  · simp only [hcletter, if_true, takeWhile_separator hword]
  by_cases hcdigit : isDigit c
  · have hle := (List.takeWhile_prefix isDigit (l := a)).length_le
    simp only [hcletter, hcdigit, Bool.false_eq_true, ↓reduceIte, takeWhile_separator hdigit,
      List.drop_append_of_le_length hle, fraction_separator hdigit hpoint]
  by_cases hcblank : isBlank c
  · simp only [hcletter, hcdigit, hcblank, Bool.false_eq_true, ↓reduceIte] at h ⊢
    rw [takeWhile_separator (h.blank rfl)]
  simp only [hcletter, hcdigit, hcblank, Bool.false_eq_true, if_false] at h ⊢
  by_cases hcquote : c = '"'
  · by_cases hclosed : (a.takeWhile (· ≠ '"')).length < a.length
    · have hbody : (a ++ d :: b).takeWhile (· ≠ '"') = a.takeWhile (· ≠ '"') := by
        rw [List.takeWhile_append, if_neg (Nat.ne_of_lt hclosed)]
      have hlt : (a.takeWhile (· ≠ '"')).length < (a ++ d :: b).length := by
        rw [List.length_append]; omega
      simp only [hcquote, if_true, hbody, hclosed, hlt]
    · simp only [hcquote, if_true, hclosed, if_false] at h
      exact absurd rfl h.closed
  by_cases hcslash : c = '/'
  · simp only [if_neg hcquote, if_pos hcslash, hhead hslash] at h ⊢
    split
    · next hcomment =>
      rw [if_pos hcomment] at h
      have hline : decide (d ≠ '\n') = false := by simp [h.comment rfl]
      rw [takeWhile_separator (p := (· ≠ '\n')) hline]
    · rfl
  · simp only [hcquote, hcslash, if_false, hhead hequal]

end Separator

theorem first_text_length_le (c : Char) (a : List Char) : (first c a).text.length - 1 ≤ a.length := by
  have hle := (first_isPrefix c a).length_le
  rw [List.length_cons] at hle
  omega

/-- Any bound that is large enough gives all pieces. -/
theorem cut_eq {m n : Nat} {a : List Char} (hm : a.length ≤ m) (hn : a.length ≤ n) :
    cut m a = cut n a := by
  induction m generalizing n a with
  | zero =>
    obtain rfl := List.length_eq_zero_iff.mp (Nat.le_zero.mp hm)
    cases n <;> rfl
  | succ m ih =>
    cases a with
    | nil => cases n <;> rfl
    | cons c a =>
      cases n with
      | zero => cases hn
      | succ n =>
        have hle : (a.drop ((first c a).text.length - 1)).length ≤ a.length := by
          rw [List.length_drop]; omega
        rw [List.length_cons] at hm hn
        rw [cut, cut, ih (n := n) (by omega) (by omega)]

theorem ofChars_cons (c : Char) (a : List Char) :
    ofChars (c :: a) = first c a :: ofChars (a.drop ((first c a).text.length - 1)) := by
  have hle : (a.drop ((first c a).text.length - 1)).length ≤ a.length := by
    rw [List.length_drop]; omega
  exact congrArg _ (cut_eq hle (Nat.le_refl _))

/-- A separator cuts a text into two, unless the pieces before it go on there. -/
theorem ofChars_separator {d : Char} (a b : List Char) (h : ∀ p ∈ ofChars a, EndsAt d p.kind) :
    ofChars (a ++ d :: b) = ofChars a ++ ofChars (d :: b) := by
  match a with
  | [] => rfl
  | c :: a =>
    rw [ofChars_cons] at h ⊢
    have hle := first_text_length_le c a
    have hrest : (a.drop ((first c a).text.length - 1)).length < (c :: a).length := by
      rw [List.length_drop, List.length_cons]; omega
    rw [List.cons_append, ofChars_cons, first_separator (h _ List.mem_cons_self) b,
      List.drop_append_of_le_length hle,
      ofChars_separator _ b fun p hp => h p (List.mem_cons_of_mem _ hp), List.cons_append]
termination_by a.length

/-- A line break between two texts is a piece of its own, unless a string is open there. -/
theorem ofChars_newline (a b : List Char)
    (h : ∀ p ∈ ofChars a, p.kind ≠ some .unterminatedString) :
    ofChars (a ++ '\n' :: b) = ofChars a ++ ⟨some .newline, ['\n']⟩ :: ofChars b := by
  rw [ofChars_separator a b fun p hp => endsAt_newline (h p hp), ofChars_cons]
  rfl

theorem ofWord_cases (word : String) :
    Kind.ofWord word = .identifier ∨ (word, Kind.ofWord word) ∈ Kind.keywords := by
  unfold Kind.ofWord
  cases h : Kind.keywords.lookup word with
  | none => exact .inl rfl
  | some kind =>
    obtain ⟨before, after, hmem, -⟩ := List.lookup_eq_some_iff.mp h
    exact .inr (hmem ▸ List.mem_append_right _ List.mem_cons_self)

theorem ofWord_ne_eof (word : String) : Kind.ofWord word ≠ .eof := by
  have hall : ∀ e ∈ Kind.keywords, e.2 ≠ .eof := by decide
  obtain hword | hword := ofWord_cases word
  · rw [hword]; nofun
  · exact hall _ hword

/-- No piece is the end of a source. -/
theorem first_kind_ne_eof (c : Char) (a : List Char) : (first c a).kind ≠ some .eof := by
  unfold first
  split
  · exact fun h => ofWord_ne_eof _ (Option.some_inj.mp h)
  split
  · nofun
  split
  · nofun
  split
  · dsimp only
    split <;> nofun
  split
  · split <;> nofun
  split
  · next alone joined h =>
    unfold Kind.withEqual? at h
    split at h <;> cases h <;> split <;> nofun
  · unfold Kind.ofChar?
    dsimp only
    split <;> nofun

theorem eq_first_of_mem_cut {n : Nat} {a : List Char} {p : Piece} (h : p ∈ cut n a) :
    ∃ c rest, p = first c rest := by
  induction n generalizing a with
  | zero => cases h
  | succ n ih =>
    cases a with
    | nil => cases h
    | cons c a =>
      obtain rfl | h := List.mem_cons.mp h
      · exact ⟨c, a, rfl⟩
      · exact ih h

theorem ofPiece?_eq_some {line : Nat} {p : Piece} {t : Token} (h : Token.ofPiece? line p = some t) :
    p = ⟨some t.kind, t.lexeme.toList⟩ ∧ t.literal = Literal.ofText? t.kind t.lexeme.toList := by
  obtain ⟨kind | kind, text⟩ := p
  · cases h
  · rw [Token.ofPiece?] at h
    dsimp only at h
    split at h
    · cases h
      rw [String.toList_ofList]
      exact ⟨rfl, rfl⟩
    · cases h

def tokens (line : Nat) (ps : List Piece) : List Token :=
  (located line ps).filterMap fun p => Token.ofPiece? p.1 p.2

def faults (line : Nat) (ps : List Piece) : List Diagnostic :=
  (located line ps).filterMap fun p => Diagnostic.ofPiece? p.1 p.2

theorem tokens_cons (line : Nat) (p : Piece) (ps : List Piece) :
    tokens line (p :: ps) = (Token.ofPiece? (line + p.text.count '\n') p).toList ++
      tokens (line + p.text.count '\n') ps := by
  unfold tokens
  rw [located, List.filterMap_cons]
  dsimp only
  cases Token.ofPiece? (line + p.text.count '\n') p <;> rfl

theorem faults_cons (line : Nat) (p : Piece) (ps : List Piece) :
    faults line (p :: ps) = (Diagnostic.ofPiece? (line + p.text.count '\n') p).toList ++
      faults (line + p.text.count '\n') ps := by
  unfold faults
  rw [located, List.filterMap_cons]
  dsimp only
  cases Diagnostic.ofPiece? (line + p.text.count '\n') p <;> rfl

theorem tokens_append (line : Nat) (ps qs : List Piece) :
    tokens line (ps ++ qs) =
      tokens line ps ++ tokens (line + (ps.flatMap (·.text)).count '\n') qs := by
  induction ps generalizing line with
  | nil => rfl
  | cons p ps ih =>
    rw [List.cons_append, tokens_cons, tokens_cons, ih, List.flatMap_cons, List.count_append,
      Nat.add_assoc, List.append_assoc]

theorem faults_append (line : Nat) (ps qs : List Piece) :
    faults line (ps ++ qs) =
      faults line ps ++ faults (line + (ps.flatMap (·.text)).count '\n') qs := by
  induction ps generalizing line with
  | nil => rfl
  | cons p ps ih =>
    rw [List.cons_append, faults_cons, faults_cons, ih, List.flatMap_cons, List.count_append,
      Nat.add_assoc, List.append_assoc]

theorem ofPiece?_of_mem_tokens {line : Nat} {ps : List Piece} {t : Token} (h : t ∈ tokens line ps) :
    ∃ p ∈ ps, ∃ last, Token.ofPiece? last p = some t := by
  induction ps generalizing line with
  | nil => cases h
  | cons p ps ih =>
    rw [tokens_cons, List.mem_append, Option.mem_toList] at h
    obtain h | h := h
    · exact ⟨p, List.mem_cons_self, _, h⟩
    · obtain ⟨q, hq, hpiece⟩ := ih h
      exact ⟨q, List.mem_cons_of_mem _ hq, hpiece⟩

/-- Pieces without a fault, on whatever lines. -/
theorem faults_eq_nil_iff {line : Nat} {ps : List Piece} :
    faults line ps = [] ↔ ∀ p ∈ ps, p.kind ≠ none ∧ p.kind ≠ some .unterminatedString := by
  induction ps generalizing line with
  | nil => simp [faults, located]
  | cons p ps ih =>
    rw [faults_cons, List.append_eq_nil_iff, ih, List.forall_mem_cons]
    refine and_congr_left fun _ => ?_
    unfold Diagnostic.ofPiece?
    split <;> simp_all

end Piece

def tokensOf (source : String) : List Token := Piece.tokens 1 (Piece.ofChars source.toList)

theorem scan_faults (source : String) :
    (scan source).faults = Piece.faults 1 (Piece.ofChars source.toList) := rfl

/-- Where no string is left open, the second of two sources is scanned as if it stood alone, on the lines
after the first. -/
theorem tokens_faults_newline {a : String} (ha : (scan a).faults = []) (b : String) :
    tokensOf (a ++ "\n" ++ b) =
        tokensOf a ++ Piece.tokens (1 + (1 + a.toList.count '\n')) (Piece.ofChars b.toList) ∧
      (scan (a ++ "\n" ++ b)).faults =
        Piece.faults (1 + (1 + a.toList.count '\n')) (Piece.ofChars b.toList) := by
  have hclosed : ∀ p ∈ Piece.ofChars a.toList, p.kind ≠ some .unterminatedString :=
    fun p hp => (Piece.faults_eq_nil_iff.mp ha p hp).2
  have hpieces : Piece.ofChars (a ++ "\n" ++ b).toList =
      Piece.ofChars a.toList ++ ⟨some .newline, ['\n']⟩ :: Piece.ofChars b.toList := by
    rw [← Piece.ofChars_newline _ _ hclosed]
    simp
  have hlines : 1 + (1 + a.toList.count '\n') = 1 + a.toList.count '\n' + 1 := by omega
  rw [tokensOf, scan_faults, hpieces, Piece.tokens_append, Piece.faults_append, Piece.flatMap_ofChars,
    hlines]
  refine ⟨congrArg _ (Piece.tokens_cons _ _ _), ?_⟩
  rw [← scan_faults, ha, List.nil_append]
  exact Piece.faults_cons _ _ _

theorem scan_tokens (source : String) :
    (scan source).tokens = tokensOf source ++ [Token.eof (1 + source.toList.count '\n')] := rfl

theorem kind_ne_eof_of_mem {source : String} {t : Token} (h : t ∈ tokensOf source) : t.kind ≠ .eof := by
  obtain ⟨p, hp, last, hpiece⟩ := Piece.ofPiece?_of_mem_tokens h
  obtain ⟨c, rest, hfirst⟩ := Piece.eq_first_of_mem_cut hp
  have hkind := congrArg Piece.kind (hfirst.symm.trans (Piece.ofPiece?_eq_some hpiece).1)
  exact fun heof => Piece.first_kind_ne_eof c rest (hkind.trans (congrArg some heof))

theorem takeWhile_before_eof {ts : List Token} (h : ∀ t ∈ ts, t.kind ≠ .eof) (line : Nat) :
    (ts ++ [Token.eof line]).takeWhile (·.kind ≠ .eof) = ts := by
  rw [List.takeWhile_append_of_pos fun t ht => decide_eq_true (h t ht)]
  exact List.append_nil ts

end LoxLang
