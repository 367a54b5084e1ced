import Mathlib.Computability.Language
import LoxLang.Proofs.Token.Pieces

/-!
The pattern of each kind of piece, as a language. A piece is cut where the text at hand has no longer
start in any of these languages.
-/
namespace LoxLang

open Computability

def oneOf (s : Set Char) : Language Char := {text | ∃ c ∈ s, text = [c]}

def exactly (text : String) : Language Char := {text.toList}

def letters : Set Char := {c | 'a' ≤ c ∧ c ≤ 'z' ∨ 'A' ≤ c ∧ c ≤ 'Z' ∨ c = '_'}
def digits : Set Char := {c | '0' ≤ c ∧ c ≤ '9'}
def blanks : Set Char := {' ', '\t', '\r', '\x0c'}

namespace Kind

def spelling : Kind → String
  | leftParen => "("
  | rightParen => ")"
  | leftBrace => "\x7b"
  | rightBrace => "\x7d"
  | comma => ","
  | dot => "."
  | minus => "-"
  | plus => "+"
  | semicolon => ";"
  | slash => "/"
  | star => "*"
  | bang => "!"
  | bangEqual => "!="
  | equal => "="
  | equalEqual => "=="
  | greater => ">"
  | greaterEqual => ">="
  | less => "<"
  | lessEqual => "<="
  | kwAnd => "and"
  | kwClass => "class"
  | kwElse => "else"
  | kwFalse => "false"
  | kwFun => "fun"
  | kwFor => "for"
  | kwIf => "if"
  | kwNil => "nil"
  | kwOr => "or"
  | kwPrint => "print"
  | kwReturn => "return"
  | kwSuper => "super"
  | kwThis => "this"
  | kwTrue => "true"
  | kwVar => "var"
  | kwWhile => "while"
  | newline => "\n"
  | identifier | string | unterminatedString | number | comment | blank | eof => ""

/-- The texts of a kind. The end of a source is no text. -/
def pattern : Kind → Language Char
  | identifier => oneOf letters * (oneOf (letters ∪ digits))∗
  | string => exactly "\"" * (oneOf {'"'}ᶜ)∗ * exactly "\""
  | unterminatedString => exactly "\"" * (oneOf {'"'}ᶜ)∗
  | number => oneOf digits * (oneOf digits)∗ * (1 + exactly "." * (oneOf digits * (oneOf digits)∗))
  | comment => exactly "//" * (oneOf {'\n'}ᶜ)∗
  | blank => oneOf blanks * (oneOf blanks)∗
  | eof => 0
  | kind => exactly kind.spelling

def isKeyword (kind : Kind) : Bool := keywords.any (·.2 = kind)

end Kind

theorem mem_kstar_oneOf {s : Set Char} {text : List Char} :
    text ∈ (oneOf s)∗ ↔ ∀ c ∈ text, c ∈ s := by
  rw [Language.mem_kstar]
  constructor
  · rintro ⟨L, rfl, hL⟩ c hc
    obtain ⟨w, hw, hcw⟩ := List.mem_flatten.mp hc
    obtain ⟨d, hd, rfl⟩ := hL w hw
    rwa [List.mem_singleton.mp hcw]
  · intro h
    refine ⟨text.map ([·]), (List.flatMap_singleton' text).symm, fun w hw => ?_⟩
    obtain ⟨c, hc, rfl⟩ := List.mem_map.mp hw
    exact ⟨c, h c hc, rfl⟩

theorem mem_oneOf_mul {s : Set Char} {L : Language Char} {text : List Char} :
    text ∈ oneOf s * L ↔ ∃ c ∈ s, ∃ rest ∈ L, text = c :: rest := by
  rw [Language.mem_mul]
  constructor
  · rintro ⟨_, ⟨c, hc, rfl⟩, rest, hrest, rfl⟩
    exact ⟨c, hc, rest, hrest, rfl⟩
  · rintro ⟨c, hc, rest, hrest, rfl⟩
    exact ⟨[c], ⟨c, hc, rfl⟩, rest, hrest, rfl⟩

theorem mem_exactly_mul {s : String} {L : Language Char} {text : List Char} :
    text ∈ exactly s * L ↔ ∃ rest ∈ L, text = s.toList ++ rest := by
  rw [Language.mem_mul]
  constructor
  · rintro ⟨_, rfl, rest, hrest, rfl⟩
    exact ⟨rest, hrest, rfl⟩
  · rintro ⟨rest, hrest, rfl⟩
    exact ⟨_, rfl, rest, hrest, rfl⟩

theorem isLetter_iff {c : Char} : isLetter c ↔ c ∈ letters := by
  have hupper : c.isUpper ↔ 'A' ≤ c ∧ c ≤ 'Z' := decide_eq_true_iff
  have hlower : c.isLower ↔ 'a' ≤ c ∧ c ≤ 'z' :=
    Bool.and_eq_true_iff.trans (and_congr decide_eq_true_iff decide_eq_true_iff)
  have halpha : c.isAlpha ↔ c.isUpper ∨ c.isLower := Bool.or_eq_true_iff
  rw [isLetter, Bool.or_eq_true, halpha, hupper, hlower, decide_eq_true_eq, or_comm (a := _ ∧ _), or_assoc]
  rfl

theorem isDigit_iff {c : Char} : isDigit c ↔ c ∈ digits := by
  simp only [isDigit, Char.isDigit, Bool.and_eq_true, decide_eq_true_eq]
  rfl

theorem isWordChar_iff {c : Char} : isWordChar c ↔ c ∈ letters ∪ digits := by
  rw [isWordChar, Bool.or_eq_true, isLetter_iff, isDigit_iff]
  rfl

theorem isBlank_iff {c : Char} : isBlank c ↔ c ∈ blanks := by
  simp only [isBlank, Bool.or_eq_true, decide_eq_true_eq, or_assoc]
  rfl

theorem ofWord_spelling : ∀ e ∈ Kind.keywords, Kind.ofWord e.1 = e.2 ∧ e.2.spelling = e.1 := by decide

theorem not_letter_of_digit {c : Char} (h : isDigit c) : isLetter c = false := by
  by_contra hletter
  obtain ⟨hlo, hhi⟩ := isDigit_iff.mp h
  obtain ⟨ha, -⟩ | ⟨hA, -⟩ | rfl := isLetter_iff.mp (Bool.not_eq_false _ ▸ hletter)
  · exact absurd (Char.le_trans ha hhi) (by decide)
  · exact absurd (Char.le_trans hA hhi) (by decide)
  · exact absurd hhi (by decide)

theorem not_word_of_blank {c : Char} (h : isBlank c) : isLetter c = false ∧ isDigit c = false := by
  obtain rfl | rfl | rfl | rfl := isBlank_iff.mp h <;> decide

namespace Piece

variable {c : Char} {rest more : List Char}

theorem takeWhile_length_le (p : Char → Bool) (rest more : List Char) :
    (rest.takeWhile p).length ≤ ((rest ++ more).takeWhile p).length := by
  rw [List.takeWhile_append]
  split
  · next h => rw [h, List.length_append]; omega
  · exact Nat.le_refl _

section Start

theorem first_letter (h : isLetter c) (rest : List Char) :
    first c rest = ⟨some (.ofWord (.ofList (c :: rest.takeWhile isWordChar))),
      c :: rest.takeWhile isWordChar⟩ := by
  rw [first, if_pos h]

theorem first_digit (h : isDigit c) (rest : List Char) :
    first c rest = ⟨some .number, c :: rest.takeWhile isDigit ++
      fraction (rest.drop (rest.takeWhile isDigit).length)⟩ := by
  rw [first, if_neg (by simp [not_letter_of_digit h]), if_pos h]

theorem first_blank (h : isBlank c) (rest : List Char) :
    first c rest = ⟨some .blank, c :: rest.takeWhile isBlank⟩ := by
  obtain ⟨hletter, hdigit⟩ := not_word_of_blank h
  simp [first, hletter, hdigit, h]

theorem first_quote (rest : List Char) :
    first '"' rest = if (rest.takeWhile (· ≠ '"')).length < rest.length
      then ⟨some .string, '"' :: rest.takeWhile (· ≠ '"') ++ ['"']⟩
      else ⟨some .unterminatedString, '"' :: rest.takeWhile (· ≠ '"')⟩ := rfl

theorem first_slash (rest : List Char) :
    first '/' rest = if rest.head? = some '/' then ⟨some .comment, '/' :: rest.takeWhile (· ≠ '\n')⟩
      else ⟨some .slash, ['/']⟩ := rfl

theorem first_withEqual {alone joined : Kind} (h : Kind.withEqual? c = some (alone, joined))
    (rest : List Char) :
    first c rest = if rest.head? = some '=' then ⟨some joined, [c, '=']⟩
      else ⟨some alone, [c]⟩ := by
  unfold Kind.withEqual? at h
  split at h <;> cases h <;> rfl

end Start

inductive Start (c : Char) : Prop where
  | letter : isLetter c → Start c
  | digit : isDigit c → Start c
  | blank : isBlank c → Start c
  | quote : c = '"' → Start c
  | slash : c = '/' → Start c
  | sign {alone joined : Kind} : Kind.withEqual? c = some (alone, joined) → Start c
  | alone : (∀ rest, first c rest = ⟨Kind.ofChar? c, [c]⟩) → Start c

theorem start (c : Char) : Start c := by
  by_cases hletter : isLetter c
  · exact .letter hletter
  by_cases hdigit : isDigit c
  · exact .digit hdigit
  by_cases hblank : isBlank c
  · exact .blank hblank
  by_cases hquote : c = '"'
  · exact .quote hquote
  by_cases hslash : c = '/'
  · exact .slash hslash
  cases hsign : Kind.withEqual? c with
  | some kinds => exact .sign hsign
  | none =>
    exact .alone fun rest => by simp [first, hletter, hdigit, hblank, hquote, hslash, hsign]

theorem fraction_cases (rest : List Char) :
    fraction rest = [] ∨ ∃ d ds, isDigit d ∧ rest = '.' :: d :: ds ∧
      fraction rest = '.' :: d :: ds.takeWhile isDigit := by
  unfold fraction
  split
  · split
    · next d ds h => exact .inr ⟨d, ds, h, rfl, rfl⟩
    · exact .inl rfl
  · exact .inl rfl

theorem fraction_length_le (rest more : List Char) :
    (fraction rest).length ≤ (fraction (rest ++ more)).length := by
  obtain h | ⟨d, ds, hd, rfl, h⟩ := fraction_cases rest
  · rw [h]; exact Nat.zero_le _
  · rw [h, List.cons_append, List.cons_append, fraction, if_pos hd]
    simpa using takeWhile_length_le isDigit ds more

theorem number_length_le (rest more : List Char) :
    (rest.takeWhile isDigit ++ fraction (rest.drop (rest.takeWhile isDigit).length)).length ≤
      ((rest ++ more).takeWhile isDigit ++
        fraction ((rest ++ more).drop ((rest ++ more).takeWhile isDigit).length)).length := by
  have hle := (List.takeWhile_prefix isDigit (l := rest)).length_le
  by_cases h : (rest.takeWhile isDigit).length = rest.length
  · have hwhole := takeWhile_length_le isDigit rest more
    rw [h, List.drop_length, List.length_append, List.length_append, h]
    exact (Nat.le_trans (h ▸ hwhole) (Nat.le_add_right _ _))
  · have hsame : (rest ++ more).takeWhile isDigit = rest.takeWhile isDigit := by
      rw [List.takeWhile_append, if_neg h]
    rw [hsame, List.drop_append_of_le_length hle, List.length_append, List.length_append]
    exact Nat.add_le_add_left (fraction_length_le _ more) _

theorem quote_length_le (rest more : List Char) :
    (first '"' rest).text.length ≤ (first '"' (rest ++ more)).text.length := by
  have hbody := takeWhile_length_le (· ≠ '"') rest more
  have hle := (List.takeWhile_prefix (· ≠ '"') (l := rest)).length_le
  rw [first_quote, first_quote]
  by_cases hclosed : (rest.takeWhile (· ≠ '"')).length < rest.length
  · have hsame : (rest ++ more).takeWhile (· ≠ '"') = rest.takeWhile (· ≠ '"') := by
      rw [List.takeWhile_append, if_neg (Nat.ne_of_lt hclosed)]
    have hlt : (rest.takeWhile (· ≠ '"')).length < (rest ++ more).length := by
      rw [List.length_append]; omega
    rw [if_pos hclosed, hsame, if_pos hlt]
  · rw [if_neg hclosed]
    split
    · simp only [List.length_cons, List.length_append]; omega
    · exact Nat.succ_le_succ hbody

/-- More text makes a piece no shorter. -/
theorem first_length_le (c : Char) (rest more : List Char) :
    (first c rest).text.length ≤ (first c (rest ++ more)).text.length := by
  have hhead {d : Char} (h : rest.head? = some d) : (rest ++ more).head? = some d := by
    rw [List.head?_append, h]; rfl
  cases start c with
  | letter h =>
    rw [first_letter h, first_letter h]
    exact Nat.succ_le_succ (takeWhile_length_le isWordChar rest more)
  | digit h =>
    rw [first_digit h, first_digit h]
    exact Nat.succ_le_succ (number_length_le rest more)
  | blank h =>
    rw [first_blank h, first_blank h]
    exact Nat.succ_le_succ (takeWhile_length_le isBlank rest more)
  | quote h => exact h ▸ quote_length_le rest more
  | slash h =>
    subst h
    rw [first_slash, first_slash]
    split
    · next hslash =>
      rw [if_pos (hhead hslash)]
      exact Nat.succ_le_succ (takeWhile_length_le (· ≠ '\n') rest more)
    · split <;> exact Nat.succ_le_succ (Nat.zero_le _)
  | sign h =>
    rw [first_withEqual h, first_withEqual h]
    split
    · next hequal => rw [if_pos (hhead hequal)]
    · split <;> exact Nat.succ_le_succ (Nat.zero_le _)
  | alone h => rw [h, h]

/-- Whether a piece has a kind depends on how it begins. -/
theorem first_kind_isSome (c : Char) (rest rest' : List Char) :
    (first c rest).kind.isSome = (first c rest').kind.isSome := by
  cases start c with
  | letter h => rw [first_letter h, first_letter h]; rfl
  | digit h => rw [first_digit h, first_digit h]
  | blank h => rw [first_blank h, first_blank h]
  | quote h => subst h; rw [first_quote, first_quote]; split <;> split <;> rfl
  | slash h => subst h; rw [first_slash, first_slash]; split <;> split <;> rfl
  | sign h => rw [first_withEqual h, first_withEqual h]; split <;> split <;> rfl
  | alone h => rw [h, h]

theorem first_text_of_kind_none (h : (first c rest).kind = none) : (first c rest).text = [c] := by
  cases start c with
  | letter hc => rw [first_letter hc] at h; cases h
  | digit hc => rw [first_digit hc] at h; cases h
  | blank hc => rw [first_blank hc] at h; cases h
  | quote hc => subst hc; rw [first_quote] at h; split at h <;> cases h
  | slash hc => subst hc; rw [first_slash] at h; split at h <;> cases h
  | sign hc => rw [first_withEqual hc] at h; split at h <;> cases h
  | alone hc => rw [hc]

theorem first_spelling (kind : Kind) (h : kind.spelling ≠ "") :
    ∃ c rest, kind.spelling.toList = c :: rest ∧ first c rest = ⟨some kind, c :: rest⟩ := by
  cases kind <;> first | exact absurd rfl h | exact ⟨_, _, rfl, rfl⟩

/-- A run of a class ends where the class ends. -/
theorem takeWhile_run {p : Char → Bool} {s : Set Char} (hp : ∀ c, p c ↔ c ∈ s)
    {run : List Char} (hrun : ∀ c ∈ run, c ∈ s) (hrest : ∀ c ∈ rest.head?, c ∉ s) :
    (run ++ rest).takeWhile p = run := by
  rw [List.takeWhile_append_of_pos fun c hc => (hp c).mpr (hrun c hc)]
  cases rest with
  | nil => exact List.append_nil run
  | cons c rest =>
    rw [List.takeWhile_cons_of_neg fun h => hrest c rfl ((hp c).mp h), List.append_nil]

theorem takeWhile_all {p : Char → Bool} {s : Set Char} (hp : ∀ c, p c ↔ c ∈ s)
    (h : ∀ c ∈ rest, c ∈ s) : rest.takeWhile p = rest := by
  have hend : ∀ c ∈ ([] : List Char).head?, c ∉ s := by simp
  simpa using takeWhile_run hp h hend

theorem ne_iff_mem_compl {d : Char} (c : Char) : (decide (c ≠ d)) = true ↔ c ∈ ({d} : Set Char)ᶜ := by
  simp

theorem fraction_digits {d : Char} {ds : List Char} (hd : d ∈ digits) (hds : ∀ e ∈ ds, e ∈ digits) :
    fraction ('.' :: d :: ds) = '.' :: d :: ds := by
  rw [fraction, if_pos (isDigit_iff.mpr hd), takeWhile_all (fun _ => isDigit_iff) hds]

theorem first_number {whole more : List Char} (hc : c ∈ digits) (hwhole : ∀ d ∈ whole, d ∈ digits)
    (hmore : ∀ d ∈ more.head?, d ∉ digits) :
    first c (whole ++ more) = ⟨some .number, c :: whole ++ fraction more⟩ := by
  rw [first_digit (isDigit_iff.mpr hc), takeWhile_run (fun _ => isDigit_iff) hwhole hmore,
    List.drop_left]

theorem pattern_of_spelling {kind : Kind} (h : kind.spelling ≠ "") :
    kind.pattern = exactly kind.spelling := by
  cases kind <;> first | rfl | exact absurd rfl h

theorem mem_pattern_number {text : List Char} (h : text ∈ Kind.number.pattern) :
    ∃ c whole, (c ∈ digits ∧ ∀ d ∈ whole, d ∈ digits) ∧ (text = c :: whole ∨
      ∃ d ds, (d ∈ digits ∧ ∀ e ∈ ds, e ∈ digits) ∧ text = c :: whole ++ '.' :: d :: ds) := by
  obtain ⟨_, htext, more, hmore, rfl⟩ := Language.mem_mul.mp h
  obtain ⟨c, hc, whole, hwhole, rfl⟩ := mem_oneOf_mul.mp htext
  refine ⟨c, whole, ⟨hc, mem_kstar_oneOf.mp hwhole⟩, ?_⟩
  obtain rfl | hmore := (Language.mem_add _ _ _).mp hmore
  · exact .inl (List.append_nil _)
  · obtain ⟨_, hfraction, rfl⟩ := mem_exactly_mul.mp hmore
    obtain ⟨d, hd, ds, hds, rfl⟩ := mem_oneOf_mul.mp hfraction
    exact .inr ⟨d, ds, ⟨hd, mem_kstar_oneOf.mp hds⟩, rfl⟩

theorem mem_pattern_string {text : List Char} (h : text ∈ Kind.string.pattern) :
    ∃ body, (∀ c ∈ body, c ∈ ({'"'} : Set Char)ᶜ) ∧ text = '"' :: body ++ ['"'] := by
  obtain ⟨_, htext, _, rfl, rfl⟩ := Language.mem_mul.mp h
  obtain ⟨body, hbody, rfl⟩ := mem_exactly_mul.mp htext
  exact ⟨body, mem_kstar_oneOf.mp hbody, rfl⟩

theorem point_not_mem_digits : '.' ∉ digits := fun h => absurd h.1 (by decide)

/-- A text that a kind matches is the first piece of itself; a word has the kind of a word. -/
theorem first_of_mem_pattern {kind : Kind} {text : List Char} (h : text ∈ kind.pattern) :
    ∃ c rest, text = c :: rest ∧ first c rest =
      ⟨some (if kind = .identifier then .ofWord (.ofList text) else kind), text⟩ := by
  by_cases hspelled : kind.spelling ≠ ""
  · rw [pattern_of_spelling hspelled] at h
    obtain rfl : text = kind.spelling.toList := h
    obtain ⟨c, rest, htext, hfirst⟩ := first_spelling kind hspelled
    have hkind : kind ≠ .identifier := by rintro rfl; exact hspelled rfl
    exact ⟨c, rest, htext, by rw [hfirst, if_neg hkind, htext]⟩
  cases kind with
  | identifier =>
    obtain ⟨c, hc, rest, hrest, rfl⟩ := mem_oneOf_mul.mp h
    refine ⟨c, rest, rfl, ?_⟩
    rw [first_letter (isLetter_iff.mpr hc),
      takeWhile_all (fun _ => isWordChar_iff) (mem_kstar_oneOf.mp hrest)]
    rfl
  | string =>
    obtain ⟨body, hbody, rfl⟩ := mem_pattern_string h
    have hrun : (body ++ ['"']).takeWhile (· ≠ '"') = body :=
      takeWhile_run ne_iff_mem_compl hbody (by simp)
    refine ⟨'"', body ++ ['"'], rfl, ?_⟩
    rw [first_quote, hrun, if_pos (by simp)]
    rfl
  | unterminatedString =>
    obtain ⟨body, hbody, rfl⟩ := mem_exactly_mul.mp h
    have hrun : body.takeWhile (· ≠ '"') = body :=
      takeWhile_all ne_iff_mem_compl (mem_kstar_oneOf.mp hbody)
    refine ⟨'"', body, rfl, ?_⟩
    rw [first_quote, hrun, if_neg (Nat.lt_irrefl _)]
    rfl
  | number =>
    obtain ⟨c, whole, ⟨hc, hwhole⟩, rfl | ⟨d, ds, ⟨hd, hds⟩, rfl⟩⟩ := mem_pattern_number h
    · have hend : ∀ d ∈ ([] : List Char).head?, d ∉ digits := by simp
      have hfirst := first_number hc hwhole hend
      rw [show fraction [] = [] from rfl, List.append_nil, List.append_nil] at hfirst
      exact ⟨c, whole, rfl, hfirst⟩
    · refine ⟨c, whole ++ '.' :: d :: ds, rfl, ?_⟩
      rw [first_number hc hwhole (by simp [point_not_mem_digits]), fraction_digits hd hds]
      rfl
  | comment =>
    obtain ⟨body, hbody, rfl⟩ := mem_exactly_mul.mp h
    have hrun : ('/' :: body).takeWhile (· ≠ '\n') = '/' :: body :=
      takeWhile_all ne_iff_mem_compl (List.forall_mem_cons.mpr ⟨by decide, mem_kstar_oneOf.mp hbody⟩)
    refine ⟨'/', '/' :: body, rfl, ?_⟩
    rw [first_slash, hrun]
    rfl
  | blank =>
    obtain ⟨c, hc, rest, hrest, rfl⟩ := mem_oneOf_mul.mp h
    refine ⟨c, rest, rfl, ?_⟩
    rw [first_blank (isBlank_iff.mpr hc),
      takeWhile_all (fun _ => isBlank_iff) (mem_kstar_oneOf.mp hrest)]
    rfl
  | eof => exact absurd h (Language.notMem_zero text)
  | _ => exact absurd (by decide) hspelled

theorem takeWhile_mem {p : Char → Bool} {s : Set Char} (hp : ∀ c, p c ↔ c ∈ s) :
    ∀ c ∈ rest.takeWhile p, c ∈ s :=
  fun c hc => (hp c).mp (List.all_eq_true.mp List.all_takeWhile c hc)

/-- A word matches its kind. -/
theorem mem_pattern_ofWord {text : List Char} (h : text ∈ Kind.identifier.pattern) :
    text ∈ (Kind.ofWord (.ofList text)).pattern := by
  obtain hword | hword := ofWord_cases (.ofList text)
  · rwa [hword]
  · have hspelling := (ofWord_spelling _ hword).2
    have hne : ∀ e ∈ Kind.keywords, e.2.spelling ≠ "" := by decide
    rw [pattern_of_spelling (hne _ hword), hspelling]
    exact (String.toList_ofList).symm

theorem mem_pattern_withEqual {alone joined : Kind} (h : Kind.withEqual? c = some (alone, joined)) :
    [c] ∈ alone.pattern ∧ [c, '='] ∈ joined.pattern := by
  unfold Kind.withEqual? at h
  split at h <;> cases h <;> exact ⟨rfl, rfl⟩

theorem mem_pattern_ofChar {kind : Kind} (h : Kind.ofChar? c = some kind) : [c] ∈ kind.pattern := by
  unfold Kind.ofChar? at h
  split at h <;> cases h <;> rfl

theorem mem_pattern_fraction (rest : List Char) :
    fraction rest ∈ 1 + exactly "." * (oneOf digits * (oneOf digits)∗) := by
  rw [Language.mem_add]
  obtain h | ⟨d, ds, hd, -, h⟩ := fraction_cases rest
  · exact .inl h
  · rw [h]
    exact .inr (mem_exactly_mul.mpr ⟨_, mem_oneOf_mul.mpr ⟨d, isDigit_iff.mp hd, _,
      mem_kstar_oneOf.mpr (takeWhile_mem fun _ => isDigit_iff), rfl⟩, rfl⟩)

/-- A piece that has a kind matches it. -/
theorem first_mem_pattern {kind : Kind} {text : List Char} (h : first c rest = ⟨some kind, text⟩) :
    text ∈ kind.pattern := by
  cases start c with
  | letter hc =>
    rw [first_letter hc] at h
    cases h
    exact mem_pattern_ofWord (mem_oneOf_mul.mpr ⟨c, isLetter_iff.mp hc, _,
      mem_kstar_oneOf.mpr (takeWhile_mem fun _ => isWordChar_iff), rfl⟩)
  | digit hc =>
    rw [first_digit hc] at h
    cases h
    exact Language.append_mem_mul (mem_oneOf_mul.mpr ⟨c, isDigit_iff.mp hc, _,
      mem_kstar_oneOf.mpr (takeWhile_mem fun _ => isDigit_iff), rfl⟩) (mem_pattern_fraction _)
  | blank hc =>
    rw [first_blank hc] at h
    cases h
    exact mem_oneOf_mul.mpr ⟨c, isBlank_iff.mp hc, _,
      mem_kstar_oneOf.mpr (takeWhile_mem fun _ => isBlank_iff), rfl⟩
  | quote hc =>
    subst hc
    have hbody : '"' :: rest.takeWhile (· ≠ '"') ∈ exactly "\"" * (oneOf {'"'}ᶜ)∗ :=
      mem_exactly_mul.mpr ⟨_, mem_kstar_oneOf.mpr (takeWhile_mem ne_iff_mem_compl), rfl⟩
    rw [first_quote] at h
    split at h <;> cases h
    · exact Language.append_mem_mul hbody (Set.mem_singleton _)
    · exact hbody
  | slash hc =>
    subst hc
    rw [first_slash] at h
    split at h <;> cases h
    · next hslash =>
      obtain ⟨r, rfl⟩ := List.head?_eq_some_iff.mp hslash
      exact mem_exactly_mul.mpr ⟨_, mem_kstar_oneOf.mpr (takeWhile_mem ne_iff_mem_compl), rfl⟩
    · rfl
  | sign hc =>
    rw [first_withEqual hc] at h
    split at h <;> cases h
    · exact (mem_pattern_withEqual hc).2
    · exact (mem_pattern_withEqual hc).1
  | alone hc =>
    rw [hc] at h
    obtain ⟨hkind, rfl⟩ := Piece.mk.inj h
    exact mem_pattern_ofChar hkind

end Piece
end LoxLang
