import LoxLang.Token

/-!
A source is cut into pieces. Each is the longest start of the remaining text that has a kind, or a
single character that has none.
-/
namespace LoxLang

structure Piece where
  kind : Option Kind
  text : List Char

/- The grammar knows ASCII letters and digits only, and so do these core tests. -/
def isLetter (c : Char) : Bool := c.isAlpha || c = '_'
def isDigit (c : Char) : Bool := c.isDigit
def isWordChar (c : Char) : Bool := isLetter c || isDigit c
def isBlank (c : Char) : Bool := c = ' ' || c = '\t' || c = '\r' || c = '\x0c'

def Kind.ofChar? : Char → Option Kind
  | '(' => some leftParen
  | ')' => some rightParen
  | '{' => some leftBrace
  | '}' => some rightBrace
  | ',' => some comma
  | '.' => some dot
  | '-' => some minus
  | '+' => some plus
  | ';' => some semicolon
  | '*' => some star
  | '\n' => some newline
  | _ => none

def Kind.withEqual? : Char → Option (Kind × Kind)
  | '!' => some (bang, bangEqual)
  | '=' => some (equal, equalEqual)
  | '>' => some (greater, greaterEqual)
  | '<' => some (less, lessEqual)
  | _ => none

namespace Piece

/-- A point belongs to a number only before a digit. -/
def fraction : List Char → List Char
  | '.' :: d :: rest => if isDigit d then '.' :: d :: rest.takeWhile isDigit else []
  | _ => []

def first (c : Char) (rest : List Char) : Piece :=
  if isLetter c then
    let word := c :: rest.takeWhile isWordChar
    ⟨some (.ofWord (.ofList word)), word⟩
  else if isDigit c then
    let whole := rest.takeWhile isDigit
    ⟨some .number, c :: whole ++ fraction (rest.drop whole.length)⟩
  else if isBlank c then ⟨some .blank, c :: rest.takeWhile isBlank⟩
  else if c = '"' then
    let body := rest.takeWhile (· ≠ '"')
    if body.length < rest.length then ⟨some .string, c :: body ++ ['"']⟩
    else ⟨some .unterminatedString, c :: body⟩
  else if c = '/' then
    if rest.head? = some '/' then ⟨some .comment, c :: rest.takeWhile (· ≠ '\n')⟩
    else ⟨some .slash, [c]⟩
  else
    match Kind.withEqual? c with
    | some (alone, joined) =>
      if rest.head? = some '=' then ⟨some joined, [c, '=']⟩ else ⟨some alone, [c]⟩
    | none => ⟨Kind.ofChar? c, [c]⟩

def cut : Nat → List Char → List Piece
  | 0, _ => []
  | _, [] => []
  | n + 1, c :: rest =>
    let p := first c rest
    p :: cut n (rest.drop (p.text.length - 1))

/- Pieces are never empty, so there are at most as many as characters. -/
def ofChars (chars : List Char) : List Piece := cut chars.length chars

theorem fraction_isPrefix (l : List Char) : fraction l <+: l := by
  unfold fraction
  split
  · split
    · simpa using List.takeWhile_prefix _
    · exact List.nil_prefix
  · exact List.nil_prefix

theorem takeWhile_append_drop (p : Char → Bool) (l : List Char) :
    l.takeWhile p ++ l.drop (l.takeWhile p).length = l := by
  induction l with
  | nil => rfl
  | cons a l ih => by_cases h : p a <;> simp [h, ih]

/-- A string ends at its quote. -/
theorem takeWhile_append_quote {rest : List Char}
    (h : (rest.takeWhile (· ≠ '"')).length < rest.length) :
    rest.takeWhile (· ≠ '"') ++ ['"'] <+: rest := by
  induction rest with
  | nil => simp at h
  | cons a l ih =>
    by_cases ha : a = '"'
    · simp [ha]
    · simp [ha] at h ⊢
      simpa using ih (by simpa using h)

theorem first_isPrefix (c : Char) (rest : List Char) : (first c rest).text <+: c :: rest := by
  unfold first
  split
  · simpa using List.takeWhile_prefix _
  split
  · obtain ⟨t, ht⟩ := fraction_isPrefix (rest.drop (rest.takeWhile isDigit).length)
    refine ⟨t, ?_⟩
    simp only [List.cons_append, List.append_assoc, ht, takeWhile_append_drop]
  split
  · simpa using List.takeWhile_prefix _
  split
  · dsimp only
    split
    · next h => simpa using takeWhile_append_quote h
    · simpa using List.takeWhile_prefix _
  split
  · split
    · simpa using List.takeWhile_prefix _
    · simp
  split
  · split
    · next h => cases rest <;> simp_all
    · simp
  · simp

theorem first_text_ne_nil (c : Char) (rest : List Char) : (first c rest).text ≠ [] := by
  unfold first
  dsimp only
  repeat' split
  all_goals simp

theorem first_text_append (c : Char) (rest : List Char) :
    (first c rest).text ++ rest.drop ((first c rest).text.length - 1) = c :: rest := by
  obtain ⟨t, ht⟩ := first_isPrefix c rest
  have hne := first_text_ne_nil c rest
  generalize (first c rest).text = text at ht hne
  cases text with
  | nil => exact absurd rfl hne
  | cons a l =>
    simp only [List.cons_append, List.cons.injEq] at ht
    obtain ⟨rfl, rfl⟩ := ht
    simp

/-- Nothing of a source is lost. -/
theorem flatMap_cut {n : Nat} {chars : List Char} (h : chars.length ≤ n) :
    (cut n chars).flatMap (·.text) = chars := by
  induction n generalizing chars with
  | zero => cases chars <;> simp_all [cut]
  | succ n ih =>
    cases chars with
    | nil => rfl
    | cons c rest =>
      simp only [cut, List.flatMap_cons]
      rw [ih (by simp at h ⊢; omega), first_text_append]

theorem flatMap_ofChars (chars : List Char) : (ofChars chars).flatMap (·.text) = chars :=
  flatMap_cut (Nat.le_refl _)

end Piece
end LoxLang
