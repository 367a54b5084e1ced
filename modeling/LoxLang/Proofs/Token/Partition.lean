import Mathlib.Data.List.Forall2
import Mathlib.Data.Nat.Digits.Defs
import LoxLang.Proofs.Token.Pattern

/-!
Scanning against the patterns: a source falls into pieces in one way, and the tokens and faults are read
off these pieces.
-/
namespace LoxLang

/-- The text is the longest start of the source that any kind matches, and this kind matches it. Only a
keyword shares its text with another kind. -/
structure Longest (source : List Char) (kind : Kind) (text : List Char) : Prop where
  start : text <+: source
  mem : text ∈ kind.pattern
  longest : ∀ (k : Kind) (w : List Char), w <+: source → w ∈ k.pattern → w.length ≤ text.length
  preferred : ∀ k : Kind, text ∈ k.pattern → k = kind ∨ k = .identifier ∧ kind.isKeyword

inductive Partition : List Char → List Piece → Prop where
  | done : Partition [] []
  | matched {kind : Kind} {text rest : List Char} {ps : List Piece} :
      Longest (text ++ rest) kind text → Partition rest ps →
      Partition (text ++ rest) (⟨some kind, text⟩ :: ps)
  | unmatched {c : Char} {rest : List Char} {ps : List Piece} :
      (∀ (k : Kind) (w : List Char), w <+: c :: rest → w ∉ k.pattern) → Partition rest ps →
      Partition (c :: rest) (⟨none, [c]⟩ :: ps)

section Unique

variable {source text text' : List Char} {kind kind' : Kind}

theorem Longest.unique (h : Longest source kind text) (h' : Longest source kind' text') :
    kind = kind' ∧ text = text' := by
  have hlength := Nat.le_antisymm (h'.longest _ _ h.start h.mem) (h.longest _ _ h'.start h'.mem)
  obtain rfl : text = text' :=
    (List.prefix_of_prefix_length_le h.start h'.start hlength.le).eq_of_length hlength
  refine ⟨?_, rfl⟩
  obtain hkind | ⟨rfl, hkeyword⟩ := h.preferred _ h'.mem
  · exact hkind.symm
  · obtain hkind | ⟨rfl, -⟩ := h'.preferred _ h.mem
    · exact hkind
    · cases hkeyword

theorem not_mem_pattern_nil (kind : Kind) : [] ∉ kind.pattern := by
  intro h
  obtain ⟨c, rest, hnil, -⟩ := Piece.first_of_mem_pattern h
  cases hnil

/-- A source falls into pieces in one way only. -/
theorem Partition.unique {ps qs : List Piece} (h : Partition source ps) (h' : Partition source qs) :
    ps = qs := by
  induction h generalizing qs with
  | done =>
    generalize hsource : [] = source at h'
    cases h' with
    | done => rfl
    | matched hlongest =>
      obtain ⟨rfl, -⟩ := List.append_eq_nil_iff.mp hsource.symm
      exact absurd hlongest.mem (not_mem_pattern_nil _)
    | unmatched => cases hsource
  | @matched kind text rest ps hlongest _ ih =>
    generalize hsource : text ++ rest = source at h'
    cases h' with
    | done =>
      obtain ⟨rfl, -⟩ := List.append_eq_nil_iff.mp hsource
      exact absurd hlongest.mem (not_mem_pattern_nil _)
    | matched hlongest' hrest =>
      obtain ⟨rfl, rfl⟩ := hlongest.unique (hsource ▸ hlongest')
      obtain rfl := List.append_cancel_left hsource
      rw [ih hrest]
    | unmatched hno => exact absurd hlongest.mem (hno _ _ (hsource ▸ hlongest.start))
  | @unmatched c rest ps hno _ ih =>
    generalize hsource : c :: rest = source at h'
    cases h' with
    | done => cases hsource
    | matched hlongest => exact absurd hlongest.mem (hno _ _ (hsource ▸ hlongest.start))
    | unmatched _ hrest =>
      cases hsource
      rw [ih hrest]

end Unique

namespace Piece

variable {c : Char} {rest : List Char}

/-- Of its own text the first piece is the first piece, too. -/
theorem first_self {kind : Kind} {text : List Char} (h : first c rest = ⟨some kind, c :: text⟩) :
    first c text = ⟨some kind, c :: text⟩ := by
  have hmem := first_mem_pattern h
  obtain ⟨d, t, htext, hfirst⟩ := first_of_mem_pattern hmem
  obtain ⟨rfl, rfl⟩ := List.cons.inj htext
  by_cases hkind : kind = .identifier
  · subst hkind
    obtain ⟨d, hd, t, -, ht⟩ := mem_oneOf_mul.mp hmem
    obtain ⟨rfl, rfl⟩ := List.cons.inj ht
    rw [first_letter (isLetter_iff.mpr hd), Piece.mk.injEq] at h
    obtain ⟨hword, hrest⟩ := h
    rw [hrest, Option.some_inj] at hword
    rw [hfirst, if_pos rfl, hword]
  · rw [hfirst, if_neg hkind]

/-- No start of the source that a kind matches is longer than the first piece. -/
theorem length_le_first {k : Kind} {w : List Char} (hw : w <+: c :: rest) (hk : w ∈ k.pattern) :
    w.length ≤ (first c rest).text.length ∧ (first c rest).kind.isSome := by
  obtain ⟨d, text, rfl, hfirst⟩ := first_of_mem_pattern hk
  obtain ⟨more, hmore⟩ := hw
  obtain ⟨rfl, rfl⟩ := List.cons.inj hmore
  constructor
  · simpa [hfirst] using first_length_le d text more
  · rw [first_kind_isSome d _ text, hfirst]
    rfl

theorem longest_first {kind : Kind} {text : List Char} (h : first c rest = ⟨some kind, text⟩) :
    Longest (c :: rest) kind text where
  start := by simpa [h] using first_isPrefix c rest
  mem := first_mem_pattern h
  longest k w hw hk := by simpa [h] using (length_le_first hw hk).1
  preferred k hk := by
    obtain ⟨d, text, rfl, hfirst⟩ := first_of_mem_pattern hk
    obtain ⟨rfl, -⟩ : d = c ∧ text <+: rest := by simpa [h] using first_isPrefix c rest
    rw [first_self h, Piece.mk.injEq, Option.some_inj] at hfirst
    obtain ⟨hkind, -⟩ := hfirst
    by_cases hk : k = .identifier
    · rw [if_pos hk] at hkind
      obtain hword | hword := ofWord_cases (.ofList (d :: text))
      · exact .inl (hk.trans (hkind.trans hword).symm)
      · rw [← hkind] at hword
        exact .inr ⟨hk, List.any_eq_true.mpr ⟨_, hword, decide_eq_true rfl⟩⟩
    · rw [if_neg hk] at hkind
      exact .inl hkind.symm

theorem partition_ofChars (chars : List Char) : Partition chars (ofChars chars) := by
  match chars with
  | [] => exact .done
  | c :: rest =>
    have hle := first_text_length_le c rest
    have hrest : (rest.drop ((first c rest).text.length - 1)).length < (c :: rest).length := by
      rw [List.length_drop, List.length_cons]; omega
    have ih := partition_ofChars (rest.drop ((first c rest).text.length - 1))
    have happend := first_text_append c rest
    rw [ofChars_cons]
    match hfirst : first c rest with
    | ⟨some kind, text⟩ =>
      rw [hfirst] at ih happend
      rw [← happend]
      exact .matched (happend ▸ longest_first hfirst) ih
    | ⟨none, text⟩ =>
      have htext := first_text_of_kind_none (congrArg Piece.kind hfirst)
      rw [hfirst] at ih htext
      obtain rfl : text = [c] := htext
      exact .unmatched (fun k w hw hk => by simpa [hfirst] using (length_le_first hw hk).2) ih
termination_by chars.length

def upTo (before : List Char) : List Piece → List (List Char × Piece)
  | [] => []
  | p :: ps => (before ++ p.text, p) :: upTo (before ++ p.text) ps

def isToken (p : Piece) : Bool :=
  p.kind ∉ [none, some .blank, some .newline, some .comment, some .unterminatedString]

end Piece

def decimal (ds : List Char) : Nat := Nat.ofDigits 10 (ds.reverse.map fun d => d.toNat - '0'.toNat)

/-- Numbers and strings have a value: the nearest double and the text between the quotes. -/
inductive IsLiteral : Kind → List Char → Option Literal → Prop where
  | whole {ds : List Char} : (∀ d ∈ ds, d ∈ digits) →
      IsLiteral .number ds (some (.number (Float.ofScientific (decimal ds) true 0)))
  | fraction {ds es : List Char} : (∀ d ∈ ds, d ∈ digits) → (∀ e ∈ es, e ∈ digits) →
      IsLiteral .number (ds ++ '.' :: es)
        (some (.number (Float.ofScientific (decimal (ds ++ es)) true es.length)))
  | string (body : List Char) :
      IsLiteral .string ('"' :: body ++ ['"']) (some (.string (.ofList body)))
  | other {kind : Kind} {text : List Char} : kind ≠ .number → kind ≠ .string →
      IsLiteral kind text none

structure IsTokenOf (read : List Char) (p : Piece) (t : Token) : Prop where
  kind : p.kind = some t.kind
  lexeme : t.lexeme.toList = p.text
  line : t.line = 1 + read.count '\n'
  literal : IsLiteral t.kind p.text t.literal

namespace Piece

theorem valueOfDigits_eq (ds : List Char) : Number.valueOfDigits ds = decimal ds := by
  unfold Number.valueOfDigits decimal
  induction ds using List.reverseRecOn with
  | nil => rfl
  | append_singleton ds d ih =>
    rw [List.foldl_append, ih, List.reverse_append]
    exact (Nat.add_comm _ _)

theorem ofNumeral_append {ds : List Char} (rest : List Char) (hds : ∀ d ∈ ds, d ∈ digits)
    (hrest : ∀ d ∈ rest.head?, d = '.') : Number.ofNumeral (ds ++ rest) =
      Float.ofScientific (decimal (ds ++ rest.tail)) true rest.tail.length := by
  have hpoint : ∀ d ∈ ds, d ∈ ({'.'} : Set Char)ᶜ := fun d hd h =>
    point_not_mem_digits ((Set.mem_singleton_iff.mp h) ▸ hds d hd)
  have hwhole : (ds ++ rest).takeWhile (· ≠ '.') = ds :=
    takeWhile_run ne_iff_mem_compl hpoint fun d hd h => h (hrest d hd)
  have hdrop : (ds ++ rest).dropWhile (· ≠ '.') = rest := by
    have hsplit := List.takeWhile_append_dropWhile (p := (· ≠ '.')) (l := ds ++ rest)
    rw [hwhole] at hsplit
    exact List.append_cancel_left hsplit
  rw [Number.ofNumeral, hwhole, hdrop, List.drop_one, valueOfDigits_eq]

theorem isLiteral_ofText {kind : Kind} {text : List Char} (h : text ∈ kind.pattern) :
    IsLiteral kind text (Literal.ofText? kind text) := by
  cases kind with
  | number =>
    obtain ⟨c, whole, ⟨hc, hwhole⟩, hcases⟩ := mem_pattern_number h
    have hds : ∀ d ∈ c :: whole, d ∈ digits := List.forall_mem_cons.mpr ⟨hc, hwhole⟩
    obtain rfl | ⟨d, ds, ⟨hd, hds'⟩, rfl⟩ := hcases
    · have hvalue := ofNumeral_append [] hds (by simp)
      rw [List.append_nil, List.tail_nil, List.append_nil] at hvalue
      rw [Literal.ofText?, hvalue]
      exact .whole hds
    · have hvalue := ofNumeral_append ('.' :: d :: ds) hds (by simp)
      rw [Literal.ofText?, hvalue]
      exact .fraction hds (List.forall_mem_cons.mpr ⟨hd, hds'⟩)
  | string =>
    obtain ⟨body, -, rfl⟩ := mem_pattern_string h
    have hbody : (body ++ ['"']).dropLast = body := List.dropLast_concat
    change IsLiteral .string ('"' :: body ++ ['"'])
      (some (.string (.ofList (body ++ ['"']).dropLast)))
    rw [hbody]
    exact .string body
  | _ => exact .other nofun nofun

variable {source : List Char} {ps : List Piece}

theorem upTo_cons_filter (before : List Char) (p : Piece) (ps : List Piece) :
    ((upTo before (p :: ps)).filter fun e => e.2.isToken) =
      (if p.isToken then [(before ++ p.text, p)] else []) ++
        (upTo (before ++ p.text) ps).filter fun e => e.2.isToken := by
  rw [upTo, List.filter_cons]
  split <;> rfl

theorem isTokenOf_ofPiece {kind : Kind} {text : List Char} (read : List Char)
    (h : text ∈ kind.pattern) : List.Forall₂ (fun e t => IsTokenOf e.1 e.2 t)
      (if Piece.isToken ⟨some kind, text⟩ then [(read, ⟨some kind, text⟩)] else [])
      (Token.ofPiece? (1 + read.count '\n') ⟨some kind, text⟩).toList := by
  have htoken : Piece.isToken ⟨some kind, text⟩ = kind.isToken := by cases kind <;> rfl
  rw [Token.ofPiece?, htoken]
  dsimp only
  split
  · exact .cons ⟨rfl, String.toList_ofList, rfl, isLiteral_ofText h⟩ .nil
  · exact .nil

theorem tokens_partition (h : Partition source ps) (before : List Char) :
    List.Forall₂ (fun e t => IsTokenOf e.1 e.2 t) ((upTo before ps).filter fun e => e.2.isToken)
      (tokens (1 + before.count '\n') ps) := by
  induction h generalizing before with
  | done => exact .nil
  | @matched kind text rest ps hlongest _ ih =>
    rw [tokens_cons, upTo_cons_filter, Nat.add_assoc, ← List.count_append]
    exact List.rel_append (isTokenOf_ofPiece _ hlongest.mem) (ih _)
  | unmatched _ _ ih =>
    rw [tokens_cons, upTo_cons_filter, Nat.add_assoc, ← List.count_append]
    exact ih _

/-- Only the last piece can be an open string. -/
theorem rest_eq_nil_of_unterminated {text rest : List Char}
    (h : Longest (text ++ rest) .unterminatedString text) : rest = [] := by
  obtain ⟨body, hbody, rfl⟩ := mem_exactly_mul.mp h.mem
  cases rest with
  | nil => rfl
  | cons c rest =>
    have hstart : "\"".toList ++ body ++ [c] <+: "\"".toList ++ body ++ c :: rest := by simp
    have hlonger : ("\"".toList ++ body ++ [c]).length ≤ ("\"".toList ++ body).length := by
      by_cases hc : c = '"'
      · subst hc
        exact h.longest .string _ hstart (Language.append_mem_mul h.mem rfl)
      · refine h.longest .unterminatedString _ hstart ?_
        have hmore : ∀ d ∈ body ++ [c], d ∈ ({'"'} : Set Char)ᶜ := by
          rw [List.forall_mem_append, List.forall_mem_singleton]
          exact ⟨mem_kstar_oneOf.mp hbody, hc⟩
        rw [List.append_assoc]
        exact mem_exactly_mul.mpr ⟨_, mem_kstar_oneOf.mpr hmore, rfl⟩
    simp at hlonger

theorem getLast?_cons_kind {p : Piece} {kind : Kind} (hp : p.kind ≠ some kind) (ps : List Piece) :
    (p :: ps).getLast?.bind Piece.kind = some kind ↔ ps.getLast?.bind Piece.kind = some kind := by
  cases ps with
  | nil => simpa using hp
  | cons => rw [List.getLast?_cons_cons]

def faultsFrom (before : List Char) (ps : List Piece) : List Diagnostic :=
  (((upTo before ps).filter fun e => e.2.kind = none).map fun e =>
    ⟨1 + e.1.count '\n', .unmatched, .unexpectedCharacter⟩) ++
  if ps.getLast?.bind Piece.kind = some .unterminatedString
    then [⟨1 + (before ++ ps.flatMap (·.text)).count '\n', .unmatched, .unterminatedString⟩] else []

theorem faults_partition (h : Partition source ps) (before : List Char) :
    faults (1 + before.count '\n') ps = faultsFrom before ps := by
  induction h generalizing before with
  | done => rfl
  | @matched kind text rest ps hlongest hrest ih =>
    rw [faults_cons, Nat.add_assoc, ← List.count_append, ih]
    by_cases hkind : kind = .unterminatedString
    · subst hkind
      obtain rfl := rest_eq_nil_of_unterminated hlongest
      obtain rfl : ps = [] := hrest.unique .done
      simp [faultsFrom, upTo, Diagnostic.ofPiece?]
    · have hne : (⟨some kind, text⟩ : Piece).kind ≠ some .unterminatedString := by simpa using hkind
      have hfault (line : Nat) : Diagnostic.ofPiece? line ⟨some kind, text⟩ = none := by
        unfold Diagnostic.ofPiece?
        split <;> simp_all
      unfold faultsFrom
      simp only [getLast?_cons_kind hne, hfault]
      simp [upTo]
  | @unmatched c rest ps _ _ ih =>
    have hne : (⟨none, [c]⟩ : Piece).kind ≠ some .unterminatedString := nofun
    rw [faults_cons, Nat.add_assoc, ← List.count_append, ih]
    unfold faultsFrom
    simp only [getLast?_cons_kind hne]
    simp [upTo, Diagnostic.ofPiece?]

end Piece

/-- Every source falls into pieces in one way, and the scanner returns what the pieces are: one token for
each piece that is one, then the end; one fault for each character without a kind, then one for a string
that the source leaves open. -/
theorem scan_partition (source : String) :
    ∃ ps : List Piece, (∀ qs, Partition source.toList qs ↔ qs = ps) ∧
      ps.flatMap (·.text) = source.toList ∧
      (∃ ts, (scan source).tokens = ts ++ [Token.eof (1 + source.toList.count '\n')] ∧
        List.Forall₂ (fun e t => IsTokenOf e.1 e.2 t)
          ((Piece.upTo [] ps).filter fun e => e.2.isToken) ts) ∧
      (scan source).faults =
        (((Piece.upTo [] ps).filter fun e => e.2.kind = none).map fun e =>
          ⟨1 + e.1.count '\n', .unmatched, .unexpectedCharacter⟩) ++
        if ps.getLast?.bind Piece.kind = some .unterminatedString
          then [⟨1 + source.toList.count '\n', .unmatched, .unterminatedString⟩] else [] := by
  have hpartition := Piece.partition_ofChars source.toList
  have hfaults : (scan source).faults = Piece.faultsFrom [] (Piece.ofChars source.toList) :=
    Piece.faults_partition hpartition []
  rw [Piece.faultsFrom, Piece.flatMap_ofChars] at hfaults
  exact ⟨Piece.ofChars source.toList,
    fun qs => ⟨fun h => h.unique hpartition, fun h => h ▸ hpartition⟩, Piece.flatMap_ofChars _,
    ⟨tokensOf source, scan_tokens source, Piece.tokens_partition hpartition []⟩, hfaults⟩

end LoxLang
