import Mathlib.Data.List.TakeWhile
import LoxLang.Proofs.Token.Pieces

/-!
The lines of tokens. Those of a source never decrease, and the end of the tokens is on the last of them.
The lines of its lexical faults never decrease either.
-/
namespace LoxLang

def readable (tokens : List Token) : List Token := tokens.takeWhile (·.kind ≠ .eof)

def Lacks (kind : Kind) (ts : List Token) : Prop := ∀ t ∈ ts, t.kind ≠ kind

section Lacks
variable {kind : Kind} {t : Token} {ts us : List Token}

@[simp] theorem lacks_nil : Lacks kind [] := nofun

@[simp] theorem lacks_cons : Lacks kind (t :: ts) ↔ t.kind ≠ kind ∧ Lacks kind ts :=
  List.forall_mem_cons

@[simp] theorem lacks_append : Lacks kind (ts ++ us) ↔ Lacks kind ts ∧ Lacks kind us :=
  List.forall_mem_append

theorem readable_append (h : Lacks .eof ts) (us : List Token) :
    readable (ts ++ us) = ts ++ readable us :=
  List.takeWhile_append_of_pos fun t ht => by simpa using h t ht

theorem readable_eq_self : readable ts = ts ↔ Lacks .eof ts := by
  simp [readable, Lacks]

/-- What stands behind the end is not read. -/
theorem readable_append_of_eof (h : ¬Lacks .eof ts) (us : List Token) :
    readable (ts ++ us) = readable ts := by
  rw [readable, List.takeWhile_append, if_neg, readable]
  intro hlength
  have hall : readable ts = ts := (List.takeWhile_prefix _).eq_of_length hlength
  exact h (readable_eq_self.mp hall)

end Lacks

def lineBefore (tokens : List Token) (i : Nat) : Nat :=
  ((tokens.take i).getLast?.map Token.line).getD 1

/-- The line of the end: its own where the tokens name it, else that of the last token. -/
def endLine (tokens : List Token) : Nat :=
  ((tokens.find? (·.kind = .eof)).map Token.line).getD
    (lineBefore (readable tokens) (readable tokens).length)

theorem lineBefore_succ {tokens : List Token} {i : Nat} {t : Token} (h : tokens[i]? = some t) :
    lineBefore tokens (i + 1) = t.line := by
  rw [lineBefore, List.take_add_one, h]
  simp

section Lines
variable {tokens : List Token}

def LinesInOrder (tokens : List Token) : Prop := tokens.Pairwise fun t t' => t.line ≤ t'.line

theorem LinesInOrder.toReadable (h : LinesInOrder tokens) : LinesInOrder (readable tokens) :=
  h.sublist (List.takeWhile_sublist _)

theorem LinesInOrder.le_lineBefore (h : LinesInOrder tokens) {t : Token} (ht : t ∈ tokens) :
    t.line ≤ lineBefore tokens tokens.length := by
  obtain rfl | ⟨front, last, rfl⟩ := List.eq_nil_or_concat tokens
  · cases ht
  rw [List.concat_eq_append] at h ht ⊢
  rw [lineBefore, List.take_length, List.getLast?_concat]
  obtain ht | ht := List.mem_append.mp ht
  · exact (List.pairwise_append.mp h).2.2 t ht last (List.mem_singleton_self last)
  · rw [List.mem_singleton.mp ht]
    exact Nat.le_refl _

/-- No token that is read stands behind the line of the end. -/
theorem LinesInOrder.le_endLine (h : LinesInOrder tokens) {t : Token} (ht : t ∈ readable tokens) :
    t.line ≤ endLine tokens := by
  unfold endLine
  cases heof : tokens.find? (·.kind = .eof) with
  | none => exact h.toReadable.le_lineBefore ht
  | some e =>
    rw [LinesInOrder, ← List.takeWhile_append_dropWhile (p := (·.kind ≠ .eof)) (l := tokens)] at h
    have hhead : (tokens.dropWhile (·.kind ≠ .eof)).head? = some e := by
      rw [← heof, List.find?_eq_head?_dropWhile_not]
      simp
    exact (List.pairwise_append.mp h).2.2 t ht e (List.mem_of_mem_head? hhead)

end Lines

theorem Token.line_of_ofPiece? {line : Nat} {p : Piece} {t : Token} (h : ofPiece? line p = some t) :
    t.line = line := by
  unfold ofPiece? at h
  split at h
  · split at h <;> cases h
    rfl
  · cases h

theorem Diagnostic.line_of_ofPiece? {line : Nat} {p : Piece} {d : Diagnostic}
    (h : ofPiece? line p = some d) : d.line = line := by
  unfold ofPiece? at h
  split at h <;> cases h <;> rfl

/-- The lines of pieces that begin on a line go up from there, to no line behind the last. -/
theorem Piece.pairwise_located (line : Nat) (ps : List Piece) :
    (located line ps).Pairwise (fun p q => p.1 ≤ q.1) ∧
      ∀ p ∈ located line ps, line ≤ p.1 ∧ p.1 ≤ line + (ps.flatMap (·.text)).count '\n' := by
  induction ps generalizing line with
  | nil => exact ⟨.nil, nofun⟩
  | cons p ps ih =>
    obtain ⟨hps, hbounds⟩ := ih (line + p.text.count '\n')
    rw [located, List.flatMap_cons, List.count_append, List.pairwise_cons, List.forall_mem_cons]
    refine ⟨⟨fun q hq => (hbounds q hq).1, hps⟩, ⟨by dsimp only; omega, by dsimp only; omega⟩,
      fun q hq => ?_⟩
    have := hbounds q hq
    omega

theorem linesInOrder_scan (source : String) : LinesInOrder (scan source).tokens := by
  obtain ⟨hlocated, hbounds⟩ := Piece.pairwise_located 1 (Piece.ofChars source.toList)
  rw [Piece.flatMap_ofChars] at hbounds
  rw [scan_tokens, LinesInOrder, List.pairwise_append, tokensOf, Piece.tokens, List.pairwise_filterMap]
  refine ⟨hlocated.imp fun hle t ht u hu => ?_, List.pairwise_singleton _ _, fun t ht e he => ?_⟩
  · rw [Token.line_of_ofPiece? ht, Token.line_of_ofPiece? hu]
    exact hle
  · obtain ⟨p, hp, htp⟩ := List.mem_filterMap.mp ht
    rw [Token.line_of_ofPiece? htp, List.mem_singleton.mp he]
    exact (hbounds p hp).2

/-- The lines of lexical faults never decrease. -/
theorem pairwise_scan_faults (source : String) :
    (scan source).faults.Pairwise fun d d' => d.line ≤ d'.line := by
  rw [scan_faults, Piece.faults, List.pairwise_filterMap]
  refine (Piece.pairwise_located 1 _).1.imp fun hle d hd d' hd' => ?_
  rw [Diagnostic.line_of_ofPiece? hd, Diagnostic.line_of_ofPiece? hd']
  exact hle

end LoxLang
