import LoxLang.Proofs.Matching.Parse
import LoxLang.Proofs.Token.Pieces

/-!
Two sources with a line break between them: the tokens and faults of the second one match those that it has
alone, on the lines after the first.
-/
namespace LoxLang

namespace Piece

variable {L : Nat → Nat → Prop}

theorem ofPiece?_token_matches {line line' : Nat} (hline : L line line') (p : Piece) :
    List.Forall₂ (Token.Matches L) (Token.ofPiece? line p).toList (Token.ofPiece? line' p).toList := by
  unfold Token.ofPiece?
  split
  · split
    · exact .cons ⟨rfl, rfl, hline, rfl⟩ .nil
    · exact .nil
  · exact .nil

theorem ofPiece?_fault_matches {line line' : Nat} (hline : L line line') (p : Piece) :
    List.Forall₂ (Diagnostic.Matches L) (Diagnostic.ofPiece? line p).toList
      (Diagnostic.ofPiece? line' p).toList := by
  unfold Diagnostic.ofPiece?
  split
  · exact .cons (.mk _ _ hline) .nil
  · exact .cons (.mk _ _ hline) .nil
  · exact .nil

/-- From a line as much later on, pieces have the same tokens and faults as much later. -/
theorem tokens_faults_matches {line line' : Nat} (hL : ∀ n, L (line + n) (line' + n))
    (ps : List Piece) :
    List.Forall₂ (Token.Matches L) (tokens line ps) (tokens line' ps) ∧
      List.Forall₂ (Diagnostic.Matches L) (faults line ps) (faults line' ps) := by
  induction ps generalizing line line' with
  | nil => exact ⟨.nil, .nil⟩
  | cons p ps ih =>
    have hlater : ∀ n, L (line + p.text.count '\n' + n) (line' + p.text.count '\n' + n) := fun n => by
      rw [Nat.add_assoc line, Nat.add_assoc line']
      exact hL _
    obtain ⟨htokens, hfaults⟩ := ih hlater
    rw [tokens_cons, tokens_cons, faults_cons, faults_cons]
    exact ⟨List.rel_append (ofPiece?_token_matches (hL _) p) htokens,
      List.rel_append (ofPiece?_fault_matches (hL _) p) hfaults⟩

end Piece

/-- The second of two sources on the lines after the first. -/
theorem scan_newline_shifted {a : String} (ha : (scan a).faults = []) (b : String) :
    ∃ us, tokensOf (a ++ "\n" ++ b) = tokensOf a ++ us ∧
      List.Forall₂ (Token.Matches (Shifted (1 + a.toList.count '\n'))) (tokensOf b) us ∧
      List.Forall₂ (Diagnostic.Matches (Shifted (1 + a.toList.count '\n'))) (scan b).faults
        (scan (a ++ "\n" ++ b)).faults := by
  obtain ⟨htokens, hfaults⟩ := tokens_faults_newline ha b
  have hshifted (n : Nat) : Shifted (1 + a.toList.count '\n') (1 + n)
      (1 + (1 + a.toList.count '\n') + n) := Nat.add_right_comm ..
  obtain ⟨htokens', hfaults'⟩ := Piece.tokens_faults_matches hshifted (Piece.ofChars b.toList)
  exact ⟨_, htokens, htokens', hfaults ▸ hfaults'⟩

theorem Token.matches_self {L : Nat → Nat → Prop} (hL : ∀ l, L l l) (ts : List Token) :
    List.Forall₂ (Token.Matches L) ts ts :=
  List.forall₂_same.mpr fun _ _ => ⟨rfl, rfl, hL _, rfl⟩

/-- Where nothing is wrong with two sources, their tokens are those of both with a line break between. -/
theorem scan_newline {a b : String} (ha : (scan a).faults = []) (hb : (scan b).faults = []) :
    (scan (a ++ "\n" ++ b)).faults = [] ∧
      List.Forall₂ (Token.Matches whatever) (tokensOf a ++ tokensOf b) (tokensOf (a ++ "\n" ++ b)) := by
  obtain ⟨us, htokens, hus, hfaults⟩ := scan_newline_shifted ha b
  rw [hb] at hfaults
  refine ⟨List.forall₂_nil_left_iff.mp hfaults, ?_⟩
  rw [htokens]
  exact List.rel_append (Token.matches_self (fun _ => trivial) _)
    (hus.imp fun _ _ h => ⟨h.kind, h.lexeme, trivial, h.literal⟩)

theorem identifiers_append (ts us : List Token) :
    identifiers (ts ++ us) = identifiers ts + identifiers us :=
  List.countP_append

theorem identifiers_matches {L : Nat → Nat → Prop} {ts ts' : List Token}
    (h : List.Forall₂ (Token.Matches L) ts ts') : identifiers ts' = identifiers ts := by
  induction h with
  | nil => rfl
  | cons ht _ ih =>
    unfold identifiers at ih ⊢
    rw [List.countP_cons, List.countP_cons, ih, ht.kind]

theorem identifiers_scan (source : String) :
    identifiers (scan source).tokens = identifiers (tokensOf source) := by
  rw [scan_tokens, identifiers_append]
  rfl

theorem identifiers_newline {a b : String} (ha : (scan a).faults = []) (hb : (scan b).faults = []) :
    identifiers (scan (a ++ "\n" ++ b)).tokens =
      identifiers (scan a).tokens + identifiers (scan b).tokens := by
  rw [identifiers_scan, identifiers_scan, identifiers_scan, identifiers_matches (scan_newline ha hb).2,
    identifiers_append]

end LoxLang
