import LoxLang.Proofs.Parse.Accept
import LoxLang.Proofs.Matching.Scan
import LoxLang.Proofs.Matching.Session

/-!
Two accepted sources with a line break between them: they are accepted together, as one program after the
other.
-/
namespace LoxLang

theorem Grammar.Declarations.append {nearest : Prop} {ts us : List Token} {ss ss' : List Stmt}
    (h : Declarations nearest ts ss) (h' : Declarations nearest us ss') :
    Declarations nearest (ts ++ us) (ss ++ ss') := by
  induction ss generalizing ts with
  | nil => cases h; exact h'
  | cons s ss ih =>
    cases h with
    | cons hs hss =>
      rw [List.append_assoc]
      exact .cons hs (ih hss)

theorem Stmt.allBare_append (ss ts : List Stmt) :
    Stmt.allBare (ss ++ ts) = Stmt.allBare ss ++ Stmt.allBare ts := by
  induction ss with
  | nil => rfl
  | cons s ss ih => exact congrArg _ ih

namespace Parsed

theorem faults_of_accept {p : Parsed} {a : Accepted} (h : p.accept = .ok a) : p.faults = [] := by
  unfold accept at h
  split at h
  · next hf => exact List.isEmpty_iff.mp hf
  · cases h

theorem accept_of_distances {p : Parsed} {T : Distances} (hf : p.faults = [])
    (hT : Scoping.distances p.program = .ok T) : p.accept = .ok ⟨p.program, T⟩ := by
  rw [accept, hf, hT]
  rfl

variable {a b : String} {firstId firstId' : NodeId} {x y : Accepted}

/-- An accepted source has no lexical faults, and its tokens derive its program. -/
theorem derives_of_accept (h : (ofSource a firstId).accept = .ok x) :
    (scan a).faults = [] ∧ Grammar.Declarations True (tokensOf a) (Stmt.allBare x.program) := by
  obtain ⟨hscan, hparse⟩ := List.append_eq_nil_iff.mp (faults_of_accept h)
  have hd := derives_of_faults_eq_nil hparse
  rw [scan_tokens, takeWhile_before_eof fun _ => kind_ne_eof_of_mem] at hd
  rw [(accept_eq_ok h).1]
  exact ⟨hscan, hd⟩

/-- Two accepted sources are accepted together, as one program after the other. -/
theorem accept_newline (ha : (ofSource a firstId).accept = .ok x)
    (hb : (ofSource b firstId').accept = .ok y) (newId : NodeId) :
    ∃ z ss ts, (ofSource (a ++ "\n" ++ b) newId).accept = .ok z ∧ z.program = ss ++ ts ∧
      Stmt.AllMatch whatever whatever x.program ss ∧
      Stmt.AllMatch whatever whatever y.program ts := by
  obtain ⟨hscana, hderivesa⟩ := derives_of_accept ha
  obtain ⟨hscanb, hderivesb⟩ := derives_of_accept hb
  obtain ⟨hscan, htokens⟩ := scan_newline hscana hscanb
  let line := 1 + (a ++ "\n" ++ b).toList.count '\n'
  let tokens := (tokensOf a ++ tokensOf b) ++ [Token.eof line]
  have hmatch : List.Forall₂ (Token.Matches whatever) tokens (scan (a ++ "\n" ++ b)).tokens :=
    List.rel_append htokens (.cons ⟨rfl, rfl, trivial, rfl⟩ .nil)
  have hderives : Grammar.Declarations True (tokens.takeWhile (·.kind ≠ .eof))
      (Stmt.allBare x.program ++ Stmt.allBare y.program) := by
    rw [takeWhile_before_eof fun t ht =>
      (List.mem_append.mp ht).elim kind_ne_eof_of_mem kind_ne_eof_of_mem]
    exact hderivesa.append hderivesb
  obtain ⟨hclean, htree⟩ := faults_eq_nil_of_derives newId hderives
  obtain ⟨hprogram, hfaults⟩ := ofTokens_matches hmatch trivial newId newId
  rw [hclean] at hfaults
  have hnone : (ofSource (a ++ "\n" ++ b) newId).faults = [] :=
    List.append_eq_nil_iff.mpr ⟨hscan, List.forall₂_nil_left_iff.mp hfaults⟩
  have hall : Stmt.AllMatch whatever whatever (x.program ++ y.program)
      (ofSource (a ++ "\n" ++ b) newId).program :=
    Stmt.allMatch_of_allBare _ _ <| by
      rw [Stmt.allBare_append, ← htree]
      exact hprogram.allBare
  obtain ⟨hx, hTx⟩ := accept_eq_ok ha
  obtain ⟨hy, hTy⟩ := accept_eq_ok hb
  rw [← hx] at hTx
  rw [← hy] at hTy
  obtain ⟨T, hT⟩ := Scoping.distances_append (hx ▸ allPlaced_ofTokens _ firstId) hTx hTy
  obtain ⟨ss, ts, hsplit, hss, hts⟩ := hall.of_append
  obtain ⟨_, T', -, hT'⟩ | ⟨faults, _, hfault, -⟩ := Scoping.distances_matches hall
  · exact ⟨_, ss, ts, accept_of_distances hnone hT', hsplit, hss, hts⟩
  · rw [hT] at hfault
    cases hfault

end Parsed
end LoxLang
