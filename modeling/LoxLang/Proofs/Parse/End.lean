import Mathlib
import LoxLang.Proofs.Matching.Sequence
import LoxLang.Proofs.Parse.Order

/-!
The end of the tokens. Whether an end token stands there or no token at all, a parse comes to the same, but
for the line of the faults that are reported at the end.
-/
namespace LoxLang

namespace Diagnostic

structure SameButEnd (d d' : Diagnostic) : Prop where
  place : d'.place = d.place
  cause : d'.cause = d.cause
  line : d.place ≠ .atEnd → d'.line = d.line

theorem SameButEnd.refl (d : Diagnostic) : d.SameButEnd d := ⟨rfl, rfl, fun _ => rfl⟩

def endingAt (line : Nat) (d : Diagnostic) : Diagnostic :=
  if d.place = .atEnd then { d with line } else d

theorem SameButEnd.eq_endingAt {d d' : Diagnostic} (h : d.SameButEnd d') {line : Nat}
    (hline : d'.place = .atEnd → d'.line = line) : d' = d.endingAt line := by
  obtain ⟨line', place, cause⟩ := d'
  obtain ⟨rfl, rfl, hsame⟩ := h
  unfold endingAt
  split
  · next hend => rw [show line' = line from hline hend]
  · next hend => rw [show line' = d.line from hsame hend]

theorem SameButEnd.symm {d d' : Diagnostic} (h : d.SameButEnd d') : d'.SameButEnd d :=
  ⟨h.place.symm, h.cause.symm, fun hend => (h.line (h.place ▸ hend)).symm⟩

theorem map_endingAt {ds ds' : List Diagnostic} (h : List.Forall₂ SameButEnd ds ds') {line : Nat}
    (hline : ∀ d ∈ ds', d.place = .atEnd → d.line = line) : ds' = ds.map (endingAt line) := by
  induction h with
  | nil => rfl
  | cons hd _ ih =>
    obtain ⟨hhead, htail⟩ := List.forall_mem_cons.mp hline
    rw [List.map_cons, ← ih htail, ← hd.eq_endingAt hhead]

end Diagnostic

structure Cursor.SameButEnd (c c' : Cursor) : Prop where
  rest : c'.rest = c.rest
  line : c'.line = c.line
  nextId : c'.nextId = c.nextId
  faults : List.Forall₂ Diagnostic.SameButEnd c.faults.toList c'.faults.toList

inductive Reading.SameButEnd {α : Type} : Reading α → Reading α → Prop where
  | outOfFuel : SameButEnd .outOfFuel .outOfFuel
  | fault {d d' : Diagnostic} {c c' : Cursor} :
    d.SameButEnd d' → c.SameButEnd c' → SameButEnd (.fault d c) (.fault d' c')
  | done {c c' : Cursor} (a : α) : c.SameButEnd c' → SameButEnd (.done a c) (.done a c')

namespace Cursor.SameButEnd

variable {c c' : Cursor}

theorem faultHere (h : c.SameButEnd c') (cause : Cause) :
    (c.faultHere cause).SameButEnd (c'.faultHere cause) := by
  unfold Cursor.faultHere
  rw [h.rest]
  split
  · exact .refl _
  · exact ⟨rfl, rfl, fun hend => absurd rfl hend⟩

theorem record (h : c.SameButEnd c') {d d' : Diagnostic} (hd : d.SameButEnd d') :
    (c.record d).SameButEnd (c'.record d') where
  rest := h.rest
  line := h.line
  nextId := h.nextId
  faults := by
    simp only [Cursor.record, Array.toList_push]
    exact List.rel_append h.faults (.cons hd .nil)

theorem skipStatement (h : c.SameButEnd c') : c.skipStatement.SameButEnd c'.skipStatement := by
  unfold Cursor.skipStatement
  rw [h.rest, h.line]
  exact ⟨rfl, rfl, h.nextId, h.faults⟩

end Cursor.SameButEnd

namespace Parser

/-- No parser asks for the line of the end but to report a fault there. -/
theorem Composed.sameButEnd {α : Type} {ends : Kind → Bool} {p : Parser α} (h : Composed ends p)
    {c c' : Cursor} (hc : c.SameButEnd c') : (p c).SameButEnd (p c') := by
  induction h generalizing c c' with
  | outOfFuel => exact .outOfFuel
  | pure a => exact .done a hc
  | fail cause => exact .fault (hc.faultHere cause) hc
  | report d => exact .done () (hc.record (.refl d))
  | limitCount count cause =>
    unfold Parser.limitCount
    split
    · exact .done () (hc.record (hc.faultHere cause))
    · exact .done () hc
  | nextIs =>
    unfold Parser.nextIs
    rw [hc.rest]
    exact .done _ hc
  | atEnd =>
    unfold Parser.atEnd
    rw [hc.rest]
    exact .done _ hc
  | freshId =>
    unfold Parser.freshId
    rw [hc.nextId]
    exact .done _ ⟨hc.rest, hc.line, rfl, hc.faults⟩
  | @take? _ f =>
    unfold Parser.take?
    rw [hc.rest]
    split
    · exact .done none hc
    · split
      · exact .done _ ⟨rfl, rfl, hc.nextId, hc.faults⟩
      · exact .done none hc
  | @bind _ _ p f _ _ hp hf =>
    have hp := hp hc
    simp only [Bind.bind, Parser.bind]
    generalize p c = r at hp ⊢
    generalize p c' = r' at hp ⊢
    cases hp with
    | outOfFuel => exact .outOfFuel
    | fault hd hc => exact .fault hd hc
    | done a hc => exact hf a hc
  | @recovering _ p _ _ hp =>
    have hp := hp hc
    unfold Parser.recovering
    generalize p c = r at hp ⊢
    generalize p c' = r' at hp ⊢
    cases hp with
    | outOfFuel => exact .outOfFuel
    | fault hd hc => exact .done none (hc.record hd).skipStatement
    | done a hc => exact .done (some a) hc

end Parser

namespace Parsed

variable {tokens : List Token}

/-- A parse depends on the tokens up to the end only. -/
theorem ofTokens_congr {tokens' : List Token} {firstId : NodeId}
    (h : Cursor.start tokens' firstId = Cursor.start tokens firstId) :
    ofTokens tokens' firstId = ofTokens tokens firstId := by
  obtain ⟨ss, c, hp, heq⟩ := exists_program_ofTokens tokens firstId
  obtain ⟨ss', c', hp', heq'⟩ := exists_program_ofTokens tokens' firstId
  have hfuel := Parser.program_ne_outOfFuel tokens' firstId
  rw [h] at hp' hfuel
  obtain ⟨d, hd, hid, hfaults⟩ := Parser.program_congr (Parser.matches_cursor _) hp hfuel
  rw [hp'] at hd
  cases hd
  rw [heq, heq', hid, hfaults]

/-- A fault that is reported at the end is on the line of the end. -/
theorem line_of_atEnd {firstId : NodeId} {d : Diagnostic} (hd : d ∈ (ofTokens tokens firstId).faults)
    (hend : d.place = .atEnd) : d.line = endLine tokens := by
  obtain ⟨rs, hfaults, -⟩ := exists_reports tokens firstId
  rw [hfaults] at hd
  obtain ⟨r, -, rfl⟩ := List.mem_map.mp hd
  unfold Report.diagnostic at hend ⊢
  split
  · next h => rw [h] at hend; cases hend
  · rfl

theorem find?_eof (h : Lacks .eof tokens) : tokens.find? (·.kind = .eof) = none :=
  List.find?_eq_none.mpr fun t ht => by simpa using h t ht

theorem endLine_of_lacks (h : Lacks .eof tokens) :
    endLine tokens = (tokens.getLast?.map Token.line).getD 1 := by
  rw [endLine, find?_eof h, readable_eq_self.mpr h, lineBefore, List.take_length]
  rfl

theorem endLine_eof (h : Lacks .eof tokens) (line : Nat) :
    endLine (tokens ++ [Token.eof line]) = line := by
  rw [endLine, List.find?_append, find?_eof h]
  rfl

theorem start_append_eof (h : Lacks .eof tokens) (line : Nat) (more : List Token) (firstId : NodeId) :
    Cursor.start (tokens ++ [Token.eof line] ++ more) firstId =
      Cursor.start (tokens ++ [Token.eof line]) firstId := by
  have hends : ¬Lacks .eof (tokens ++ [Token.eof line]) := by simp [Token.eof]
  have hrest := readable_append_of_eof hends more
  have hfind : (tokens ++ [Token.eof line] ++ more).find? (·.kind = .eof) =
      (tokens ++ [Token.eof line]).find? (·.kind = .eof) := by
    simp [List.find?_append, find?_eof h, Token.eof]
  rw [Cursor.start, Cursor.start, hfind, ← readable, ← readable, hrest]

/-- Without an end token the parse comes to the same, up to the line of the end. -/
theorem sameButEnd_eof (h : Lacks .eof tokens) (line : Nat) (firstId : NodeId) :
    (ofTokens (tokens ++ [Token.eof line]) firstId).program = (ofTokens tokens firstId).program ∧
      (ofTokens (tokens ++ [Token.eof line]) firstId).nextId = (ofTokens tokens firstId).nextId ∧
      List.Forall₂ Diagnostic.SameButEnd (ofTokens tokens firstId).faults
        (ofTokens (tokens ++ [Token.eof line]) firstId).faults := by
  obtain ⟨ss, c, hp, heq⟩ := exists_program_ofTokens tokens firstId
  obtain ⟨ss', c', hp', heq'⟩ := exists_program_ofTokens (tokens ++ [Token.eof line]) firstId
  rw [start_eof h] at hp'
  have hstart : Cursor.start tokens firstId = ⟨tokens, 1, none, firstId, #[]⟩ := by
    rw [Cursor.start, find?_eof h, ← readable, readable_eq_self.mpr h]
    rfl
  rw [hstart] at hp
  -- The longer list of tokens gives more fuel, which makes no difference.
  have hfuel : Parser.program (Parser.fuel (tokens ++ [Token.eof line])) ⟨tokens, 1, none, firstId, #[]⟩ ≠
      .outOfFuel := by
    refine Parser.ne_outOfFuel_of_le ?_
    rw [Parser.fuel, List.length_append, List.length_singleton]
    dsimp only
    omega
  obtain ⟨d, hd, hid, hfaults⟩ := Parser.program_congr (Parser.matches_cursor _) hp hfuel
  have hsame : Cursor.SameButEnd ⟨tokens, 1, none, firstId, #[]⟩ ⟨tokens, 1, some line, firstId, #[]⟩ :=
    ⟨rfl, rfl, rfl, .nil⟩
  have hread := (Parser.assembled_program (Parser.fuel (tokens ++ [Token.eof line]))).plain.sameButEnd hsame
  rw [hd, hp'] at hread
  rw [heq, heq', ← hid, ← hfaults]
  cases hread with
  | done ss hc => exact ⟨rfl, hc.nextId, hc.faults⟩

/-- What stands behind an end token makes no difference. Without the end token a parse gives the same
statements, the same next id and the same faults, but that those at the end carry the line of the last token
and not that of the end token. -/
theorem ofTokens_without_eof (h : Lacks .eof tokens) (line : Nat) (more : List Token) (firstId : NodeId) :
    let ended := ofTokens (tokens ++ [Token.eof line]) firstId
    let bare := ofTokens tokens firstId
    ofTokens (tokens ++ [Token.eof line] ++ more) firstId = ended ∧
      bare.program = ended.program ∧ bare.nextId = ended.nextId ∧
      ended.faults = bare.faults.map (Diagnostic.endingAt line) ∧
      bare.faults =
        ended.faults.map (Diagnostic.endingAt ((tokens.getLast?.map Token.line).getD 1)) := by
  obtain ⟨hprogram, hid, hfaults⟩ := sameButEnd_eof h line firstId
  refine ⟨ofTokens_congr (start_append_eof h line more firstId), hprogram.symm, hid.symm, ?_, ?_⟩
  · refine Diagnostic.map_endingAt hfaults fun d hd hend => ?_
    rw [line_of_atEnd hd hend, endLine_eof h]
  · refine Diagnostic.map_endingAt (hfaults.flip.imp fun _ _ => Diagnostic.SameButEnd.symm) fun d hd hend => ?_
    rw [line_of_atEnd hd hend, endLine_of_lacks h]

/-- A lone `print` on line 3, with an end token on line 5 and without. -/
theorem ofTokens_without_eof_print :
    let print : Token := ⟨.kwPrint, "print", 3, none⟩
    Lacks .eof [print] ∧
      (ofTokens ([print] ++ [Token.eof 5] ++ [print]) 0).faults =
        [⟨5, .atEnd, .expected .expression⟩] ∧
      (ofTokens [print] 0).faults = [⟨3, .atEnd, .expected .expression⟩] := by
  intro print
  have hlacks : Lacks .eof [print] := by simp [print]
  obtain ⟨hmore, -, -, hended, -⟩ := ofTokens_without_eof hlacks 5 [print] 0
  have hfaults : (ofTokens [print] 0).faults = [⟨3, .atEnd, .expected .expression⟩] := by cbv
  rw [hfaults] at hended
  exact ⟨hlacks, by rw [hmore, hended]; rfl, hfaults⟩

end Parsed
end LoxLang
