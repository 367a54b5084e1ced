import Mathlib
import LoxLang.Proofs.Matching.Mended

/-!
What a program loses with one of its semicolons. The fault comes at the token behind the semicolon, all
statements before it stay, and reading goes on behind that token, not at it.
-/
namespace LoxLang

open Grammar

/-- The semicolon stands in the statement `s`, which goes on with `us` behind it. -/
structure Gap.Within (g : Gap) (pre us : List Token) (before : List Stmt) (s : Stmt)
    (after : List Stmt) : Prop where
  reads : ∃ ts ts', pre = ts ++ ts' ∧ Declarations True ts (Stmt.allBare before) ∧
    Declaration True (ts' ++ g.semicolon :: us) s.bare
  goesOn : ∃ us', g.rest = us ++ us' ∧ Declarations True us' (Stmt.allBare after)

namespace Parser

open Gap

variable {g : Gap}

theorem within_cons {ts pre us : List Token} {s₀ s : Stmt} {before after : List Stmt}
    (h : g.Within pre us before s after) (hs : Declaration True ts s₀.bare) :
    g.Within (ts ++ pre) us (s₀ :: before) s after where
  reads := by
    obtain ⟨vs, vs', rfl, hbefore, hstatement⟩ := h.reads
    exact ⟨ts ++ vs, vs', (List.append_assoc _ _ _).symm, .cons hs hbefore, hstatement⟩
  goesOn := h.goesOn

/-- Statements before the one that holds the semicolon stay; if it ends with the semicolon, it is lost, and
reading resumes behind the token at which the fault was found. -/
theorem program_torn {n : Nat} {c c' d' : Cursor} {ss ss' : List Stmt}
    (h : program n (g.whole c) = .done ss c') (hclean : c'.faults = c.faults)
    (htorn : program n (g.torn c) = .done ss' d') :
    ∃ us before s after what more, g.Within c.rest us before s after ∧ ss = before ++ s :: after ∧
      ss' = before ++ more ∧ c.faults.toList ++ [g.fault what] <+: d'.faults.toList ∧
      (us = [] → ∃ m, ∃ d : Cursor, d.rest = g.rest ∧ d.endLine = some g.endLine ∧ d.faults = c.faults ∧
        program m (d.record (g.fault what)).skipStatement = .done more d') := by
  induction n generalizing c ss ss' with
  | zero => cases h
  | succ n ih =>
    rw [program_succ, if_neg (by simp [whole, Cursor.extend])] at h
    obtain ⟨s?, c₁, hs, h⟩ := bind_eq_done h
    obtain ⟨after, _, hss, h⟩ := bind_eq_done h
    cases h
    have hsame : c₁.faults = c.faults :=
      (done_onward (assembledStatements n).declaration.plain hs).faults_eq (done_onward (assembled_program n).plain hss) hclean
    have hc : c.rest ≠ [] := fun hc => declaration_whole hc hs hsame
    rw [program_succ, if_neg (by simp [torn, Cursor.extend, hc])] at htorn
    obtain ⟨s?', d₁, hs', htorn⟩ := bind_eq_done htorn
    obtain ⟨more, _, hmore, h⟩ := bind_eq_done htorn
    cases h
    have hreads := (readsStatements n).declaration (g.whole c)
    rw [ReadsFrom, hs] at hreads
    obtain ⟨ts, hts, s, rfl, hderives⟩ := hreads.2 (congrArg Array.size hsame)
    -- Either the semicolon is still ahead, or it belongs to this declaration.
    rcases declaration_torn hs hsame hs' with ⟨d, rfl, hd, rfl, rfl⟩ | ⟨hle, what, hprefix, hends⟩
    · obtain ⟨us, before, s', after', what, more', hwithin, rfl, rfl, hprefix, hends⟩ :=
        ih hss (hclean.trans hd.symm) hmore
      have hboth : c.rest ++ g.semicolon :: g.rest = (ts ++ d.rest) ++ g.semicolon :: g.rest :=
        hts.trans (List.append_assoc _ _ _).symm
      have hpre : c.rest = ts ++ d.rest := List.append_cancel_right hboth
      refine ⟨us, s :: before, s', after', what, more', hpre ▸ within_cons hwithin hderives, rfl, rfl, ?_, ?_⟩
      · rwa [hd] at hprefix
      · rwa [hd] at hends
    · obtain ⟨us, rfl, hus⟩ := exists_behind hts hle
      have hreads' := reads_program n c₁
      rw [ReadsFrom, hss] at hreads'
      obtain ⟨us', hus', hend, hafter⟩ := hreads'.2 (congrArg Array.size (hclean.trans hsame.symm))
      rw [hend, List.append_nil] at hus'
      have hfaults := (done_onward (assembled_program n).plain hmore).faults
      refine ⟨us, [], s, after, what, s?'.toList ++ more, ⟨⟨[], c.rest, rfl, .nil, hderives⟩, ?_⟩, rfl, rfl,
        hprefix.trans hfaults, ?_⟩
      · exact ⟨us', hus' ▸ hus, hafter⟩
      · rintro rfl
        obtain ⟨rfl, d, hrest, hend, hd, rfl⟩ := hends hus.symm
        exact ⟨n, d, hrest, hend, hd, hmore⟩

end Parser

namespace Parsed

open LoxLang.Parser

variable {g : Gap} {pre : List Token}

theorem left_ne_eof : ∀ t ∈ g.left, t.kind ≠ .eof := fun t ht =>
  g.inside t ((Cursor.skipTokens_suffix g.rest g.endLine).subset ht)

theorem start_whole (hpre : ∀ t ∈ pre, t.kind ≠ .eof) (firstId : NodeId) :
    Cursor.start (pre ++ g.semicolon :: g.rest ++ [Token.eof g.endLine]) firstId =
      g.whole ⟨pre, 1, none, firstId, #[]⟩ := by
  refine start_eof (fun t ht => ?_) _ _
  rcases List.mem_append.mp ht with ht | ht
  · exact hpre t ht
  · rcases List.mem_cons.mp ht with rfl | ht
    · rw [g.isSemicolon]; decide
    · exact g.inside t ht

theorem start_torn (hpre : ∀ t ∈ pre, t.kind ≠ .eof) (firstId : NodeId) :
    Cursor.start (pre ++ g.rest ++ [Token.eof g.endLine]) firstId =
      g.torn ⟨pre, 1, none, firstId, #[]⟩ :=
  start_eof (fun t ht => (List.mem_append.mp ht).elim (hpre t) (g.inside t)) _ _

theorem skipStatement_record {d : Cursor} (what : Expectation) (hrest : d.rest = g.rest)
    (hend : d.endLine = some g.endLine) (hclean : d.faults = #[]) :
    ∃ line, (d.record (g.fault what)).skipStatement =
      Cursor.after #[g.fault what] ⟨g.left, line, some g.endLine, d.nextId, #[]⟩ := by
  have hleft : (Cursor.skipTokens g.rest d.line).1 = g.left := Cursor.skipTokens_line _ _ _
  refine ⟨(Cursor.skipTokens g.rest d.line).2, ?_⟩
  simp only [Cursor.skipStatement, Cursor.record, Cursor.after, hrest, hend, hclean, hleft]
  rfl

/-- After the fault what is left is read as if it stood alone. -/
theorem ofTokens_left {m : Nat} {d c' : Cursor} {more : List Stmt} {what : Expectation}
    (hrest : d.rest = g.rest) (hend : d.endLine = some g.endLine) (hclean : d.faults = #[])
    (h : Parser.program m (d.record (g.fault what)).skipStatement = .done more c') :
    (ofTokens (g.left ++ [Token.eof g.endLine]) d.nextId).program = more ∧
      c'.faults.toList =
        g.fault what :: (ofTokens (g.left ++ [Token.eof g.endLine]) d.nextId).faults := by
  obtain ⟨line, hresume⟩ := skipStatement_record what hrest hend hclean
  rw [hresume, (assembled_program m).plain.after] at h
  cases hm : Parser.program m ⟨g.left, line, some g.endLine, d.nextId, #[]⟩ with
  | outOfFuel | fault => rw [hm] at h; cases h
  | done more c₁ =>
    rw [hm] at h
    cases h
    have hmatches : Cursor.Matches (· = ·) 0 ⟨g.left, line, some g.endLine, d.nextId, #[]⟩
        (Cursor.start (g.left ++ [Token.eof g.endLine]) d.nextId) := by
      rw [start_eof left_ne_eof]
      exact { matches_cursor _ with line := nofun }
    obtain ⟨c₂, hprogram, -, hfaults⟩ := program_congr hmatches hm (program_ne_outOfFuel _ _)
    simp only [ofTokens, hprogram]
    exact ⟨trivial, by simp [Cursor.after, hfaults]⟩

theorem ofTokens_eof (line : Nat) (firstId : NodeId) :
    ofTokens [Token.eof line] firstId = ⟨[], [], firstId⟩ := by
  have hstart : Cursor.start [Token.eof line] firstId = ⟨[], 1, some line, firstId, #[]⟩ :=
    start_eof (List.forall_mem_nil _) line firstId
  have hprogram : Parser.program (fuel [Token.eof line]) ⟨[], 1, some line, firstId, #[]⟩ =
      .done [] ⟨[], 1, some line, firstId, #[]⟩ :=
    (program_succ 31 _).trans (if_pos rfl)
  rw [ofTokens, hstart, hprogram]

theorem declarations_nil {ss : List Stmt} (h : Declarations True [] (Stmt.allBare ss)) : ss = [] := by
  cases ss with
  | nil => rfl
  | cons s ss =>
    generalize hts : ([] : List Token) = ts at h
    cases h with
    | cons hs _ =>
      obtain ⟨t, us, rfl, -⟩ := hs.start
      cases hts

/-- All but the broken declaration and what is skipped behind it is read as if these were not there. -/
theorem ofTokens_mended {m : Nat} {firstId : NodeId} {ss : List Stmt} {c : Cursor}
    (hpre : ∀ t ∈ pre, t.kind ≠ .eof) (hm : 16 * (pre ++ g.rest).length + 12 ≤ m)
    (hwhole : Parser.program m (g.whole ⟨pre, 1, none, firstId, #[]⟩) = .done ss c)
    (hclean : c.faults = #[]) : ∃ kept what, g.Breaks pre kept ∧
      ((∀ t ∈ g.left.head?, t.kind ≠ .kwElse) →
        Stmt.AllMatch (· = ·) whatever (ofTokens (pre ++ g.rest ++ [Token.eof g.endLine]) firstId).program
            (ofTokens (kept ++ g.left ++ [Token.eof g.endLine]) firstId).program ∧
          (ofTokens (pre ++ g.rest ++ [Token.eof g.endLine]) firstId).faults =
            g.fault what :: (ofTokens (kept ++ g.left ++ [Token.eof g.endLine]) firstId).faults) := by
  have hfuel : Parser.program m (g.torn ⟨pre, 1, none, firstId, #[]⟩) ≠ .outOfFuel := ne_outOfFuel_of_le hm
  obtain ⟨kept, what, hbreaks, -, hmends⟩ := (Gap.mended_program hwhole hclean).resolve_left hfuel
  refine ⟨kept, what, hbreaks, fun helse => ?_⟩
  obtain ⟨k, hk⟩ := hmends helse
  obtain ⟨broken, s, rfl, -⟩ := hbreaks
  obtain ⟨ss', d, htorn, hparsed⟩ :=
    exists_program_ofTokens (kept ++ broken ++ g.rest ++ [Token.eof g.endLine]) firstId
  obtain ⟨ts, e, hkept, hparsed'⟩ := exists_program_ofTokens (kept ++ g.left ++ [Token.eof g.endLine]) firstId
  have hinside : ∀ t ∈ kept ++ g.left, t.kind ≠ .eof := fun t ht =>
    (List.mem_append.mp ht).elim (fun ht => hpre t (List.mem_append_left _ ht)) (left_ne_eof t)
  rw [start_torn hpre] at htorn
  rw [start_eof hinside] at hkept
  obtain ⟨d', htorn', -, hfaults⟩ := program_congr (matches_cursor _) htorn hfuel
  have hlength := (Cursor.skipTokens_suffix g.rest g.endLine).length_le
  have hfuel' : Parser.program m ⟨kept ++ g.left, 1, some g.endLine, firstId, #[]⟩ ≠ .outOfFuel := by
    refine ne_outOfFuel_of_le (Nat.le_trans ?_ hm)
    simp only [List.length_append, Gap.left]
    omega
  obtain ⟨e', hkept', -, hfaults'⟩ := program_congr (matches_cursor _) hkept hfuel'
  have hafter := (assembled_program m).plain.after #[g.fault what]
    ⟨kept ++ g.left, 1, some g.endLine, firstId, #[]⟩
  rw [hkept'] at hafter
  have hmended : g.mended ⟨kept ++ broken, 1, none, firstId, #[]⟩ kept what =
      Cursor.after #[g.fault what] ⟨kept ++ g.left, 1, some g.endLine, firstId, #[]⟩ := rfl
  rw [htorn', hmended, hafter] at hk
  rw [hparsed, hparsed']
  cases hk with
  | done hss hc =>
    refine ⟨hss, ?_⟩
    rw [← hfaults, Diagnostic.eq_of_allMatch hc.faults, ← hfaults']
    simp [Cursor.after]

/-- What a missing semicolon costs, before a statement, a closing brace or the end. The first fault is at
the token behind it, and all top-level statements before the one that holds it come back. If that one ends
with the semicolon, it is lost, and reading does not resume at the token behind the semicolon but after it:
what is left is read as if it stood alone. So a single fault and a single lost statement are certain at the
end only. Wherever the semicolon stands, the innermost declaration that ends with it is lost, and so are the
tokens that are skipped behind it. What stands around them is read, up to ids, as if they had not been there,
unless it goes on with an `else`; so a block whose brace is skipped stays open. -/
theorem ofTokens_without_semicolon (g : Gap) {pre : List Token} (firstId : NodeId)
    (hpre : ∀ t ∈ pre, t.kind ≠ .eof)
    (hclean : (ofTokens (pre ++ g.semicolon :: g.rest ++ [Token.eof g.endLine]) firstId).faults = []) :
    ∃ us before s after what more faults, g.Within pre us before s after ∧
      (ofTokens (pre ++ g.semicolon :: g.rest ++ [Token.eof g.endLine]) firstId).program =
        before ++ s :: after ∧
      (ofTokens (pre ++ g.rest ++ [Token.eof g.endLine]) firstId).program = before ++ more ∧
      (ofTokens (pre ++ g.rest ++ [Token.eof g.endLine]) firstId).faults = g.fault what :: faults ∧
      (us = [] → ∃ id, more = (ofTokens (g.left ++ [Token.eof g.endLine]) id).program ∧
        faults = (ofTokens (g.left ++ [Token.eof g.endLine]) id).faults) ∧
      (g.rest = [] → after = [] ∧ more = [] ∧ faults = []) ∧
      ∃ kept, g.Breaks pre kept ∧
        ((∀ t ∈ g.left.head?, t.kind ≠ .kwElse) →
          Stmt.AllMatch (· = ·) whatever (ofTokens (pre ++ g.rest ++ [Token.eof g.endLine]) firstId).program
              (ofTokens (kept ++ g.left ++ [Token.eof g.endLine]) firstId).program ∧
            faults = (ofTokens (kept ++ g.left ++ [Token.eof g.endLine]) firstId).faults) := by
  obtain ⟨ss, c, hwhole, hparsed⟩ :=
    exists_program_ofTokens (pre ++ g.semicolon :: g.rest ++ [Token.eof g.endLine]) firstId
  obtain ⟨ss', d, htorn, hparsed'⟩ :=
    exists_program_ofTokens (pre ++ g.rest ++ [Token.eof g.endLine]) firstId
  rw [start_whole hpre] at hwhole
  rw [start_torn hpre] at htorn
  rw [hparsed] at hclean ⊢
  have hm : 16 * (pre ++ g.rest).length + 12 ≤
      fuel (pre ++ g.semicolon :: g.rest ++ [Token.eof g.endLine]) := by
    simp only [fuel, List.length_append, List.length_cons, List.length_nil]
    omega
  obtain ⟨kept, what', hbreaks, hmended⟩ :=
    ofTokens_mended hpre hm hwhole (Array.toList_eq_nil_iff.mp hclean)
  rw [hparsed'] at hmended ⊢
  have hfuel : Parser.program (fuel (pre ++ g.semicolon :: g.rest ++ [Token.eof g.endLine]))
      (g.torn ⟨pre, 1, none, firstId, #[]⟩) ≠ .outOfFuel := ne_outOfFuel_of_le hm
  obtain ⟨d', htorn', -, hfaults⟩ := program_congr (matches_cursor _) htorn hfuel
  obtain ⟨us, before, s, after, what, more, hwithin, rfl, rfl, ⟨faults, hprefix⟩, hends⟩ :=
    program_torn hwhole (Array.toList_eq_nil_iff.mp hclean) htorn'
  rw [hfaults] at hprefix
  have hleft (hus : us = []) : ∃ id, more = (ofTokens (g.left ++ [Token.eof g.endLine]) id).program ∧
      faults = (ofTokens (g.left ++ [Token.eof g.endLine]) id).faults := by
    obtain ⟨m, d₁, hrest, hend, hd₁, hmore⟩ := hends hus
    obtain ⟨hprogram, hleft⟩ := ofTokens_left hrest hend hd₁ hmore
    rw [hfaults, ← hprefix] at hleft
    exact ⟨d₁.nextId, hprogram.symm, (List.cons.inj hleft).2⟩
  refine ⟨us, before, s, after, what, more, faults, hwithin, rfl, rfl, hprefix.symm, hleft, fun hrest => ?_,
    kept, hbreaks, fun helse => ?_⟩
  · obtain ⟨us', hus, hafter⟩ := hwithin.goesOn
    rw [hrest] at hus
    obtain ⟨rfl, rfl⟩ := List.append_eq_nil_iff.mp hus.symm
    obtain ⟨id, hmore, hnone⟩ := hleft rfl
    have hskipped : g.left = [] := by rw [Gap.left, hrest]; rfl
    rw [hskipped, List.nil_append, ofTokens_eof] at hmore hnone
    exact ⟨declarations_nil hafter, hmore, hnone⟩
  · obtain ⟨hprogram, hlater⟩ := hmended helse
    rw [← hprefix] at hlater
    exact ⟨hprogram, (List.cons.inj hlater).2⟩

/-- In a block the broken declaration and the next one are lost, and nothing else. -/
example :
    (ofSource "\x7b print true; print false print nil; \x7d print true;" 0).program =
        (ofSource "\x7b print true; \x7d print true;" 0).program ∧
      (ofSource "\x7b print true; print false print nil; \x7d print true;" 0).faults =
        [⟨1, .at "print", .expected .semicolonAfterValue⟩] := by
  constructor <;> cbv

/-- `print a; print b` without its last semicolon: one fault, one lost statement. -/
theorem ofTokens_without_semicolon_end :
    (ofTokens (tokensOf "print a; print b" ++ [⟨.semicolon, ";", 1, none⟩] ++ [Token.eof 1]) 0).faults = [] ∧
      ∃ what s, (ofTokens (tokensOf "print a; print b" ++ [Token.eof 1]) 0).faults =
          [⟨1, .atEnd, .expected what⟩] ∧
        (ofTokens (tokensOf "print a; print b" ++ [⟨.semicolon, ";", 1, none⟩] ++ [Token.eof 1]) 0).program =
          (ofTokens (tokensOf "print a; print b" ++ [Token.eof 1]) 0).program ++ [s] := by
  have hclean : (ofTokens (tokensOf "print a; print b" ++ [⟨.semicolon, ";", 1, none⟩] ++
      [Token.eof 1]) 0).faults = [] := by cbv
  obtain ⟨us, before, s, after, what, more, faults, -, hwhole, htorn, hfaults, -, hend, -⟩ :=
    ofTokens_without_semicolon ⟨⟨.semicolon, ";", 1, none⟩, [], 1, rfl, by simp, by simp⟩ 0
      (fun _ => kind_ne_eof_of_mem) hclean
  obtain ⟨rfl, rfl, rfl⟩ := hend rfl
  rw [List.append_nil] at htorn hfaults
  rw [List.append_nil] at htorn
  exact ⟨hclean, what, s, hfaults, by rw [hwhole, htorn]⟩

/-- With its first semicolon gone, `print true; print false;` loses both statements and not one: the second
`print`, where the fault is found, is not where reading resumes. -/
theorem print_without_semicolon :
    ofSource "print true; print false;" 0 =
        ⟨[.print 1 (.literal 1 (.bool true)), .print 1 (.literal 1 (.bool false))], [], 0⟩ ∧
      ofSource "print true print false;" 0 =
        ⟨[], [⟨1, .at "print", .expected .semicolonAfterValue⟩], 0⟩ := by
  constructor <;> cbv

end Parsed
end LoxLang
