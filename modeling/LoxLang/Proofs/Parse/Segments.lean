import Mathlib
import LoxLang.Proofs.Matching.Sequence
import LoxLang.Proofs.Parse.Stuck
import LoxLang.Proofs.Token.Lines

/-!
How declarations use up tokens. Each takes a segment of them, at least one token, and either builds a
statement or records a fault and gives up the segment. The loops over declarations so come to an end, with
every token in one segment.
-/
namespace LoxLang

structure Segment where
  tokens : List Token
  statement? : Option Stmt
  faults : List Diagnostic

/-- Reading may resume after a fault behind these tokens and before those. -/
def Boundary (behind ahead : List Token) : Prop :=
  (∃ t ∈ behind.getLast?, t.kind = .semicolon) ∨ ahead = [] ∨
    ∃ t ∈ ahead.head?, t.kind.startsStatement

theorem Boundary.append {behind ahead : List Token} (h : Boundary behind ahead) (before : List Token) :
    Boundary (before ++ behind) ahead := by
  refine h.imp_left fun ⟨t, ht, hkind⟩ => ⟨t, ?_, hkind⟩
  rw [List.getLast?_append, Option.mem_def.mp ht]
  rfl

theorem Cursor.skipTokens_boundary (ts : List Token) (line : Nat) :
    ∃ skipped, ts = skipped ++ (skipTokens ts line).1 ∧ Boundary skipped (skipTokens ts line).1 := by
  induction ts generalizing line with
  | nil => exact ⟨[], rfl, .inr (.inl rfl)⟩
  | cons t ts ih =>
    rw [skipTokens]
    split
    · next hstop =>
      refine ⟨[t], rfl, ?_⟩
      obtain hsemicolon | hkeyword := (Bool.or_eq_true _ _).mp hstop
      · exact .inl ⟨t, rfl, of_decide_eq_true hsemicolon⟩
      · obtain ⟨u, hu, hkind⟩ := (Option.any_eq_true _ _).mp hkeyword
        exact .inr (.inr ⟨u, hu, hkind⟩)
    · obtain ⟨skipped, hts, hboundary⟩ := ih t.line
      exact ⟨t :: skipped, congrArg (t :: ·) hts, hboundary.append [t]⟩

structure Segment.Spans (g : Segment) (c c' : Cursor) : Prop where
  declared : ∃ n, Parser.declaration n c = .done g.statement? c'
  tokens : c.rest = g.tokens ++ c'.rest
  faults : c'.faults.toList = c.faults.toList ++ g.faults
  progress : g.tokens ≠ []
  recovered : g.statement? = none → g.faults ≠ [] ∧ Boundary g.tokens c'.rest

inductive Segments : Cursor → List Segment → Cursor → Prop where
  | nil (c : Cursor) : Segments c [] c
  | cons {g : Segment} {gs : List Segment} {c c₁ c' : Cursor} :
    g.Spans c c₁ → Segments c₁ gs c' → Segments c (g :: gs) c'

namespace Segments

variable {c c' : Cursor} {gs front back : List Segment} {g : Segment}

theorem tokens (h : Segments c gs c') : c.rest = gs.flatMap (·.tokens) ++ c'.rest := by
  induction h with
  | nil => rfl
  | cons hg _ ih => rw [hg.tokens, ih, List.flatMap_cons, List.append_assoc]

theorem faults (h : Segments c gs c') : c'.faults.toList = c.faults.toList ++ gs.flatMap (·.faults) := by
  induction h with
  | nil => exact (List.append_nil _).symm
  | cons hg _ ih => rw [ih, hg.faults, List.flatMap_cons, List.append_assoc]

theorem progress (h : Segments c gs c') (hg : g ∈ gs) : g.tokens ≠ [] := by
  induction h with
  | nil => cases hg
  | cons hfirst _ ih =>
    obtain rfl | hg := List.mem_cons.mp hg
    · exact hfirst.progress
    · exact ih hg

theorem split (h : Segments c (front ++ g :: back) c') : ∃ c₁ c₂, g.Spans c₁ c₂ ∧ Segments c₂ back c' := by
  induction front generalizing c with
  | nil => cases h with | cons hg hgs => exact ⟨_, _, hg, hgs⟩
  | cons g' front ih => cases h with | cons _ hgs => exact ih hgs

end Segments

namespace Parser

/-- What a declaration does where a token is ahead. -/
theorem declaration_spans {n : Nat} {c : Cursor} (hn : 16 * c.rest.length + 11 ≤ n)
    (hrest : c.rest ≠ []) : ∃ g c', declaration n c = .done g.statement? c' ∧ Segment.Spans g c c' := by
  obtain ⟨s?, c', hdone, hlt⟩ := (endsStatements n).declaration hn c (Nat.le_refl _)
  have hpos : 0 < c.rest.length := List.length_pos_iff.mpr hrest
  have hprogress {tokens : List Token} (h : c.rest = tokens ++ c'.rest) : tokens ≠ [] := by
    rintro rfl
    rw [h, List.nil_append] at hlt hpos
    omega
  have honward := done_onward (assembledStatements n).declaration.plain hdone
  obtain ⟨⟨tokens, htokens⟩, ⟨faults, hfaults⟩, -⟩ := honward
  cases s? with
  | some s =>
    exact ⟨⟨tokens, some s, faults⟩, c', hdone, ⟨n, hdone⟩, htokens.symm, hfaults.symm,
      hprogress htokens.symm, nofun⟩
  | none =>
    obtain ⟨m, rfl⟩ : ∃ m, n = m + 1 := ⟨n - 1, by omega⟩
    refine ⟨⟨tokens, none, faults⟩, c', hdone, ⟨m + 1, hdone⟩, htokens.symm, hfaults.symm,
      hprogress htokens.symm, fun _ => ?_⟩
    have hdeclared := (assembled_declared m).composed.onward c
    rw [declaration_succ, recovering] at hdone
    cases hp : declared m c with
    | outOfFuel => rw [hp] at hdone; cases hdone
    | done s c₁ => rw [hp] at hdone; cases hdone
    | fault d c₁ =>
      rw [hp] at hdone hdeclared
      cases hdone
      obtain ⟨read, hread⟩ := hdeclared.rest
      obtain ⟨recorded, hrecorded⟩ := hdeclared.faults
      obtain ⟨skipped, hskipped, hboundary⟩ := Cursor.skipTokens_boundary c₁.rest c₁.line
      refine ⟨?_, ?_⟩
      · rintro rfl
        simp [Cursor.skipStatement, Cursor.record, ← hrecorded] at hfaults
      · have hall : read ++ skipped = tokens := by
          refine (List.append_left_inj (Cursor.skipTokens c₁.rest c₁.line).1).mp ?_
          rw [List.append_assoc, ← hskipped, hread]
          exact htokens.symm
        rw [← hall]
        exact hboundary.append read

theorem map_of_done {α β : Type} {p : Parser α} {a : α} {c c' : Cursor} (h : p c = .done a c')
    (f : α → β) : (f <$> p) c = .done (f a) c' := bind_of_done h

theorem toList_append_filterMap (g : Segment) (gs : List Segment) :
    g.statement?.toList ++ gs.filterMap (·.statement?) = (g :: gs).filterMap (·.statement?) := by
  cases hs : g.statement? <;> simp [hs]

section Block
variable {n : Nat} {c : Cursor} {t : Token} {rest : List Token}

theorem block_of_nil (h : c.rest = []) :
    block (n + 1) c = .fault (c.faultHere (.expected .braceAfterBlock)) c := by
  have hend : atEnd c = .done true c := by simp [atEnd, h]
  have hends : blockEnds c = .done true c := by
    rw [blockEnds, bind_of_done hend]
    rfl
  rw [block, bind_of_done hends]
  exact bind_of_fault (expect_eq_fault _ (by simp [h]))

theorem blockEnds_cons (h : c.rest = t :: rest) : blockEnds c = .done (t.kind = .rightBrace) c := by
  have hend : atEnd c = .done false c := by simp [atEnd, h]
  rw [blockEnds, bind_of_done hend]
  simp [nextIs, h]

theorem block_of_brace (h : c.rest = t :: rest) (ht : t.kind = .rightBrace) :
    block (n + 1) c = .done [] { c with rest, line := t.line } := by
  rw [block, bind_of_done (blockEnds_cons h)]
  simp [expect, accept?, take?, Bind.bind, Parser.bind, Pure.pure, Parser.pure, h, ht]

theorem block_of_declaration (h : c.rest = t :: rest) (ht : t.kind ≠ .rightBrace) :
    block (n + 1) c = (declaration n >>= fun s? => (s?.toList ++ ·) <$> block n) c := by
  rw [block, bind_of_done (blockEnds_cons h)]
  simp only [ht]
  rfl

theorem iterates_block : Iterates block := fun _ _ _ _ => block_of_declaration

end Block

theorem program_segments {n : Nat} {c : Cursor} (hn : 16 * c.rest.length + 12 ≤ n) :
    ∃ gs c', program n c = .done (gs.filterMap (·.statement?)) c' ∧ Segments c gs c' ∧ c'.rest = [] := by
  induction n generalizing c with
  | zero => omega
  | succ n ih =>
    rw [program_succ]
    by_cases hrest : c.rest = []
    · exact ⟨[], c, if_pos hrest, .nil c, hrest⟩
    obtain ⟨g, c₁, hdone, hg⟩ := declaration_spans (n := n) (by omega) hrest
    have hlength := congrArg List.length hg.tokens
    have hpos := List.length_pos_iff.mpr hg.progress
    rw [List.length_append] at hlength
    obtain ⟨gs, c', hprogram, hgs, hend⟩ := ih (c := c₁) (by omega)
    refine ⟨g :: gs, c', ?_, .cons hg hgs, hend⟩
    rw [if_neg hrest, bind_of_done hdone, map_of_done hprogram, toList_append_filterMap]

/-- The declarations of a block end before its brace, or where the tokens end for want of one. -/
theorem block_segments {n : Nat} {c : Cursor} (hn : 16 * c.rest.length + 12 ≤ n) :
    ∃ gs c', Segments c gs c' ∧
      (c'.rest = [] ∧ block n c = .fault (c'.faultHere (.expected .braceAfterBlock)) c' ∨
        ∃ brace rest, c'.rest = brace :: rest ∧ brace.kind = .rightBrace ∧
          block n c = .done (gs.filterMap (·.statement?)) { c' with rest, line := brace.line }) := by
  induction n generalizing c with
  | zero => omega
  | succ n ih =>
    cases hrest : c.rest with
    | nil => exact ⟨[], c, .nil c, .inl ⟨hrest, block_of_nil hrest⟩⟩
    | cons t rest =>
      by_cases ht : t.kind = .rightBrace
      · exact ⟨[], c, .nil c, .inr ⟨t, rest, hrest, ht, block_of_brace hrest ht⟩⟩
      obtain ⟨g, c₁, hdone, hg⟩ := declaration_spans (n := n) (c := c) (by omega) (by simp [hrest])
      have hlength := congrArg List.length hg.tokens
      have hpos := List.length_pos_iff.mpr hg.progress
      rw [List.length_append] at hlength
      obtain ⟨gs, c', hgs, hend⟩ := ih (c := c₁) (by omega)
      refine ⟨g :: gs, c', .cons hg hgs, ?_⟩
      rw [block_of_declaration hrest ht, bind_of_done hdone]
      obtain ⟨hnil, hfault⟩ | ⟨brace, rest', hbrace, hkind, hblock⟩ := hend
      · exact .inl ⟨hnil, bind_of_fault hfault⟩
      · refine .inr ⟨brace, rest', hbrace, hkind, ?_⟩
        rw [map_of_done hblock, toList_append_filterMap]

end Parser

namespace Parsed

/-- Parsing ends, and accounts for every token that is read: the tokens are cut into segments, none of them
empty, each of which is what one declaration takes; the statements are those of the segments, in order, and so
are the faults. A segment without a statement has a fault, and ends behind a semicolon, before the keyword of a
statement or where the tokens end. The declarations of a block take segments in the same way, up to its brace
or to the end. -/
theorem ofTokens_segments (tokens : List Token) (firstId : NodeId) :
    (∃ gs c, Parser.program (Parser.fuel tokens) (Cursor.start tokens firstId) =
        .done (gs.filterMap (·.statement?)) c ∧
      ofTokens tokens firstId = ⟨gs.filterMap (·.statement?), gs.flatMap (·.faults), c.nextId⟩ ∧
      Segments (Cursor.start tokens firstId) gs c ∧
      gs.flatMap (·.tokens) = readable tokens ∧ (∀ g ∈ gs, g.tokens ≠ []) ∧
      ∀ front g back, gs = front ++ g :: back → g.statement? = none →
        g.faults ≠ [] ∧ Boundary g.tokens (back.flatMap (·.tokens))) ∧
    ∀ (extra : Nat) (c : Cursor),
      ∃ gs c', Segments c gs c' ∧ (∀ g ∈ gs, g.tokens ≠ []) ∧
        (c'.rest = [] ∧ Parser.block (16 * c.rest.length + 12 + extra) c =
            .fault (c'.faultHere (.expected .braceAfterBlock)) c' ∨
          ∃ brace rest, c'.rest = brace :: rest ∧ brace.kind = .rightBrace ∧
            Parser.block (16 * c.rest.length + 12 + extra) c =
              .done (gs.filterMap (·.statement?)) { c' with rest, line := brace.line }) := by
  refine ⟨?_, fun extra c => ?_⟩
  · have hfuel : 16 * (Cursor.start tokens firstId).rest.length + 12 ≤ Parser.fuel tokens := by
      have := (List.takeWhile_sublist (l := tokens) (·.kind ≠ .eof)).length_le
      simp only [Cursor.start, Parser.fuel]
      omega
    obtain ⟨gs, c, hprogram, hgs, hend⟩ := Parser.program_segments hfuel
    have htokens := hgs.tokens
    rw [hend, List.append_nil] at htokens
    refine ⟨gs, c, hprogram, ?_, hgs, htokens.symm, fun g => hgs.progress, ?_⟩
    · rw [ofTokens, hprogram]
      simp only [hgs.faults, Cursor.start, List.nil_append]
    · rintro front g back rfl hnone
      obtain ⟨c₁, c₂, hg, hback⟩ := hgs.split
      obtain ⟨hfaults, hboundary⟩ := hg.recovered hnone
      rw [hback.tokens, hend, List.append_nil] at hboundary
      exact ⟨hfaults, hboundary⟩
  · obtain ⟨gs, c', hgs, hend⟩ := Parser.block_segments (Nat.le_add_right (16 * c.rest.length + 12) extra)
    exact ⟨gs, c', hgs, fun g => hgs.progress, hend⟩

end Parsed
end LoxLang
