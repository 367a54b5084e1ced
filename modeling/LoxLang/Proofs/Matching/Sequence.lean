import Mathlib
import LoxLang.Proofs.Matching.Scan
import LoxLang.Proofs.Parse.Local
import LoxLang.Proofs.Parse.Sound
import LoxLang.Proofs.Parse.Complete

/-!
A source without faults and any other after it: the second is parsed as if it stood alone, on later lines
and with later ids.
-/
namespace LoxLang

namespace Parser

variable {n : Nat} {c c' : Cursor} {ss : List Stmt} {us : List Token}

theorem program_succ (n : Nat) (c : Cursor) : program (n + 1) c =
    if c.rest = [] then .done [] c else
      (declaration n >>= fun s? => (s?.toList ++ ·) <$> program n) c := by
  rw [program]
  cases hrest : c.rest <;> simp [Bind.bind, Parser.bind, atEnd, hrest]
  · rfl
  · rfl

theorem map_congr {α β : Type} {p q : Parser α} (h : p c = q c') (f : α → β) :
    (f <$> p) c = (f <$> q) c' := by
  simp only [Functor.map, Parser.bind, h]

/-- A loop over declarations, which goes on wherever a token is ahead that closes no block. -/
def Iterates (loop : Nat → Parser (List Stmt)) : Prop :=
  ∀ (n : Nat) (c : Cursor) (t : Token) (ts : List Token), c.rest = t :: ts → t.kind ≠ .rightBrace →
    loop (n + 1) c = (declaration n >>= fun s? => (s?.toList ++ ·) <$> loop n) c

theorem iterates_program : Iterates program := fun n c t ts hrest _ => by
  rw [program_succ, if_neg (by simp [hrest])]

/-- A program is read up to its end without a fault as it was, in any loop, then what follows it. -/
theorem Iterates.extend {loop : Nat → Parser (List Stmt)} (hloop : Iterates loop) (endLine : Option Nat)
    (helse : ∀ t ∈ us.head?, t.kind ≠ .kwElse) (h : program n c = .done ss c')
    (hclean : c'.faults.size = c.faults.size) :
    c'.rest = [] ∧ ∃ m, n ≤ m + c.rest.length ∧
      loop n (c.extend us endLine) = ((ss ++ ·) <$> loop m) (c'.extend us endLine) := by
  induction n generalizing c ss with
  | zero => cases h
  | succ n ih =>
    rw [program_succ] at h
    by_cases hend : c.rest = []
    · rw [if_pos hend] at h
      cases h
      exact ⟨hend, n + 1, by omega, by simp only [List.nil_append, id_map']⟩
    rw [if_neg hend] at h
    obtain ⟨s?, c₁, hs, hrest⟩ := bind_eq_done h
    obtain ⟨ss', _, hss, hpure⟩ := bind_eq_done hrest
    cases hpure
    have hreads := (readsStatements n).declaration c
    have hreads' := reads_program n c₁
    rw [ReadsFrom, hs] at hreads
    rw [ReadsFrom, hss] at hreads'
    obtain ⟨hle, hbuilt⟩ := hreads
    obtain ⟨hle', -⟩ := hreads'
    have hsame : c₁.faults.size = c.faults.size := by omega
    obtain ⟨ts, hts, s, rfl, hderives⟩ := hbuilt hsame
    obtain ⟨t, ts', rfl, hkind⟩ := hderives.start
    obtain ⟨hend', m, hm, hrest'⟩ := ih hss (hclean.trans hsame.symm)
    have hmore : (c.extend us endLine).rest = t :: (ts' ++ c₁.rest ++ us) := by
      simp [Cursor.extend, hts]
    have hbrace : t.kind ≠ .rightBrace := fun hbrace => by rw [hbrace] at hkind; revert hkind; decide
    have hlength := congrArg List.length hts
    rw [List.length_append, List.length_cons] at hlength
    refine ⟨hend', m, by omega, ?_⟩
    rw [hloop n _ _ _ hmore hbrace]
    have honward := done_onward (steady_declaration n).plain hs
    have hfaults : c.faults = c₁.faults := Array.toList_inj.mp (honward.faults.eq_of_length hsame.symm)
    rw [bind_of_done ((steady_declaration n).extend endLine helse hs hfaults.symm)]
    rw [map_congr hrest', Functor.map_map]
    simp only [List.append_assoc]

theorem program_extend (endLine : Option Nat) (helse : ∀ t ∈ us.head?, t.kind ≠ .kwElse)
    (h : program n c = .done ss c') (hclean : c'.faults.size = c.faults.size) :
    c'.rest = [] ∧ ∃ m, program n (c.extend us endLine) =
      ((ss ++ ·) <$> program m) (c'.extend us endLine) := by
  obtain ⟨hend, m, -, hm⟩ := iterates_program.extend endLine helse h hclean
  exact ⟨hend, m, hm⟩

theorem declaration_ne_fault (n : Nat) (c c' : Cursor) (d : Diagnostic) :
    declaration n c ≠ .fault d c' := by
  intro h
  cases n with
  | zero => rw [declaration] at h; cases h
  | succ n =>
    rw [declaration, recovering] at h
    split at h <;> cases h

/-- No fault ends a program. -/
theorem program_ne_fault (n : Nat) (c c' : Cursor) (d : Diagnostic) : program n c ≠ .fault d c' := by
  intro h
  induction n generalizing c with
  | zero => cases h
  | succ n ih =>
    rw [program_succ] at h
    split at h
    · cases h
    · simp only [Bind.bind, Parser.bind, Functor.map] at h
      cases hs : declaration n c with
      | outOfFuel => rw [hs] at h; cases h
      | fault d' c₁ => exact declaration_ne_fault n c c₁ d' hs
      | done s? c₁ =>
        rw [hs] at h
        dsimp only at h
        cases hss : program n c₁ with
        | outOfFuel => rw [hss] at h; cases h
        | fault d' c₂ => rw [hss] at h; cases h; exact ih c₁ hss
        | done => rw [hss] at h; cases h

theorem Shifted.zero {id id' : NodeId} : Shifted 0 id id' ↔ id = id' := by
  rw [Shifted, UInt64.add_zero, eq_comm]

theorem matches_cursor (c : Cursor) : c.Matches (· = ·) 0 c where
  rest := Token.matches_self (fun _ => rfl) c.rest
  line _ := rfl
  endLine := by cases c.endLine <;> constructor; rfl
  nextId := Shifted.zero.mpr rfl
  faults := List.forall₂_same.mpr fun d _ => .mk d.place d.cause rfl

/-- Fuel that lasts makes no difference, nor does a line that is never asked for. -/
theorem program_congr {m : Nat} {d : Cursor} (hc : c.Matches (· = ·) 0 d)
    (h : program n c = .done ss c') (hm : program m d ≠ .outOfFuel) :
    ∃ d', program m d = .done ss d' ∧ d'.nextId = c'.nextId ∧ d'.faults.toList = c'.faults.toList := by
  have hmatch := matches_program n m c d hc
  rw [h] at hmatch
  generalize program m d = r at hm hmatch
  cases hmatch with
  | outOfFuel' => exact absurd rfl hm
  | done hss hc =>
    obtain rfl := (hss.imp fun _ _ => Shifted.zero.mp).eq
    exact ⟨_, rfl, (Shifted.zero.mp hc.nextId).symm, (Diagnostic.eq_of_allMatch hc.faults).symm⟩

end Parser

namespace Parsed

theorem start_eof {tokens : List Token} (h : ∀ t ∈ tokens, t.kind ≠ .eof) (line : Nat)
    (firstId : NodeId) : Cursor.start (tokens ++ [Token.eof line]) firstId =
      ⟨tokens, 1, some line, firstId, #[]⟩ := by
  have hfind : tokens.find? (·.kind = .eof) = none :=
    List.find?_eq_none.mpr fun t ht => by simpa using h t ht
  rw [Cursor.start, takeWhile_before_eof h, List.find?_append, hfind]
  rfl

theorem start_scan (source : String) (firstId : NodeId) : Cursor.start (scan source).tokens firstId =
    ⟨tokensOf source, 1, some (1 + source.toList.count '\n'), firstId, #[]⟩ := by
  rw [scan_tokens, start_eof fun t => kind_ne_eof_of_mem]

/-- A parse is a run of the parser to its end. -/
theorem exists_program_ofTokens (tokens : List Token) (firstId : NodeId) :
    ∃ ss c, Parser.program (Parser.fuel tokens) (Cursor.start tokens firstId) = .done ss c ∧
      ofTokens tokens firstId = ⟨ss, c.faults.toList, c.nextId⟩ := by
  have hfuel := Parser.program_ne_outOfFuel tokens firstId
  have hfault := Parser.program_ne_fault (Parser.fuel tokens) (Cursor.start tokens firstId)
  cases h : Parser.program (Parser.fuel tokens) (Cursor.start tokens firstId) with
  | outOfFuel => exact absurd h hfuel
  | fault d c => exact absurd h (hfault c d)
  | done ss c => exact ⟨ss, c, rfl, by simp only [ofTokens, h]⟩

theorem exists_program_eq (source : String) (firstId : NodeId) :
    ∃ ss c, Parser.program (Parser.fuel (scan source).tokens)
        (Cursor.start (scan source).tokens firstId) = .done ss c ∧
      ofSource source firstId = ⟨ss, (scan source).faults ++ c.faults.toList, c.nextId⟩ := by
  obtain ⟨ss, c, h, heq⟩ := exists_program_ofTokens (scan source).tokens firstId
  refine ⟨ss, c, h, ?_⟩
  rw [ofSource, heq]

/-- Where a first source has been read without a fault, the cursor stands at the second one as at a start
of its own. -/
theorem matches_second {a b : String} {us : List Token} {c : Cursor} (firstId : NodeId)
    (hus : List.Forall₂ (Token.Matches (Shifted (1 + a.toList.count '\n'))) (tokensOf b) us)
    (hend : c.rest = []) (hclean : c.faults.toList = []) :
    (Cursor.start (scan b).tokens firstId).Matches (Shifted (1 + a.toList.count '\n'))
      (c.nextId - firstId) (c.extend us (some (1 + (a ++ "\n" ++ b).toList.count '\n'))) := by
  have hlines : (a ++ "\n" ++ b).toList.count '\n' =
      a.toList.count '\n' + 1 + b.toList.count '\n' := by
    simp [List.count_append]
    omega
  rw [start_scan]
  refine ⟨by rwa [Cursor.extend, hend], nofun, .some ?_, shifted_sub _ _, ?_⟩
  · rw [hlines, Shifted]
    omega
  · rw [Cursor.extend, hclean]
    exact .nil

theorem head?_ne_else {L : Nat → Nat → Prop} {ts us : List Token} {line : Nat}
    (hus : List.Forall₂ (Token.Matches L) ts us)
    (hts : ∀ t ∈ (ts ++ [Token.eof line]).head?, t.kind ≠ .kwElse) :
    ∀ t ∈ us.head?, t.kind ≠ .kwElse := by
  cases hus with
  | nil => nofun
  | cons ht _ =>
    rintro _ ⟨⟩
    exact ht.kind ▸ hts _ rfl

/-- Parsing is local to statements: after a source without faults, any other one that does not begin with
`else` is parsed as if it stood alone, on the lines after the first and with the ids after its ids. -/
theorem ofSource_newline (a b : String) (firstId : NodeId) (ha : (ofSource a firstId).faults = [])
    (hb : ∀ t ∈ (scan b).tokens.head?, t.kind ≠ .kwElse) :
    ∃ moved, (ofSource (a ++ "\n" ++ b) firstId).program = (ofSource a firstId).program ++ moved ∧
      Stmt.AllMatch (Shifted (1 + a.toList.count '\n'))
        (Shifted ((ofSource a firstId).nextId - firstId)) (ofSource b firstId).program moved ∧
      List.Forall₂ (Diagnostic.Matches (Shifted (1 + a.toList.count '\n')))
        (ofSource b firstId).faults (ofSource (a ++ "\n" ++ b) firstId).faults ∧
      Shifted ((ofSource a firstId).nextId - firstId) (ofSource b firstId).nextId
        (ofSource (a ++ "\n" ++ b) firstId).nextId := by
  obtain ⟨ss, cA, hA, heqA⟩ := exists_program_eq a firstId
  obtain ⟨ts, cB, hB, heqB⟩ := exists_program_eq b firstId
  obtain ⟨vs, cC, hC, heqC⟩ := exists_program_eq (a ++ "\n" ++ b) firstId
  rw [heqA] at ha
  obtain ⟨hscan, hparse⟩ := List.append_eq_nil_iff.mp ha
  obtain ⟨us, htokens, hus, hfaults⟩ := scan_newline_shifted hscan b
  rw [scan_tokens] at hb
  have helse : ∀ t ∈ us.head?, t.kind ≠ .kwElse := head?_ne_else hus hb
  have hstart : Cursor.start (scan (a ++ "\n" ++ b)).tokens firstId =
      (Cursor.start (scan a).tokens firstId).extend us
        (some (1 + (a ++ "\n" ++ b).toList.count '\n')) := by
    rw [start_scan, start_scan, htokens]
    rfl
  have hfuel : Parser.program (Parser.fuel (scan (a ++ "\n" ++ b)).tokens)
      (Cursor.start (scan a).tokens firstId) ≠ .outOfFuel := by
    refine Parser.ne_outOfFuel_of_le ?_
    rw [start_scan, Parser.fuel, scan_tokens, htokens]
    simp only [List.length_append, List.length_singleton]
    omega
  obtain ⟨cA', hA', hid, hclean⟩ := Parser.program_congr (Parser.matches_cursor _) hA hfuel
  rw [hparse] at hclean
  have hsize : cA'.faults.size = (Cursor.start (scan a).tokens firstId).faults.size := by
    rw [← Array.length_toList, hclean]
    rfl
  -- Behind the first source the parser goes on as the second one alone makes it.
  obtain ⟨hend, m, hm⟩ := Parser.program_extend _ helse hA' hsize
  rw [← hstart, hC] at hm
  obtain ⟨moved, _, hmoved, hpure⟩ := Parser.bind_eq_done hm.symm
  cases hpure
  have hmatch := Parser.matches_program (Parser.fuel (scan b).tokens) m _ _
    (matches_second firstId hus hend hclean)
  rw [hB, hmoved] at hmatch
  rw [heqA, heqB, heqC, ← hid]
  cases hmatch with
  | done hss hc => exact ⟨moved, rfl, hss, List.rel_append hfaults hc.faults, hc.nextId⟩

/-- A malformed source after a sound one: `print a;` and then `print b; )`. -/
theorem ofSource_newline_malformed :
    (ofSource "print a;" 0).faults = [] ∧ (∀ t ∈ (scan "print b; )").tokens.head?, t.kind ≠ .kwElse) ∧
      ∃ moved, (ofSource ("print a;" ++ "\n" ++ "print b; )") 0).program =
          (ofSource "print a;" 0).program ++ moved ∧
        Stmt.AllMatch (Shifted 1) (Shifted 1) [.print 1 (.reference 1 "b" 0)] moved := by
  have hparsed : ofSource "print a;" 0 = ⟨[.print 1 (.reference 1 "a" 0)], [], 1⟩ := by cbv
  have hsecond : (ofSource "print b; )" 0).program = [.print 1 (.reference 1 "b" 0)] := by cbv
  have ha : (ofSource "print a;" 0).faults = [] := by rw [hparsed]
  have hhead : (scan "print b; )").tokens.head?.map Token.kind = some .kwPrint := by cbv
  have hb : ∀ t ∈ (scan "print b; )").tokens.head?, t.kind ≠ .kwElse := by
    intro t ht hkind
    rw [Option.mem_def.mp ht, Option.map_some, hkind] at hhead
    cases hhead
  obtain ⟨moved, hprogram, hmoved, -⟩ := ofSource_newline "print a;" "print b; )" 0 ha hb
  rw [hsecond, hparsed] at hmoved
  exact ⟨ha, hb, moved, hprogram, hmoved⟩

end Parsed
end LoxLang
