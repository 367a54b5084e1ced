import Mathlib
import LoxLang.Proofs.Parse.ForLoop
import LoxLang.Proofs.Session.Bare

/-!
A `for` loop means the `while` loop that it stands for: in any program the one may be written for the other.
-/
namespace LoxLang

namespace Parsed

/-- Tokens that match are read alike, up to lines and ids. -/
theorem ofTokens_bare_of_matches {ts ts' : List Token}
    (h : List.Forall₂ (Token.Matches whatever) ts ts') (firstId firstId' : NodeId) :
    ((ofTokens ts firstId).faults = [] ↔ (ofTokens ts' firstId').faults = []) ∧
      Stmt.allBare (ofTokens ts' firstId').program = Stmt.allBare (ofTokens ts firstId).program := by
  obtain ⟨hprogram, hfaults⟩ := ofTokens_matches h trivial firstId firstId'
  refine ⟨⟨fun hnil => ?_, fun hnil => ?_⟩, hprogram.allBare⟩
  · rw [hnil] at hfaults
    exact List.forall₂_nil_left_iff.mp hfaults
  · rw [hnil] at hfaults
    exact List.forall₂_nil_right_iff.mp hfaults

end Parsed

namespace ForLoop

open Parsed

variable (f : ForLoop) (m m' : Delimiters)

/-- The loop is a program, and has the tree of its expansion. -/
theorem reads_alone (firstId firstId' : NodeId) :
    (ofTokens (f.tokens m) firstId).faults = [] ∧ (ofTokens (f.expansion m') firstId').faults = [] ∧
      Stmt.allBare (ofTokens (f.expansion m') firstId').program =
        Stmt.allBare (ofTokens (f.tokens m) firstId).program := by
  obtain ⟨isOpen, isOpen', s, hloop, hexpansion, -⟩ := f.exists_tree m m'
  have hone {ts : List Token} {o : Bool} (hts : Lacks .eof ts) (h : Grammar.Statement True o ts s) :
      Grammar.Declarations True (ts.takeWhile (·.kind ≠ .eof)) [s] := by
    rw [← readable, readable_eq_self.mpr hts]
    simpa using Grammar.Declarations.cons (.statement h) .nil
  obtain ⟨hclean, htree⟩ := faults_eq_nil_of_derives firstId (hone (f.lacks_eof_tokens m) hloop)
  obtain ⟨hclean', htree'⟩ :=
    faults_eq_nil_of_derives firstId' (hone (f.lacks_eof_expansion m') hexpansion)
  exact ⟨hclean, hclean', htree'.trans htree.symm⟩

section Placed
variable {before behind : List Token}

theorem identifiers_placed : identifiers (before ++ f.expansion m' ++ behind) =
    identifiers (before ++ f.tokens m ++ behind) := by
  simp only [identifiers_append, f.identifiers_expansion m m']

/-- In the source of a program with the loop, its expansion is written for it. -/
theorem exchange_source (hbehind : ∀ t ∈ behind.head?, t.kind ≠ .kwElse) {a b : String}
    {firstId : NodeId}
    (ha : List.Forall₂ (Token.Matches whatever) (before ++ f.tokens m ++ behind) (scan a).tokens)
    (hb : List.Forall₂ (Token.Matches whatever) (before ++ f.expansion m' ++ behind) (scan b).tokens)
    (hclean : (ofSource a firstId).faults = []) (hscan : (scan b).faults = []) :
    (ofSource b firstId).faults = [] ∧
      Stmt.allBare (ofSource b firstId).program = Stmt.allBare (ofSource a firstId).program := by
  obtain ⟨-, hparse⟩ := List.append_eq_nil_iff.mp hclean
  obtain ⟨hfaults, htree⟩ := ofTokens_bare_of_matches ha firstId firstId
  obtain ⟨hfaults', htree'⟩ := ofTokens_bare_of_matches hb firstId firstId
  obtain ⟨hnone, hexchange⟩ := exchange_forLoop f m m' hbehind (hfaults.mpr hparse) firstId
  refine ⟨List.append_eq_nil_iff.mpr ⟨hscan, hfaults'.mp hnone⟩, ?_⟩
  calc Stmt.allBare (ofTokens (scan b).tokens firstId).program
      = Stmt.allBare (ofTokens (before ++ f.expansion m' ++ behind) firstId).program := htree'
    _ = Stmt.allBare (ofTokens (before ++ f.tokens m ++ behind) firstId).program := hexchange
    _ = Stmt.allBare (ofTokens (scan a).tokens firstId).program := htree.symm

end Placed

/-- A `for` loop whose parts can each be read alone has the tree of the `while` loop that it stands for, up to
lines and ids. Where it stands in a program without faults and no `else` follows, that loop may be written for
it: the scope pass finds the same faults, or the same distance for every node, and in any session both sources
run alike. -/
theorem means_expansion :
    (∀ firstId firstId', (ofTokens (f.tokens m) firstId).faults = [] ∧
      (ofTokens (f.expansion m') firstId').faults = [] ∧
      Stmt.allBare (ofTokens (f.expansion m') firstId').program =
        Stmt.allBare (ofTokens (f.tokens m) firstId).program) ∧
    ∀ before behind : List Token, (∀ t ∈ behind.head?, t.kind ≠ .kwElse) →
      let placed := before ++ f.tokens m ++ behind
      let placed' := before ++ f.expansion m' ++ behind
      (∀ firstId firstId', (ofTokens placed firstId).faults = [] →
        let p := ofTokens placed firstId
        let p' := ofTokens placed' firstId'
        p'.faults = [] ∧ Stmt.allBare p'.program = Stmt.allBare p.program ∧
          ((∃ faults faults', Scoping.distances p.program = .error faults ∧
              Scoping.distances p'.program = .error faults' ∧
              List.Forall₂ (Diagnostic.Matches whatever) faults faults') ∨
            ∃ T T', Scoping.distances p.program = .ok T ∧ Scoping.distances p'.program = .ok T' ∧
              (identifiers placed ≤ UInt64.size →
                Stmt.AllMatch whatever (fun id id' => T'[id']? = T[id]?) p.program p'.program))) ∧
      ∀ (limit : Option Nat) (output : Output) (sources : List String) (s : Session) (a b : String),
        Session.Reached limit output sources s →
        Session.identifiersIn (sources ++ [a]) < UInt64.size →
        List.Forall₂ (Token.Matches whatever) placed (scan a).tokens →
        List.Forall₂ (Token.Matches whatever) placed' (scan b).tokens →
        (ofSource a s.nextId).faults = [] → (scan b).faults = [] →
          (ofSource b s.nextId).faults = [] ∧
            ∀ steps, Option.Rel Session.RunsAlike (s.run steps a) (s.run steps b) := by
  refine ⟨f.reads_alone m m', fun before behind hbehind => ⟨fun firstId firstId' hclean => ?_, ?_⟩⟩
  · obtain ⟨hclean', hbare⟩ := exchange_forLoop f m m' hbehind hclean firstId'
    refine ⟨hclean', hbare, ?_⟩
    have hscopes := Scoping.distances_of_allBare hbare (allPlaced_ofTokens _ firstId)
      (allPlaced_ofTokens _ firstId')
    refine hscopes.imp_right fun ⟨T, T', hT, hT', hnodes⟩ => ⟨T, T', hT, hT', fun hids => ?_⟩
    refine hnodes (nodup_ids_ofTokens firstId hids) (nodup_ids_ofTokens firstId' ?_)
    rwa [f.identifiers_placed m m']
  · intro limit output sources s a b hs hids ha hb hclean hscan
    rw [Session.identifiersIn_concat] at hids
    obtain ⟨hsound, hle⟩ := hs.sound (by omega)
    obtain ⟨hclean', hbare⟩ := f.exchange_source m m' hbehind ha hb hclean hscan
    have hidentifiers : identifiers (scan b).tokens = identifiers (scan a).tokens := by
      rw [identifiers_matches hb, identifiers_matches ha, f.identifiers_placed m m']
    exact ⟨hclean', hsound.run_of_allBare (by omega) (by omega) hclean hclean' hbare⟩

def plain : Delimiters where
  token kind _ := ⟨kind, match kind with
    | .kwFor => "for" | .kwWhile => "while" | .kwTrue => "true" | .leftParen => "(" | .rightParen => ")"
    | .leftBrace => "\x7b" | .rightBrace => "\x7d" | _ => ";", 1, none⟩
  kind_token _ _ := rfl

/-- `for (var i = "x"; i; i = nil) print i;` -/
def once : ForLoop where
  initializer := [⟨.kwVar, "var", 1, none⟩, ⟨.identifier, "i", 1, none⟩, ⟨.equal, "=", 1, none⟩,
    ⟨.string, "\"x\"", 1, some (.string "x")⟩, ⟨.semicolon, ";", 1, none⟩]
  condition := [⟨.identifier, "i", 1, none⟩]
  increment := [⟨.identifier, "i", 1, none⟩, ⟨.equal, "=", 1, none⟩, ⟨.kwNil, "nil", 1, none⟩]
  body := [⟨.kwPrint, "print", 1, none⟩, ⟨.identifier, "i", 1, none⟩, ⟨.semicolon, ";", 1, none⟩]
  reads_initializer := .inr ⟨_, ⟨rfl, rfl⟩, trivial⟩
  reads_condition := .inr ⟨20, _, _, rfl, rfl, rfl⟩
  reads_increment := .inr ⟨60, _, _, rfl, rfl, rfl⟩
  reads_body := ⟨_, ⟨rfl, rfl⟩, rfl⟩
  lacks_eof := by simp

theorem run_once : ((Session.start none (.empty none)).run 40
    "for (var i = \"x\"; i; i = nil) print i;").map (fun r => r.2.machine.output.textFrom 0) =
      some "x\n" := by cbv

/-- A loop that prints its variable and then clears it. -/
theorem means_expansion_once :
    let s : Session := .start none (.empty none)
    let a := "for (var i = \"x\"; i; i = nil) print i;"
    let b := "\x7b var i = \"x\"; while (i) \x7b print i; i = nil; \x7d \x7d"
    (ofTokens (once.expansion plain ++ [.eof 1]) 0).faults = [] ∧
      ∃ r r', s.run 40 a = some r ∧ s.run 40 b = some r' ∧
        r.2.machine.output.textFrom 0 = "x\n" ∧ Session.RunsAlike r r' := by
  intro s a b
  have hself (ts : List Token) : List.Forall₂ (Token.Matches whatever) ts ts :=
    List.forall₂_same.mpr fun _ _ => ⟨rfl, rfl, trivial, rfl⟩
  have ha : scan a = ⟨[] ++ once.tokens plain ++ [Token.eof 1], []⟩ := by cbv
  have hb : scan b = ⟨[] ++ once.expansion plain ++ [Token.eof 1], []⟩ := by cbv
  have hids : Session.identifiersIn ([] ++ [a]) < UInt64.size := by
    simp only [List.nil_append, Session.identifiersIn, ha]
    cbv
  have hclean : (ofSource a 0).faults = [] := by
    rw [ofSource, ha]
    cbv
  have hbehind : ∀ t ∈ [Token.eof 1].head?, t.kind ≠ .kwElse := by simp [Token.eof]
  obtain ⟨hread, hrun⟩ := (once.means_expansion plain plain).2 [] [.eof 1] hbehind
  refine ⟨(hread 0 0 (by simpa [ofSource, ha] using hclean)).1, ?_⟩
  have hrel := (hrun none (.empty none) [] s a b .start hids (by rw [ha]; exact hself _)
    (by rw [hb]; exact hself _) hclean (by rw [hb])).2 40
  obtain ⟨r, hr, htext⟩ := Option.map_eq_some_iff.mp run_once
  rw [show s.run 40 a = some r from hr] at hrel
  cases hr' : s.run 40 b with
  | none => rw [hr'] at hrel; cases hrel
  | some r' =>
    rw [hr'] at hrel
    exact ⟨r, r', hr, rfl, htext, Option.rel_some_some.mp hrel⟩

end ForLoop
end LoxLang
