import LoxLang.Proofs.Session.Concatenation

/-!
Programs that have one tree, up to lines and ids. The scope pass gives them the same distances or finds the
same faults, and they run alike.
-/
namespace LoxLang

namespace Scoping

/-- The scope pass looks at no lines, and ids only tell its entries apart. -/
theorem distances_of_allBare {ss ss' : List Stmt} (hbare : Stmt.allBare ss' = Stmt.allBare ss)
    (hpl : Stmt.AllPlaced ss) (hpl' : Stmt.AllPlaced ss') :
    (∃ faults faults', distances ss = .error faults ∧ distances ss' = .error faults' ∧
      List.Forall₂ (Diagnostic.Matches whatever) faults faults') ∨
    ∃ T T', distances ss = .ok T ∧ distances ss' = .ok T' ∧
      ((Stmt.allIds ss).Nodup → (Stmt.allIds ss').Nodup →
        Stmt.AllMatch whatever (fun id id' => T'[id']? = T[id]?) ss ss') := by
  have hmatch := Stmt.allMatch_of_allBare ss ss' hbare
  obtain ⟨T, T', hT, hT'⟩ | ⟨faults, faults', hf, hf', h⟩ := distances_matches hmatch
  · refine .inr ⟨T, T', hT, hT', fun hn hn' => ?_⟩
    have hscoped := scoped_of_distances hpl hn hT
    have hscoped' := scoped_of_distances hpl' hn' hT'
    exact hmatch.scoped (fun _ _ _ _ _ hid hid' => hid'.trans hid.symm) hscoped hscoped'
  · exact .inl ⟨faults, faults', hf, hf', h⟩

end Scoping

theorem Parsed.reject_of_distances {p : Parsed} {faults : List Diagnostic} (hf : p.faults = [])
    (hT : Scoping.distances p.program = .error faults) : p.accept = .error faults := by
  rw [accept, hf, hT]
  rfl

namespace Session

/-- Runs that come to the same up to lines: both end alike, or both programs are rejected with the same
faults. -/
inductive RunsAlike : Outcome × Session → Outcome × Session → Prop where
  | rejected {faults faults' : List Diagnostic} {s s' : Session} :
    List.Forall₂ (Diagnostic.Matches whatever) faults faults' → s'.machine = s.machine →
      RunsAlike (.rejected faults, s) (.rejected faults', s')
  | ended {r r' : Outcome × Session} : EndsAlike r r' → RunsAlike r r'

/-- Sources with one tree run alike, step by step. -/
theorem Sound.run_of_allBare {s : Session} (h : s.Sound) {a b : String}
    (hids : s.nextId.toNat + identifiers (scan a).tokens < UInt64.size)
    (hids' : s.nextId.toNat + identifiers (scan b).tokens < UInt64.size)
    (hclean : (Parsed.ofSource a s.nextId).faults = [])
    (hclean' : (Parsed.ofSource b s.nextId).faults = [])
    (hbare : Stmt.allBare (Parsed.ofSource b s.nextId).program =
      Stmt.allBare (Parsed.ofSource a s.nextId).program) (steps : Nat) :
    Option.Rel RunsAlike (s.run steps a) (s.run steps b) := by
  have hmatch := Stmt.allMatch_of_allBare _ _ hbare
  obtain ⟨T, T', hT, hT'⟩ | ⟨faults, faults', hf, hf', hfaults⟩ := Scoping.distances_matches hmatch
  · have ha := Parsed.accept_of_distances hclean hT
    have hb := Parsed.accept_of_distances hclean' hT'
    obtain ⟨hp, -⟩ := Parsed.numbered_ofSource hids
    obtain ⟨hp', -⟩ := Parsed.numbered_ofSource hids'
    have hself : s.Matches whatever s := h.matches_self (fun _ => trivial) (Nat.le_refl _)
    have hstart := hself.load (h.load hp ha) (h.load hp' hb) hp hp' ha hb (List.append_nil _).symm hmatch
    rw [run_of_accept ha, run_of_accept hb]
    exact rel_map (hstart.runFor steps) fun _ _ _ _ hend => .ended (endsAlike_ending hend)
  · rw [run_of_reject (Parsed.reject_of_distances hclean hf),
      run_of_reject (Parsed.reject_of_distances hclean' hf')]
    exact .some (.rejected hfaults rfl)

end Session
end LoxLang
