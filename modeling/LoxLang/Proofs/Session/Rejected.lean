import Mathlib
import LoxLang.Proofs.Matching.Session

/-!
Rejected sources. One uses up ids and changes nothing else, so that the sessions with and without it
match, and go on to match.
-/
namespace LoxLang
namespace Session

variable {s t : Session}

/-- The outcome of each of these sources, run one after another, and the output so far. The list ends
before a source that takes more steps. -/
def results (steps : Nat) (s : Session) : List String → List (Outcome × Output)
  | [] => []
  | source :: sources =>
    match s.run steps source with
    | none => []
    | some (o, s') => (o, s'.machine.output) :: s'.results steps sources

/-- Sessions that match give the same results. -/
theorem Matches.results {sources : List String} (h : s.Matches (· = ·) t) (hs : s.Sound)
    (ht : t.Sound) (hids : s.nextId.toNat + identifiersIn sources < UInt64.size)
    (hids' : t.nextId.toNat + identifiersIn sources < UInt64.size) (steps : Nat) :
    t.results steps sources = s.results steps sources := by
  induction sources generalizing s t with
  | nil => rfl
  | cons source sources ih =>
    rw [identifiersIn] at hids hids'
    have hrun : Option.Rel RunsMatch (s.run steps source) (t.run steps source) :=
      h.run hs ht (by omega) (by omega) steps
    unfold Session.results
    generalize hr : s.run steps source = r at hrun
    generalize hr' : t.run steps source = r' at hrun
    cases hrun with
    | none => rfl
    | @some r r' h =>
      obtain ⟨o, s'⟩ := r
      obtain ⟨o', t'⟩ := r'
      obtain ⟨rfl, houtput, hmatch⟩ := h
      obtain ⟨hs', hle⟩ := hs.run (by omega) hr
      obtain ⟨ht', hle'⟩ := ht.run (by omega) hr'
      exact congrArg₂ _ (congrArg _ houtput) (ih hmatch hs' ht' (by omega) (by omega))

/-- Whenever a run rejects its source, it changes only the next id. -/
theorem eq_of_run_rejected {source : String} {steps : Nat} {faults : List Diagnostic} {s' : Session}
    (h : s.run steps source = some (.rejected faults, s')) :
    s' = { s with nextId := (Parsed.ofSource source s.nextId).nextId } := by
  cases ha : (Parsed.ofSource source s.nextId).accept with
  | error faults' => rw [run_of_reject ha] at h; cases h; rfl
  | ok a => exact absurd h (run_ne_rejected ha steps faults s')

/-- A rejected source leaves the machine as it is, and all later sources come out as without it. -/
theorem rejected_leaves_no_trace {limit : Option Nat} {output : Output} {sources later : List String}
    {source : String} {steps : Nat} {faults : List Diagnostic} {s' : Session}
    (h : Reached limit output sources s)
    (hids : identifiersIn (sources ++ source :: later) < UInt64.size)
    (hr : s.run steps source = some (.rejected faults, s')) :
    s'.machine = s.machine ∧ ∀ n, s'.results n later = s.results n later := by
  rw [identifiersIn_append, identifiersIn] at hids
  obtain ⟨hs, hle⟩ := h.sound (by omega)
  obtain ⟨hs', hle'⟩ := hs.run (by omega) hr
  have hp : (Parsed.ofSource source s.nextId).Numbered s.nextId :=
    (Parsed.numbered_ofSource (by omega)).1
  have heq := eq_of_run_rejected hr
  have hmatch : s.Matches (· = ·) s' := heq ▸ hs.matches_self (fun _ => rfl) hp.le
  exact ⟨by rw [heq], hmatch.results hs hs' (by omega) (by omega)⟩

/-- A missing semicolon, then a program with a local variable. -/
theorem rejected_leaves_no_trace_semicolon :
    let s : Session := start none (.empty none)
    let s' : Session := ⟨s.machine, 1⟩
    s.run 0 "print a" = some (.rejected [⟨1, .atEnd, .expected .semicolonAfterValue⟩], s') ∧
      (s'.results 30 ["\x7b var a = \"x\"; print a; \x7d"]).map
        (fun r => (r.1.exitCode, r.2.textFrom 0)) = [(0, "x\n")] := by
  intro s s'
  have hrun : s.run 0 "print a" =
      some (.rejected [⟨1, .atEnd, .expected .semicolonAfterValue⟩], s') := by cbv
  have hids : identifiersIn ["print a", "\x7b var a = \"x\"; print a; \x7d"] < UInt64.size := by cbv
  obtain ⟨-, hsame⟩ := rejected_leaves_no_trace .start hids hrun
  refine ⟨hrun, ?_⟩
  rw [hsame]
  cbv

end Session
end LoxLang
