import Mathlib
import LoxLang.Proofs.Matching.Concatenation

/-!
Sources run one after another, and run as one. The run of both begins as that of the first does, comes to
the end of the first program, and goes on as the run of the second does.
-/
namespace LoxLang

def Value.bare : Value → Value
  | .function f => .function { f with body := Stmt.allBare f.body }
  | v => v

def Outcome.bare : Outcome → Outcome
  | .failed e => .failed { e with line := 0 }
  | o => o

theorem Value.Matches.bare {L : Nat → Nat → Prop} {N : NodeId → NodeId → Prop} {v v' : Value}
    (h : v.Matches L N v') : v'.bare = v.bare := by
  cases h with
  | same => rfl
  | function identity name params closure hb => rw [Value.bare, hb.allBare, Value.bare]

namespace Session

/-- Runs that come to the same, except for lines and ids: every scope is as in the other session. -/
structure EndsAlike (r r' : Outcome × Session) : Prop where
  outcome : r'.1.bare = r.1.bare
  output : r'.2.machine.output = r.2.machine.output
  read : ∀ id name, (r'.2.machine.store.read? id name).map Value.bare =
    (r.2.machine.store.read? id name).map Value.bare
  enclosing : ∀ id, r'.2.machine.store.enclosing? id = r.2.machine.store.enclosing? id

theorem endsAlike_ending {L : Nat → Nat → Prop} {N : NodeId → NodeId → Prop} {k k' : NodeId}
    {r r' : Signal × Machine} (h : Config.EndMatches L N r r') : EndsAlike (ending k r) (ending k' r') := by
  obtain ⟨signal, m⟩ := r
  obtain ⟨signal', m'⟩ := r'
  obtain ⟨hsignal, st', T', hmachine, hstore, -⟩ := h
  obtain rfl : m' = m.beside st' T' := hmachine
  have hread (id : ScopeId) (name : Name) :
      (st'.read? id name).map Value.bare = (m.store.read? id name).map Value.bare := by
    have hv := hstore.read id name
    dsimp only at hv
    generalize m.store.read? id name = v? at hv
    generalize st'.read? id name = v?' at hv
    cases hv with
    | none => rfl
    | some hv => exact congrArg some hv.bare
  cases hsignal with
  | failed cause => exact ⟨rfl, rfl, hread, hstore.enclosing⟩
  | _ => exact ⟨rfl, rfl, hread, hstore.enclosing⟩

variable {s t : Session} {a b : String} {x y : Accepted}

/-- A run that completes is the run of an accepted program, up to its end. -/
theorem exists_of_run_completed {n : Nat} (h : s.run n a = some (.completed, t)) :
    ∃ x signal, (Parsed.ofSource a s.nextId).accept = .ok x ∧
      (s.load x).runFor .byDistance n = some (signal, t.machine) ∧ (∀ e, signal ≠ .failed e) ∧
      t.nextId = (Parsed.ofSource a s.nextId).nextId := by
  cases hx : (Parsed.ofSource a s.nextId).accept with
  | error faults => rw [run_of_reject hx] at h; cases h
  | ok x =>
    rw [run_of_accept hx] at h
    obtain ⟨⟨signal, m⟩, hrun, hend⟩ := Option.map_eq_some_iff.mp h
    cases signal <;> cases hend <;> exact ⟨x, _, rfl, hrun, nofun, rfl⟩

/-- At the end of the first program the run of both goes on as that of the second does. -/
theorem reaches_second {n : Nat} {z : Accepted} {ss ts : List Stmt} {p p' : Parsed} {signal : Signal}
    {m : Machine} (hs : s.Sound) (hx : s.Loaded p.nextId x) (hz : s.Loaded p'.nextId z)
    (hp : p.Numbered s.nextId) (hp' : p'.Numbered s.nextId) (hpx : p.accept = .ok x)
    (hpz : p'.accept = .ok z) (hsplit : z.program = ss ++ ts)
    (hss : Stmt.AllMatch whatever whatever x.program ss)
    (hrun : (s.load x).runFor .byDistance n = some (signal, m)) (hsignal : ∀ e, signal ≠ .failed e) :
    ∃ k ≤ n, ∃ st', (Config.step .byDistance)^[k] (s.load z) =
        ⟨.program ts, [], m.beside st' (s.load z).machine.distances⟩ ∧
      m.store.Matches whatever (SameDistance m.distances (s.load z).machine.distances p.nextId.toNat
        p'.nextId.toNat) st' := by
  have hself : s.Matches whatever s := hs.matches_self (fun _ => trivial) (Nat.le_refl _)
  have hstart := hself.load hx hz hp hp' hpx hpz hsplit hss
  obtain ⟨k, hk, hend, hbefore⟩ := hx.config.reaches_end Locator.finds_byDistance hrun hsignal nofun
  have hmatch := hstart.iterate fun i hi hcontrol => absurd hcontrol (hbefore i hi)
  have htable := Config.iterate_distances .byDistance k (s.load z)
  refine ⟨k, Nat.le_of_lt hk, ?_⟩
  rw [hend] at hmatch
  generalize (Config.step .byDistance)^[k] (s.load z) = c at hmatch htable ⊢
  rw [← Config.distances_of_runFor hrun] at hmatch
  obtain ⟨⟨hstore, -⟩, hframes, hcontrol⟩ := hmatch
  cases hframes
  cases hcontrol with
  | program hnil =>
    cases hnil
    obtain rfl : _ = (s.load z).machine.distances := htable
    exact ⟨_, rfl, hstore⟩

/-- There the second program runs beside itself. -/
theorem load_matches {T' : Distances} {st' : Store} {ts : List Stmt} {p : Parsed} {k : Nat}
    (ht : t.Loaded p.nextId y) (hp : p.Numbered t.nextId) (hpy : p.accept = .ok y)
    (hstore : t.machine.store.Matches whatever
      (SameDistance t.machine.distances T' t.nextId.toNat k) st')
    (hscoped : Stmt.AllScoped (Filed T' k) [] ts)
    (hts : Stmt.AllMatch whatever whatever y.program ts) :
    Config.Matches whatever (SameDistance (t.load y).machine.distances T' p.nextId.toNat k) []
      (t.load y) ⟨.program ts, [], t.machine.beside st' T'⟩ := by
  obtain ⟨W, -, -, hscopedy, -⟩ := ht.config
  have hgrown := hstore.imp fun id id' (hid : SameDistance _ _ _ _ id id') =>
    hid.grow (fun _ => distances_load_of_lt hp hpy) (fun _ _ => rfl) hp.le (Nat.le_refl k)
  have hcontrol : Control.Matches whatever (SameDistance (t.load y).machine.distances T' _ k) []
      (.program y.program) (.program (ts ++ [])) := .program (hts.sameDistance hscopedy hscoped)
  rw [List.append_nil] at hcontrol
  exact .intro ⟨hgrown, fun _ _ hid => hid.distance⟩ .nil hcontrol

/-- Two sources with a line break between them do what they do one after another, once the first one
completes and the second one is not rejected. They take as many steps to end as the second one, on top of
those to the end of the first. -/
theorem run_newline {limit : Option Nat} {output : Output} {sources : List String} {n : Nat}
    (h : Reached limit output sources s) (hids : identifiersIn (sources ++ [a, b]) < UInt64.size)
    (ha : s.run n a = some (.completed, t))
    (hb : ∀ i faults t', t.run i b ≠ some (.rejected faults, t')) :
    ∃ k ≤ n, ∀ i, Option.Rel EndsAlike (t.run i b) (s.run (k + i) (a ++ "\n" ++ b)) := by
  rw [identifiersIn_append, identifiersIn, identifiersIn, identifiersIn, Nat.add_zero] at hids
  obtain ⟨hs, hle⟩ := h.sound (by omega)
  obtain ⟨ht, hle'⟩ := hs.run (by omega) ha
  obtain ⟨x, signal, hx, hrun, hsignal, hnext⟩ := exists_of_run_completed ha
  obtain ⟨y, hy⟩ : ∃ y, (Parsed.ofSource b t.nextId).accept = .ok y := by
    cases hy : (Parsed.ofSource b t.nextId).accept with
    | error faults => exact absurd (run_of_reject hy 0) (hb 0 faults _)
    | ok y => exact ⟨y, rfl⟩
  obtain ⟨z, ss, ts, hz, hsplit, hss, hts⟩ := Parsed.accept_newline hx hy s.nextId
  have hids' := identifiers_newline (Parsed.derives_of_accept hx).1 (Parsed.derives_of_accept hy).1
  have hpx : (Parsed.ofSource a s.nextId).Numbered s.nextId := (Parsed.numbered_ofSource (by omega)).1
  have hpy : (Parsed.ofSource b t.nextId).Numbered t.nextId := (Parsed.numbered_ofSource (by omega)).1
  have hpz : (Parsed.ofSource (a ++ "\n" ++ b) s.nextId).Numbered s.nextId :=
    (Parsed.numbered_ofSource (by omega)).1
  have hloaded := hs.load hpz hz
  -- The first program runs beside itself, up to its end.
  obtain ⟨k, hk, st', hend, hstore⟩ := reaches_second hs (hs.load hpx hx) hloaded hpx hpz hx hz hsplit hss
    hrun hsignal
  refine ⟨k, hk, fun i => ?_⟩
  rw [run_of_accept hy, run_of_accept hz, Config.runFor_iterate, hend]
  -- What is left of both is scoped, so its nodes have the distances of the second program's.
  have hscoped := hloaded.config.iterate Locator.finds_byDistance k
  rw [hend] at hscoped
  obtain ⟨W, -, -, hscoped, -⟩ := hscoped
  rw [← hnext] at hstore
  have hmatch := load_matches (ht.load hpy hy) hpy hy hstore hscoped hts
  exact rel_map (hmatch.runFor i) fun _ _ _ _ => endsAlike_ending

/-- A function of the first source is called from the second one. -/
theorem run_newline_call :
    let s : Session := start none (.empty none)
    let a := "var a = \"x\"; fun f() \x7b return a; \x7d"
    ∃ t, s.run 20 a = some (.completed, t) ∧
      ∃ k r, s.run (k + 20) (a ++ "\n" ++ "print f();") = some r ∧
        r.1.bare = .completed ∧ r.2.machine.output.textFrom 0 = "x\n" := by
  intro s a
  let b := "print f();"
  have hfirst : (s.run 20 a).map (fun r => r.1.exitCode) = some 0 := by cbv
  have hsecond : (s.run 20 a).bind (fun r =>
      (r.2.run 20 b).map fun q => (q.1.exitCode, q.2.machine.output.textFrom 0)) = some (0, "x\n") := by
    cbv
  have hids : identifiersIn ([] ++ [a, b]) < UInt64.size := by cbv
  obtain ⟨⟨o, t⟩, ht, ho⟩ := Option.map_eq_some_iff.mp hfirst
  obtain rfl : o = .completed := by cases o <;> first | rfl | cases ho
  rw [ht] at hsecond
  obtain ⟨⟨o, u⟩, hu, ho⟩ := Option.map_eq_some_iff.mp hsecond
  obtain ⟨ho, hout⟩ := Prod.mk.inj ho
  obtain rfl : o = .completed := by cases o <;> first | rfl | cases ho
  have hb (i : Nat) (faults : List Diagnostic) (t' : Session) :
      t.run i b ≠ some (.rejected faults, t') := by
    cases hy : (Parsed.ofSource b t.nextId).accept with
    | error faults => rw [run_of_reject hy] at hu; cases hu
    | ok y => exact run_ne_rejected hy i faults t'
  obtain ⟨k, -, hrel⟩ := run_newline .start hids ht hb
  have h := hrel 20
  rw [hu] at h
  cases hr : s.run (k + 20) (a ++ "\n" ++ b) with
  | none => rw [hr] at h; cases h
  | some r =>
    rw [hr] at h
    obtain ⟨houtcome, houtput, -, -⟩ := Option.rel_some_some.mp h
    exact ⟨t, ht, k, r, hr, houtcome, by rw [houtput]; exact hout⟩

end Session
end LoxLang
