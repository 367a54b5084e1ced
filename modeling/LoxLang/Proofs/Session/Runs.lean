import LoxLang.Proofs.Matching.Session

/-!
Runs of sources. More steps keep what a run comes to, so its sources alone determine a session.
-/
namespace LoxLang
namespace Session

variable {limit : Option Nat} {output : Output} {sources : List String} {source : String} {m n : Nat}
  {o : Outcome} {s s' : Session} {r r' : Outcome × Session} {c : Config}

theorem run_le (hle : m ≤ n) (h : s.run m source = some r) : s.run n source = some r := by
  cases ha : (Parsed.ofSource source s.nextId).accept with
  | error faults => rwa [run_of_reject ha] at h ⊢
  | ok a =>
    rw [run_of_accept ha] at h ⊢
    obtain ⟨q, hq, hend⟩ := Option.map_eq_some_iff.mp h
    exact Option.map_eq_some_iff.mpr ⟨q, Config.runFor_le hle hq, hend⟩

theorem run_unique (h : s.run m source = some r) (h' : s.run n source = some r') : r = r' :=
  Option.some_inj.mp ((run_le (Nat.le_max_left m n) h).symm.trans (run_le (Nat.le_max_right m n) h'))

/-- The run of an accepted program leaves the machine as it is where the program ends. -/
theorem machine_of_run_accept {a : Accepted} (ha : (Parsed.ofSource source s.nextId).accept = .ok a)
    (h : s.run n source = some (o, s')) :
    ∃ signal m, (Config.step .byDistance)^[n] (s.load a) = ⟨.done signal, [], m⟩ ∧
      (s'.machine = m ∨ s'.machine = m.reset) := by
  rw [run_of_accept ha] at h
  obtain ⟨⟨signal, m⟩, hrun, hend⟩ := Option.map_eq_some_iff.mp h
  refine ⟨signal, m, Config.runFor_eq_some.mp hrun, ?_⟩
  cases signal with
  | failed e => cases hend; exact .inr rfl
  | _ => cases hend; exact .inl rfl

theorem machine_of_run_reject {faults : List Diagnostic}
    (ha : (Parsed.ofSource source s.nextId).accept = .error faults)
    (h : s.run n source = some (o, s')) : s'.machine = s.machine := by
  rw [run_of_reject ha] at h
  cases h
  rfl

/-- The last source was run in the session that the others had led to. -/
theorem Reached.of_concat (h : Reached limit output (sources ++ [source]) s') :
    ∃ n o s, Reached limit output sources s ∧ s.run n source = some (o, s') := by
  generalize hall : sources ++ [source] = all at h
  cases h with
  | start => exact absurd hall (by simp)
  | @run earlier last n o s _ hs hr =>
    obtain ⟨rfl, hlast⟩ := List.append_inj' hall rfl
    obtain rfl := List.singleton_inj.mp hlast
    exact ⟨n, o, s, hs, hr⟩

theorem Reached.unique (h : Reached limit output sources s) (h' : Reached limit output sources s') :
    s = s' := by
  induction h generalizing s' with
  | start =>
    generalize hall : ([] : List String) = all at h'
    cases h' with
    | start => rfl
    | run => exact absurd hall (by simp)
  | run _ hr ih =>
    obtain ⟨n, o, t, ht, hr'⟩ := h'.of_concat
    cases ih ht
    exact congrArg Prod.snd (run_unique hr hr')

/-- A moment is so many steps behind where an accepted program began. -/
theorem Moment.exists_iterate (h : Moment limit output sources c) :
    ∃ earlier source s a k, sources = earlier ++ [source] ∧ Reached limit output earlier s ∧
      (Parsed.ofSource source s.nextId).accept = .ok a ∧
        c = (Config.step .byDistance)^[k] (s.load a) := by
  induction h with
  | @load earlier source s a hs ha => exact ⟨earlier, source, s, a, 0, rfl, hs, ha, rfl⟩
  | step _ ih =>
    obtain ⟨earlier, source, s, a, k, hsources, hs, ha, rfl⟩ := ih
    exact ⟨earlier, source, s, a, k + 1, hsources, hs, ha,
      (Function.iterate_succ_apply' (Config.step .byDistance) k (s.load a)).symm⟩

end Session
end LoxLang
