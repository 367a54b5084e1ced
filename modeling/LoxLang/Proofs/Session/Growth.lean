import Mathlib
import LoxLang.Proofs.Machine.Rooted
import LoxLang.Proofs.Session.Runs

/-!
How the scopes of a session grow. At all its machines the links of all scopes lead to the globals, and from
one of them to a later one no scope, no link and no name is lost.
-/
namespace LoxLang
namespace Session

/-- The machine once these sources have been run, or at a moment in the run of the last of them. -/
inductive At (limit : Option Nat) (output : Output) (sources : List String) : Machine → Prop where
  | between {s : Session} : Reached limit output sources s → At limit output sources s.machine
  | during {c : Config} : Moment limit output sources c → At limit output sources c.machine

/-- From one machine of a session to a later one: in the run of a source, at its end, or after more sources. -/
inductive Later (limit : Option Nat) (output : Output) :
    List String → Machine → List String → Machine → Prop where
  | steps {sources : List String} {c : Config} (n : Nat) :
    Moment limit output sources c →
      Later limit output sources c.machine sources ((Config.step .byDistance)^[n] c).machine
  | ended {sources : List String} {c : Config} {s : Session} :
    Moment limit output sources c → Reached limit output sources s →
      Later limit output sources c.machine sources s.machine
  | sources {sources more : List String} {m m' : Machine} :
    At limit output sources m → more ≠ [] → At limit output (sources ++ more) m' →
      Later limit output sources m (sources ++ more) m'

variable {limit : Option Nat} {output : Output} {sources more later : List String} {source : String}
  {n : Nat} {o : Outcome} {s s' : Session} {m m' : Machine} {a : Accepted} {c : Config}

section Rooted

structure Grounded (s : Session) : Prop where
  store : s.machine.store.Rooted
  current : s.machine.current < s.machine.store.next

theorem grounded_start (limit : Option Nat) (output : Output) : (start limit output).Grounded where
  store := by
    refine ⟨Nat.one_pos, ?_, fun id hid _ => Nat.lt_one_iff.mp hid, fun id name f hf => ?_⟩
    · have hempty : Store.empty.Nested := fun id outer ho => by simp [Store.enclosing?, Store.empty] at ho
      exact hempty.alloc (by simp)
    · rw [start, Machine.read?_start] at hf
      cases hf
  current := Nat.one_pos

theorem Grounded.load (h : s.Grounded) (a : Accepted) : (s.load a).Rooted where
  store := h.store
  scopes id hid := by
    obtain rfl : id = s.machine.current := List.mem_singleton.mp hid
    exact h.current
  values f hf := by cases hf

theorem fits_load (s : Session) (a : Accepted) : (s.load a).Fits .statement := by
  rintro _ ⟨⟩
  rfl

theorem Grounded.run (h : s.Grounded) (hr : s.run n source = some (o, s')) : s'.Grounded := by
  cases ha : (Parsed.ofSource source s.nextId).accept with
  | error faults =>
    have hsame := machine_of_run_reject ha hr
    exact ⟨hsame ▸ h.store, by rw [hsame]; exact h.current⟩
  | ok a =>
    obtain ⟨signal, m, hend, hm⟩ := machine_of_run_accept ha hr
    have hroot := (s.fits_load a).iterate_rooted .byDistance (h.load a) n
    rw [hend] at hroot
    rcases hm with hm | hm
    · exact ⟨hm ▸ hroot.store, by rw [hm]; exact hroot.current⟩
    · exact ⟨hm ▸ hroot.store, by rw [hm]; exact hroot.store.nonempty⟩

theorem Reached.grounded (h : Reached limit output sources s) : s.Grounded := by
  induction h with
  | start => exact grounded_start limit output
  | run _ hr ih => exact ih.run hr

theorem Moment.rooted (h : Moment limit output sources c) : c.Fits .statement ∧ c.Rooted := by
  induction h with
  | load hs => exact ⟨fits_load _ _, hs.grounded.load _⟩
  | step _ ih => exact ⟨ih.1.step, ih.1.step_rooted ih.2⟩

theorem At.rooted (h : At limit output sources m) : m.store.Rooted := by
  cases h with
  | between hs => exact hs.grounded.store
  | during hc => exact hc.rooted.2.store

end Rooted

section Growth

theorem run_growsTo (hr : s.run n source = some (o, s')) :
    s.machine.store.GrowsTo s'.machine.store := by
  cases ha : (Parsed.ofSource source s.nextId).accept with
  | error faults =>
    rw [machine_of_run_reject ha hr]
    exact .refl _
  | ok a =>
    obtain ⟨signal, m, hend, hm⟩ := machine_of_run_accept ha hr
    have hgrows := Config.iterate_growsTo .byDistance n (s.load a)
    rw [hend] at hgrows
    rcases hm with hm | hm <;> exact hm ▸ hgrows

theorem Reached.growsTo (h : Reached limit output sources s)
    (h' : Reached limit output (sources ++ more) s') : s.machine.store.GrowsTo s'.machine.store := by
  induction more using List.reverseRecOn generalizing s' with
  | nil =>
    rw [List.append_nil] at h'
    cases h.unique h'
    exact .refl _
  | append_singleton more last ih =>
    rw [← List.append_assoc] at h'
    obtain ⟨n, o, t, ht, hr⟩ := h'.of_concat
    exact (ih ht).trans (run_growsTo hr)

/-- The run that a moment is of ends in a store that has grown. -/
theorem Moment.growsTo_reached (h : Moment limit output sources c)
    (hs : Reached limit output sources s') : c.machine.store.GrowsTo s'.machine.store := by
  obtain ⟨earlier, source, s, a, k, rfl, hbefore, ha, rfl⟩ := h.exists_iterate
  obtain ⟨n, o, t, ht, hr⟩ := hs.of_concat
  cases ht.unique hbefore
  obtain ⟨signal, m, hend, hm⟩ := machine_of_run_accept ha hr
  have hgrows : ((Config.step .byDistance)^[k] (s.load a)).machine.store.GrowsTo m.store := by
    rcases Nat.le_total k n with hle | hle
    · obtain ⟨d, rfl⟩ := Nat.exists_eq_add_of_le' hle
      rw [Function.iterate_add_apply] at hend
      have h := Config.iterate_growsTo .byDistance d ((Config.step .byDistance)^[k] (s.load a))
      rwa [hend] at h
    · -- Behind the end nothing happens.
      obtain ⟨d, rfl⟩ := Nat.exists_eq_add_of_le' hle
      rw [Function.iterate_add_apply, hend, Function.iterate_fixed rfl]
      exact .refl _
  rcases hm with hm | hm <;> exact hm ▸ hgrows

theorem Moment.of_append (h : Moment limit output (sources ++ more) c) (hmore : more ≠ []) :
    ∃ before source s a k, more = before ++ [source] ∧ Reached limit output (sources ++ before) s ∧
      c = (Config.step .byDistance)^[k] (s.load a) := by
  obtain ⟨earlier, source, s, a, k, hsources, hs, -, hc⟩ := h.exists_iterate
  obtain ⟨before, last, rfl⟩ := more.eq_nil_or_concat'.resolve_left hmore
  rw [← List.append_assoc] at hsources
  obtain ⟨rfl, -⟩ := List.append_inj' hsources rfl
  exact ⟨before, last, s, a, k, rfl, hs, hc⟩

theorem Reached.growsTo_at (h : Reached limit output sources s) (hmore : more ≠ [])
    (h' : At limit output (sources ++ more) m') : s.machine.store.GrowsTo m'.store := by
  cases h' with
  | between hs' => exact h.growsTo hs'
  | during hc =>
    obtain ⟨before, source, t, a, k, -, ht, rfl⟩ := hc.of_append hmore
    exact (h.growsTo ht).trans (Config.iterate_growsTo .byDistance k (t.load a))

theorem Reached.of_append (h : Reached limit output (sources ++ more) s') :
    ∃ s, Reached limit output sources s := by
  induction more using List.reverseRecOn generalizing s' with
  | nil => exact ⟨s', by rwa [List.append_nil] at h⟩
  | append_singleton more last ih =>
    rw [← List.append_assoc] at h
    obtain ⟨n, o, t, ht, -⟩ := h.of_concat
    exact ih ht

theorem At.exists_reached (h : At limit output (sources ++ more) m') (hmore : more ≠ []) :
    ∃ s, Reached limit output sources s := by
  cases h with
  | between hs => exact hs.of_append
  | during hc =>
    obtain ⟨before, source, t, a, k, -, ht, -⟩ := hc.of_append hmore
    exact ht.of_append

theorem Later.growsTo (h : Later limit output sources m later m') : m.store.GrowsTo m'.store := by
  cases h with
  | steps n hc => exact Config.iterate_growsTo .byDistance n _
  | ended hc hs => exact hc.growsTo_reached hs
  | sources hm hmore hm' =>
    obtain ⟨s, hs⟩ := hm'.exists_reached hmore
    have hgrows := hs.growsTo_at hmore hm'
    cases hm with
    | between ht => cases hs.unique ht; exact hgrows
    | during hc => exact (hc.growsTo_reached hs).trans hgrows

end Growth

/-- A bound global is found, and only a reference with a distance on file can miss its variable. -/
theorem Moment.exists_distance_of_raises (h : Moment limit output sources c) {name : Name} {line : Nat}
    (hbound : (c.machine.store.read? globals name).isSome)
    (hr : c.Raises .byDistance ⟨.undefinedVariable name, line⟩) :
    ∃ id d, c.LooksUp line name id ∧ c.machine.distances[id]? = some d ∧
      c.machine.store.holderAt? c.machine.current d name = none := by
  obtain ⟨id, hl, hnone⟩ := Config.looksUp_of_raises hr Locator.finds_byDistance
  have hroot := h.rooted.2.store
  cases hd : c.machine.distances[id]? with
  | some d => exact ⟨id, d, hl, hd, by rwa [Locator.byDistance_some hd] at hnone⟩
  | none =>
    rw [Locator.byDistance_none hd, Store.holder?_globals hroot.nonempty hroot.enclosing_globals,
      if_pos hbound] at hnone
    cases hnone

/-- At every machine of a session the links of each scope lead to the globals, where they end, so that a search
outward comes to an end, with what `holder?` gives; and functions in variables keep scopes that are there. At
every later machine all scopes are there, with the same links and with all names they had. So a global that is
bound once is never undefined later, neither for a reference to it nor, as long as ids do not wrap around, for
any other of its name. -/
theorem scopes_only_grow (h : At limit output sources m) :
    (∀ id < m.store.next,
      (∃ n, m.store.ancestor? id n = some globals ∧ ∀ d, (m.store.ancestor? id d).isSome ↔ d ≤ n) ∧
        ∀ name, m.store.Search name id (m.store.holder? id name)) ∧
    (∀ id name f, m.store.read? id name = some (.function f) → f.closure < m.store.next) ∧
    ∀ later m', Later limit output sources m later m' →
      m.store.GrowsTo m'.store ∧
        ∀ name, (m.store.read? globals name).isSome →
          ∀ c line, Moment limit output later c → c.machine = m' →
            (c.Raises .byDistance ⟨.undefinedVariable name, line⟩ →
              ∃ id d, c.LooksUp line name id ∧ c.machine.distances[id]? = some d) ∧
            (identifiersIn later < UInt64.size →
              ¬c.Raises .byDistance ⟨.undefinedVariable name, line⟩) := by
  have hroot := h.rooted
  refine ⟨fun id hid => ⟨hroot.exists_links hid, hroot.nested.search_holder? hid⟩, hroot.closures,
    fun later m' hlater => ⟨hlater.growsTo, ?_⟩⟩
  rintro name hname c line hc rfl
  have hbound := hlater.growsTo.bound globals name hname
  refine ⟨fun hr => ?_, fun hids hr => ?_⟩
  · obtain ⟨id, d, hl, hd, -⟩ := hc.exists_distance_of_raises hbound hr
    exact ⟨id, d, hl, hd⟩
  · obtain ⟨id, d, hl, hd, hnone⟩ := hc.exists_distance_of_raises hbound hr
    obtain ⟨k, hscoped⟩ := hc.scoped hids
    obtain ⟨a, ha⟩ := hscoped.holderAt?_of_looksUp (fun _ _ _ hf => hf.1) hl hd
    rw [ha] at hnone
    cases hnone

/-- A source that fails after it has declared a global, and a function that reads it in the next one. -/
theorem scopes_only_grow_failed :
    let failing := "var a; -a;"
    let source := "fun f() \x7b return a; \x7d f();"
    ∃ m c, At none (.empty none) [failing] m ∧ (m.store.read? globals "a").isSome ∧
      Moment none (.empty none) [failing, source] c ∧ c.LooksUp 1 "a" 1 ∧
        m.store.GrowsTo c.machine.store ∧ ¬c.Raises .byDistance ⟨.undefinedVariable "a", 1⟩ ∧
        m.store.Search "a" globals (some globals) := by
  intro failing source
  let a : Accepted := ⟨[.var 1 "a" none, .expression 1 (.unary 1 .negate (.reference 1 "a" 0))], ∅⟩
  let b : Accepted :=
    ⟨[.function 1 "f" [] [.result 1 (some (.reference 1 "a" 1))],
      .expression 1 (.call 1 (.reference 1 "f" 2) [])], ∅⟩
  have hparsed : Parsed.ofSource failing 0 = ⟨a.program, [], 1⟩ := by cbv
  have hparsed' : Parsed.ofSource source 1 = ⟨b.program, [], 3⟩ := by cbv
  have haccept : (Parsed.ofSource failing 0).accept = .ok a := by rw [hparsed]; rfl
  have haccept' : (Parsed.ofSource source 1).accept = .ok b := by rw [hparsed']; rfl
  let s₀ : Session := start none (.empty none)
  let s : Session := ⟨⟨⟨#[⟨⟨[("a", .nil)]⟩, none⟩]⟩, globals, ∅, .empty none, 0, none, 0⟩, 1⟩
  have hfails : (s₀.load a).runFor .byDistance 20 =
      some (.failed ⟨.operandNotNumber, 1⟩, s.machine) := rfl
  have hrun : s₀.run 20 failing = some (.failed ⟨.operandNotNumber, 1⟩, s) := by
    rw [run_of_accept (s := s₀) haccept, hfails, show Parsed.ofSource failing s₀.nextId = _ from hparsed]
    rfl
  let c := (Config.step .byDistance)^[11] (s.load b)
  have hs : Reached none (.empty none) [failing] s := .run .start hrun
  have hc : Moment none (.empty none) [failing, source] c := (Moment.load (s := s) hs haccept').iterate 11
  have hlook : c.LooksUp 1 "a" 1 := .reference 1 "a" 1 c.frames c.machine
  have hbound : (s.machine.store.read? globals "a").isSome := rfl
  have hids : identifiersIn [failing, source] < UInt64.size := by cbv
  obtain ⟨hlinks, -, hlater⟩ := scopes_only_grow (.between hs)
  have hpath : Later none (.empty none) [failing] s.machine [failing, source] c.machine :=
    .sources (.between hs) (List.cons_ne_nil source []) (.during hc)
  obtain ⟨hgrows, hnever⟩ := hlater _ _ hpath
  exact ⟨_, c, .between hs, hbound, hc, hlook, hgrows, (hnever "a" hbound c 1 hc rfl).2 hids,
    (hlinks globals (by decide)).2 "a"⟩

end Session
end LoxLang
