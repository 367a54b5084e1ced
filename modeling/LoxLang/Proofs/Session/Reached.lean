import LoxLang.Session
import LoxLang.Proofs.Parse.Numbering
import LoxLang.Proofs.Machine.Lookup
import LoxLang.Proofs.Machine.Run

/-!
Sessions and all their moments. While the ids of a session do not wrap around, every moment of it is a
scoped configuration whose nodes have the distances of their layers on file.
-/
namespace LoxLang

def Filed (T : Distances) (k : Nat) (ls : Layers) (name : Name) (id : NodeId) : Prop :=
  Bound T ls name id ∧ id.toNat < k

namespace Session

/-- The session after these sources, whatever came of each. -/
inductive Reached (limit : Option Nat) (output : Output) : List String → Session → Prop where
  | start : Reached limit output [] (.start limit output)
  | run {sources : List String} {source : String} {steps : Nat} {o : Outcome} {s s' : Session} :
    Reached limit output sources s → s.run steps source = some (o, s') →
      Reached limit output (sources ++ [source]) s'

def load (s : Session) (a : Accepted) : Config :=
  ⟨.program a.program, [], s.machine.addDistances a.distances⟩

inductive Moment (limit : Option Nat) (output : Output) : List String → Config → Prop where
  | load {sources : List String} {source : String} {s : Session} {a : Accepted} :
    Reached limit output sources s → (Parsed.ofSource source s.nextId).accept = .ok a →
      Moment limit output (sources ++ [source]) (s.load a)
  | step {sources : List String} {c : Config} :
    Moment limit output sources c → Moment limit output sources (c.step .byDistance)

theorem Moment.iterate {limit : Option Nat} {output : Output} {sources : List String} {c : Config}
    (h : Moment limit output sources c) (n : Nat) :
    Moment limit output sources ((Config.step .byDistance)^[n] c) := by
  induction n generalizing c with
  | zero => exact h
  | succ n ih => exact ih h.step

def identifiersIn : List String → Nat
  | [] => 0
  | source :: sources => identifiers (scan source).tokens + identifiersIn sources

theorem identifiersIn_append (sources later : List String) :
    identifiersIn (sources ++ later) = identifiersIn sources + identifiersIn later := by
  induction sources with
  | nil => exact (Nat.zero_add _).symm
  | cons s sources ih => rw [List.cons_append, identifiersIn, identifiersIn, ih, Nat.add_assoc]

theorem identifiersIn_concat (sources : List String) (source : String) :
    identifiersIn (sources ++ [source]) =
      identifiersIn sources + identifiers (scan source).tokens :=
  identifiersIn_append sources [source]

structure Sound (s : Session) : Prop where
  store : ∃ W, s.machine.store.Scoped (Filed s.machine.distances s.nextId.toNat) W
  current : s.machine.current = globals
  free : ∀ id : NodeId, s.nextId.toNat ≤ id.toNat → s.machine.distances[id]? = none

theorem sound_start (limit : Option Nat) (output : Output) : (start limit output).Sound where
  store := ⟨_, Machine.scoped_start _ limit output⟩
  current := rfl
  free _ _ := by simp [start, Machine.start]

end Session

theorem Parsed.accept_eq_ok {p : Parsed} {a : Accepted} (h : p.accept = .ok a) :
    a.program = p.program ∧ Scoping.distances p.program = .ok a.distances := by
  unfold accept at h
  split at h
  · cases hd : Scoping.distances p.program with
    | error faults => rw [hd] at h; cases h
    | ok T => rw [hd] at h; cases h; exact ⟨rfl, rfl⟩
  · cases h

structure Parsed.Numbered (p : Parsed) (firstId : NodeId) : Prop where
  le : firstId.toNat ≤ p.nextId.toNat
  ids : ∀ id ∈ Stmt.allIds p.program, firstId.toNat ≤ id.toNat ∧ id.toNat < p.nextId.toNat
  nodup : (Stmt.allIds p.program).Nodup
  placed : Stmt.AllPlaced p.program

/-- So it is for every source whose ids do not wrap around. -/
theorem Parsed.numbered_ofSource {source : String} {firstId : NodeId}
    (h : firstId.toNat + identifiers (scan source).tokens < UInt64.size) :
    (ofSource source firstId).Numbered firstId ∧
      (ofSource source firstId).nextId.toNat ≤
        firstId.toNat + identifiers (scan source).tokens := by
  obtain ⟨n, hn, hnext, hsub⟩ := ids_ofTokens (scan source).tokens firstId
  have hlt : firstId.toNat + n < UInt64.size := by omega
  have hnext' : (ofSource source firstId).nextId.toNat = firstId.toNat + n := by
    have : (ofSource source firstId).nextId = firstId + UInt64.ofNat n := hnext
    rw [this, UInt64.toNat_add, UInt64.toNat_ofNat_of_lt' (by omega), Nat.mod_eq_of_lt hlt]
  refine ⟨⟨by omega, fun id hid => ?_, nodup_ids_ofTokens firstId (by omega),
    allPlaced_ofTokens _ firstId⟩, by omega⟩
  rw [hnext']
  exact toNat_of_mem_idsFrom (hsub.subset hid) (by omega)

namespace Session

structure Loaded (s : Session) (nextId : NodeId) (a : Accepted) : Prop where
  config : (s.load a).Scoped (Filed (s.load a).machine.distances nextId.toNat)
  free : ∀ id : NodeId, nextId.toNat ≤ id.toNat → (s.load a).machine.distances[id]? = none

/-- Any accepted tree whose ids are new to the session may run in it. -/
theorem Sound.scoped_load {s : Session} {a : Accepted} (h : s.Sound)
    (hnew : ∀ id ∈ Stmt.allIds a.program, s.nextId.toNat ≤ id.toNat)
    (hplaced : Stmt.AllPlaced a.program) (hnodup : (Stmt.allIds a.program).Nodup)
    (hT : Scoping.distances a.program = .ok a.distances) :
    (s.load a).Scoped fun ls name id => Bound (s.load a).machine.distances ls name id ∧
      (id ∈ Stmt.allIds a.program ∨ id.toNat < s.nextId.toNat) := by
  obtain ⟨W, hstore⟩ := h.store
  refine ⟨W, hstore.imp ?_, h.current, ?_, rfl⟩
  · rintro ls name id ⟨hb, hlt⟩
    have hnot : id ∉ Stmt.allIds a.program := fun hi => Nat.not_le_of_lt hlt (hnew id hi)
    refine ⟨?_, .inr hlt⟩
    rw [Bound, Session.load, Machine.getElem?_addDistances, Scoping.mem_allIds_of_distances hT hnot,
      Option.none_or]
    exact hb
  · refine (Scoping.scoped_of_distances hplaced hnodup hT).imp _ fun ls name id hid hb => ?_
    refine ⟨?_, .inl hid⟩
    rw [Bound, Session.load, Machine.getElem?_addDistances, h.free id (hnew id hid), Option.or_none]
    exact hb

theorem Sound.load {s : Session} {p : Parsed} {a : Accepted} (h : s.Sound)
    (hp : p.Numbered s.nextId) (ha : p.accept = .ok a) : s.Loaded p.nextId a := by
  obtain ⟨hprogram, hT⟩ := Parsed.accept_eq_ok ha
  rw [← hprogram] at hT
  have hids := hprogram ▸ hp.ids
  have hle := hp.le
  have hfiled : ∀ (ls : Layers) (name : Name) (id : NodeId),
      Bound (s.load a).machine.distances ls name id ∧
        (id ∈ Stmt.allIds a.program ∨ id.toNat < s.nextId.toNat) →
      Filed (s.load a).machine.distances p.nextId.toNat ls name id := by
    rintro ls name id ⟨hb, hi | hlt⟩
    · exact ⟨hb, (hids id hi).2⟩
    · exact ⟨hb, Nat.lt_of_lt_of_le hlt hle⟩
  obtain ⟨W, hstore, hcurrent, hprog, hnil⟩ := h.scoped_load (fun id hi => (hids id hi).1)
    (hprogram ▸ hp.placed) (hprogram ▸ hp.nodup) hT
  refine ⟨⟨W, hstore.imp hfiled, hcurrent, hprog.imp _ fun ls name id _ => hfiled ls name id, hnil⟩,
    fun id hid => ?_⟩
  have hnot : id ∉ Stmt.allIds a.program := fun hi => Nat.not_lt_of_le hid (hids id hi).2
  rw [Session.load, Machine.getElem?_addDistances, Scoping.mem_allIds_of_distances hT hnot,
    Option.none_or]
  exact h.free id (Nat.le_trans hle hid)

/-- A run, whatever comes of it, keeps a session sound. -/
theorem Sound.run {s s' : Session} {source : String} {steps : Nat} {o : Outcome} (h : s.Sound)
    (hids : s.nextId.toNat + identifiers (scan source).tokens < UInt64.size)
    (hr : s.run steps source = some (o, s')) :
    s'.Sound ∧ s'.nextId.toNat ≤ s.nextId.toNat + identifiers (scan source).tokens := by
  obtain ⟨hp, hge⟩ := Parsed.numbered_ofSource hids
  unfold Session.run at hr
  generalize Parsed.ofSource source s.nextId = p at hp hge hr
  dsimp only at hr
  split at hr
  · next faults _ =>
    cases hr
    obtain ⟨W, hstore⟩ := h.store
    refine ⟨⟨⟨W, hstore.imp ?_⟩, h.current, fun id hid => h.free id (Nat.le_trans hp.le hid)⟩, hge⟩
    rintro ls name id ⟨hb, hlt⟩
    exact ⟨hb, Nat.lt_of_lt_of_le hlt hp.le⟩
  · next a ha =>
    obtain ⟨⟨e?, m⟩, hi, hs⟩ := Option.map_eq_some_iff.mp hr
    obtain ⟨⟨signal, m'⟩, hrun, hm⟩ := Option.map_eq_some_iff.mp hi
    obtain ⟨hscoped, hfree⟩ := h.load hp ha
    have hend := Config.runFor_eq_some.mp hrun
    have hdone := hscoped.iterate Locator.finds_byDistance steps
    have hkept := Config.iterate_distances .byDistance steps (s.load a)
    rw [Session.load, hend] at hdone hkept
    have hsound (current : ScopeId) (depth : Nat) (hc : current = globals) :
        Sound ⟨{ m' with current := current, depth := depth }, p.nextId⟩ := by
      refine ⟨?_, hc, fun id hid => (congrArg (·[id]?) hkept).trans (hfree id hid)⟩
      obtain ⟨W, hstore, -⟩ := hdone
      exact ⟨W, hstore.imp fun ls name id hf => ⟨(congrArg (·[id]?) hkept).trans hf.1, hf.2⟩⟩
    cases signal with
    | failed e =>
      cases hm; cases hs
      exact ⟨hsound globals 0 rfl, hge⟩
    | _ =>
      cases hm; cases hs
      exact ⟨hsound _ _ (hdone.current_of_done nofun), hge⟩

/-- Every session is sound as long as its ids do not wrap around. -/
theorem Reached.sound {limit : Option Nat} {output : Output} {sources : List String} {s : Session}
    (h : Reached limit output sources s) (hids : identifiersIn sources < UInt64.size) :
    s.Sound ∧ s.nextId.toNat ≤ identifiersIn sources := by
  induction h with
  | start => exact ⟨sound_start limit output, Nat.zero_le _⟩
  | run _ hr ih =>
    rw [identifiersIn_concat] at hids ⊢
    obtain ⟨hs, hle⟩ := ih (by omega)
    obtain ⟨hs', hle'⟩ := hs.run (by omega) hr
    exact ⟨hs', by omega⟩

/-- Every moment of a session is scoped, with the table that it has then. -/
theorem Moment.scoped {limit : Option Nat} {output : Output} {sources : List String} {c : Config}
    (h : Moment limit output sources c) (hids : identifiersIn sources < UInt64.size) :
    ∃ k, c.Scoped (Filed c.machine.distances k) := by
  induction h with
  | load hr ha =>
    rw [identifiersIn_concat] at hids
    obtain ⟨hs, hle⟩ := hr.sound (by omega)
    exact ⟨_, (hs.load (Parsed.numbered_ofSource (by omega)).1 ha).config⟩
  | step _ ih =>
    obtain ⟨k, hk⟩ := ih hids
    rw [Config.step_distances]
    exact ⟨k, hk.step Locator.finds_byDistance⟩

end Session
end LoxLang
