import LoxLang.Proofs.Session.Reached
import LoxLang.Proofs.Matching.Parse
import LoxLang.Proofs.Matching.Step

/-!
Sessions that match: nodes that correspond have the same distance, each in its session. Running one more
source in both keeps this, although its ids differ.
-/
namespace LoxLang

variable {L : Nat → Nat → Prop}

namespace Parsed

/-- Whether a source is accepted, and with which faults it is rejected, does not depend on ids. -/
theorem accept_ofSource (source : String) (firstId firstId' : NodeId) :
    (∃ a a', (ofSource source firstId).accept = .ok a ∧ (ofSource source firstId').accept = .ok a' ∧
      Stmt.AllMatch (· = ·) whatever a.program a'.program) ∨
    ∃ faults, (ofSource source firstId).accept = .error faults ∧
      (ofSource source firstId').accept = .error faults := by
  have htokens : List.Forall₂ (Token.Matches (· = ·)) (scan source).tokens (scan source).tokens :=
    List.forall₂_same.mpr fun t _ => ⟨rfl, rfl, rfl, rfl⟩
  obtain ⟨hprogram, hfaults⟩ := ofTokens_matches htokens rfl firstId firstId'
  have hsame : (ofSource source firstId').faults = (ofSource source firstId).faults :=
    congrArg ((scan source).faults ++ ·) (Diagnostic.eq_of_allMatch hfaults).symm
  unfold accept
  rw [hsame]
  split
  · rcases Scoping.distances_matches hprogram with ⟨T, T', hT, hT'⟩ | ⟨faults, faults', hf, hf', h⟩
    · refine .inl ⟨⟨_, T⟩, ⟨_, T'⟩, ?_, ?_, hprogram⟩
      · exact congrArg (Except.map _) hT
      · exact congrArg (Except.map _) hT'
    · obtain rfl := Diagnostic.eq_of_allMatch h
      refine .inr ⟨faults, ?_, ?_⟩
      · exact congrArg (Except.map _) hf
      · exact congrArg (Except.map _) hf'
  · exact .inr ⟨_, rfl, rfl⟩

end Parsed

structure SameDistance (T T' : Distances) (k k' : Nat) (id id' : NodeId) : Prop where
  lt : id.toNat < k
  lt' : id'.toNat < k'
  distance : T'[id']? = T[id]?

/-- New entries for new ids change no distance. -/
theorem SameDistance.grow {T T' U U' : Distances} {j j' k k' : Nat} {id id' : NodeId}
    (h : SameDistance T T' j j' id id') (hU : ∀ id : NodeId, id.toNat < j → U[id]? = T[id]?)
    (hU' : ∀ id : NodeId, id.toNat < j' → U'[id]? = T'[id]?) (hk : j ≤ k) (hk' : j' ≤ k') :
    SameDistance U U' k k' id id' where
  lt := Nat.lt_of_lt_of_le h.lt hk
  lt' := Nat.lt_of_lt_of_le h.lt' hk'
  distance := by rw [hU id h.lt, hU' id' h.lt', h.distance]

/-- Nodes of the same place have the same distance. -/
theorem Stmt.AllMatch.sameDistance {T T' : Distances} {k k' : Nat} {ss ss' : List Stmt}
    (h : Stmt.AllMatch L whatever ss ss') (hs : Stmt.AllScoped (Filed T k) [] ss)
    (hs' : Stmt.AllScoped (Filed T' k') [] ss') : Stmt.AllMatch L (SameDistance T T' k k') ss ss' :=
  h.scoped (fun _ _ _ _ _ hid hid' => ⟨hid.2, hid'.2, hid'.1.trans hid.1.symm⟩) hs hs'

section Self
variable {Q : Layers → Name → NodeId → Prop} {N : NodeId → NodeId → Prop} {st : Store} {W : Labels}

theorem Value.Scoped.matches_self {v : Value} (h : v.Scoped Q st W) (hL : ∀ l, L l l)
    (hN : ∀ ls name id, Q ls name id → N id id) : v.Matches L N v := by
  cases v with
  | function f =>
    obtain ⟨ls, -, -, hbody⟩ := h
    have hself : Stmt.AllMatch L (· = ·) f.body f.body := Stmt.allMatch_self hL (fun _ => rfl) f.body
    refine .function f.identity f.name f.params f.closure (hself.scoped ?_ hbody hbody)
    rintro ls name id _ rfl hid -
    exact hN ls name id hid
  | _ => exact .same _ nofun

theorem Store.Scoped.matches_self (h : st.Scoped Q W) (hL : ∀ l, L l l)
    (hN : ∀ ls name id, Q ls name id → N id id) : st.Matches L N st where
  next := rfl
  enclosing _ := rfl
  read id n := by
    cases hread : st.read? id n with
    | none => exact .none
    | some v => exact .some ((h.values id n v hread).matches_self hL hN)

end Self

namespace Session

variable {s t : Session} {p p' : Parsed} {a a' : Accepted}

/-- An accepted program leaves the distances of all code before it as they are. -/
theorem distances_load_of_lt (hp : p.Numbered s.nextId) (ha : p.accept = .ok a) {id : NodeId}
    (hid : id.toNat < s.nextId.toNat) :
    (s.load a).machine.distances[id]? = s.machine.distances[id]? := by
  obtain ⟨-, hT⟩ := Parsed.accept_eq_ok ha
  have hnot : id ∉ Stmt.allIds p.program := fun hi => Nat.not_le_of_lt hid (hp.ids id hi).1
  rw [load, Machine.getElem?_addDistances, Scoping.mem_allIds_of_distances hT hnot, Option.none_or]

def Matches (L : Nat → Nat → Prop) (s t : Session) : Prop :=
  ∃ st' T', t.machine = s.machine.beside st' T' ∧
    s.machine.Matches L (SameDistance s.machine.distances T' s.nextId.toNat t.nextId.toNat) st' T'

/-- A session matches itself, whatever id comes next in it. -/
theorem Sound.matches_self (h : s.Sound) (hL : ∀ l, L l l) {nextId : NodeId}
    (hle : s.nextId.toNat ≤ nextId.toNat) : s.Matches L { s with nextId := nextId } := by
  obtain ⟨W, hstore⟩ := h.store
  refine ⟨s.machine.store, s.machine.distances, rfl, hstore.matches_self hL ?_, fun _ _ h => h.distance⟩
  rintro ls name id ⟨-, hlt⟩
  exact ⟨hlt, Nat.lt_of_lt_of_le hlt hle, rfl⟩

/-- Programs that match begin in configurations that match, even if the second one goes on. -/
theorem Matches.load (h : s.Matches L t) (hs : s.Loaded p.nextId a) (ht : t.Loaded p'.nextId a')
    (hp : p.Numbered s.nextId) (hp' : p'.Numbered t.nextId) (ha : p.accept = .ok a)
    (ha' : p'.accept = .ok a') {ss rest : List Stmt} (hprogram : a'.program = ss ++ rest)
    (hm : Stmt.AllMatch L whatever a.program ss) :
    Config.Matches L (SameDistance (s.load a).machine.distances (t.load a').machine.distances
      p.nextId.toNat p'.nextId.toNat) rest (s.load a) (t.load a') := by
  obtain ⟨st', T', hmachine, hstore, -⟩ := h
  have hT' : t.machine.distances = T' := by rw [hmachine]; rfl
  have hgrow : ∀ id id', SameDistance s.machine.distances T' s.nextId.toNat t.nextId.toNat id id' →
      SameDistance (s.load a).machine.distances (t.load a').machine.distances p.nextId.toNat
        p'.nextId.toNat id id' := fun id id' hid =>
    hid.grow (fun _ => distances_load_of_lt hp ha)
      (fun _ hlt => (distances_load_of_lt hp' ha' hlt).trans (by rw [hT'])) hp.le hp'.le
  obtain ⟨_, -, -, hscoped, -⟩ := hs.config
  obtain ⟨_, -, -, hscoped', -⟩ := ht.config
  rw [hprogram] at hscoped'
  have hnodes := hm.sameDistance hscoped (Stmt.allScoped_append.mp hscoped').1
  have hload : t.load a' = ⟨.program (ss ++ rest), [],
      (s.load a).machine.beside st' (t.load a').machine.distances⟩ := by
    rw [Session.load, hprogram, hmachine]
    rfl
  rw [hload]
  exact .intro ⟨hstore.imp hgrow, fun _ _ hid => hid.distance⟩ .nil (.program hnodes)

def ending (nextId : NodeId) : Signal × Machine → Outcome × Session
  | (.failed e, m) => (.failed e, ⟨m.reset, nextId⟩)
  | (_, m) => (.completed, ⟨m, nextId⟩)

theorem run_of_accept {source : String} (h : (Parsed.ofSource source s.nextId).accept = .ok a)
    (steps : Nat) : s.run steps source =
      ((s.load a).runFor .byDistance steps).map (ending (Parsed.ofSource source s.nextId).nextId) := by
  unfold Session.run
  dsimp only
  rw [h]
  unfold Machine.interpret
  dsimp only
  rw [Option.map_map]
  refine congrArg (Option.map · _) (funext fun r => ?_)
  obtain ⟨signal, m⟩ := r
  cases signal <;> rfl

theorem run_of_reject {source : String} {faults : List Diagnostic}
    (h : (Parsed.ofSource source s.nextId).accept = .error faults) (steps : Nat) :
    s.run steps source =
      some (.rejected faults, { s with nextId := (Parsed.ofSource source s.nextId).nextId }) := by
  unfold Session.run
  dsimp only
  rw [h]

theorem run_ne_rejected {source : String} (h : (Parsed.ofSource source s.nextId).accept = .ok a)
    (steps : Nat) (faults : List Diagnostic) (s' : Session) :
    s.run steps source ≠ some (.rejected faults, s') := by
  rw [run_of_accept h]
  intro hr
  obtain ⟨⟨signal, m⟩, -, hend⟩ := Option.map_eq_some_iff.mp hr
  cases signal <;> cases hend

structure RunsMatch (r r' : Outcome × Session) : Prop where
  outcome : r'.1 = r.1
  output : r'.2.machine.output = r.2.machine.output
  sessions : r.2.Matches (· = ·) r'.2

/-- Ends of runs that match are sessions that match. -/
theorem matches_ending {N : NodeId → NodeId → Prop} {k k' : NodeId}
    {r r' : Signal × Machine} (h : Config.EndMatches (· = ·) N r r')
    (hN : ∀ id id', N id id' → SameDistance r.2.distances r'.2.distances k.toNat k'.toNat id id') :
    RunsMatch (ending k r) (ending k' r') := by
  obtain ⟨signal, m⟩ := r
  obtain ⟨signal', m'⟩ := r'
  obtain ⟨hsignal, st', T', hmachine, hstore, -⟩ := h
  obtain rfl : m' = m.beside st' T' := hmachine
  have hmatches (current : ScopeId) (depth : Nat) :
      Session.Matches (· = ·) ⟨{ m with current := current, depth := depth }, k⟩
        ⟨{ m.beside st' T' with current := current, depth := depth }, k'⟩ :=
    ⟨st', T', rfl, hstore.imp hN, fun _ _ hid => hid.distance⟩
  cases hsignal with
  | failed cause hl => cases hl; exact ⟨rfl, rfl, hmatches globals 0⟩
  | _ => exact ⟨rfl, rfl, hmatches m.current m.depth⟩

theorem Matches.run (h : s.Matches (· = ·) t) (hs : s.Sound) (ht : t.Sound) {source : String}
    (hids : s.nextId.toNat + identifiers (scan source).tokens < UInt64.size)
    (hids' : t.nextId.toNat + identifiers (scan source).tokens < UInt64.size) (steps : Nat) :
    Option.Rel RunsMatch (s.run steps source) (t.run steps source) := by
  obtain ⟨hp, -⟩ := Parsed.numbered_ofSource hids
  obtain ⟨hp', -⟩ := Parsed.numbered_ofSource hids'
  rcases Parsed.accept_ofSource source s.nextId t.nextId with ⟨a, a', ha, ha', hm⟩ | ⟨faults, hf, hf'⟩
  · rw [run_of_accept ha, run_of_accept ha']
    have hstart := h.load (hs.load hp ha) (ht.load hp' ha') hp hp' ha ha' (List.append_nil _).symm hm
    refine rel_map (hstart.runFor steps) fun r r' hr hr' hend => matches_ending hend fun id id' hid => ?_
    rwa [Config.distances_of_runFor hr, Config.distances_of_runFor hr']
  · rw [run_of_reject hf, run_of_reject hf']
    obtain ⟨st', T', hmachine, hstore, -⟩ := h
    refine .some ⟨rfl, by rw [hmachine]; rfl, st', T', hmachine, hstore.imp fun id id' hid => ?_, ?_⟩
    · exact hid.grow (fun _ _ => rfl) (fun _ _ => rfl) hp.le hp'.le
    · exact fun _ _ hid => hid.distance

end Session
end LoxLang
