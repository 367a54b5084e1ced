import Mathlib
import LoxLang.Proofs.Matching.Session

/-!
The ids of a session. Each source takes its ids from where the one before it stopped, whether that one was
rejected, failed or completed. So no two nodes of all the trees read share an id, and every entry of the table
is that of one node.
-/
namespace LoxLang

namespace Parsed

/-- Sources read one after another: all their trees, the rejected ones among them. -/
def ofSources : List String → NodeId → Parsed
  | [], firstId => ⟨[], [], firstId⟩
  | source :: sources, firstId =>
    let p := ofSource source firstId
    let q := ofSources sources p.nextId
    ⟨p.program ++ q.program, p.faults ++ q.faults, q.nextId⟩

theorem ofSources_concat (sources : List String) (source : String) (firstId : NodeId) :
    (ofSources (sources ++ [source]) firstId).nextId =
        (ofSource source (ofSources sources firstId).nextId).nextId ∧
      (ofSources (sources ++ [source]) firstId).program = (ofSources sources firstId).program ++
        (ofSource source (ofSources sources firstId).nextId).program := by
  induction sources generalizing firstId with
  | nil => simp [ofSources]
  | cons first sources ih =>
    obtain ⟨hnext, hprogram⟩ := ih (ofSource first firstId).nextId
    simp only [List.cons_append, ofSources]
    rw [hnext, hprogram, List.append_assoc]
    exact ⟨rfl, rfl⟩

/-- What follows takes its ids from where the first one stopped. -/
theorem Numbered.append {p q : Parsed} {firstId : NodeId} (hp : p.Numbered firstId)
    (hq : q.Numbered p.nextId) (faults : List Diagnostic) :
    Numbered ⟨p.program ++ q.program, faults, q.nextId⟩ firstId where
  le := Nat.le_trans hp.le hq.le
  ids id hid := by
    dsimp only at hid ⊢
    rw [Stmt.allIds_append, List.mem_append] at hid
    rcases hid with hid | hid
    · exact ⟨(hp.ids id hid).1, Nat.lt_of_lt_of_le (hp.ids id hid).2 hq.le⟩
    · exact ⟨Nat.le_trans hp.le (hq.ids id hid).1, (hq.ids id hid).2⟩
  nodup := by
    dsimp only
    rw [Stmt.allIds_append]
    refine List.nodup_append.mpr ⟨hp.nodup, hq.nodup, ?_⟩
    rintro id hid _ hid' rfl
    exact Nat.not_lt_of_le (hq.ids id hid').1 (hp.ids id hid).2
  placed := Stmt.allPlaced_append hp.placed hq.placed

theorem numbered_ofSources {sources : List String} {firstId : NodeId}
    (h : firstId.toNat + Session.identifiersIn sources < UInt64.size) :
    (ofSources sources firstId).Numbered firstId := by
  induction sources generalizing firstId with
  | nil => exact ⟨Nat.le_refl _, nofun, List.nodup_nil, trivial⟩
  | cons source sources ih =>
    rw [Session.identifiersIn] at h
    obtain ⟨hp, hle⟩ : (ofSource source firstId).Numbered firstId ∧ _ := numbered_ofSource (by omega)
    exact hp.append (ih (by omega)) _

end Parsed

namespace Session

variable {limit : Option Nat} {output : Output} {sources : List String} {s s' : Session}
  {source : String} {a : Accepted}

structure Files (sources : List String) (s : Session) : Prop where
  nextId : s.nextId = (Parsed.ofSources sources 0).nextId
  entries : ∀ (id : NodeId) d, s.machine.distances[id]? = some d →
    id ∈ Stmt.allIds (Parsed.ofSources sources 0).program

theorem Files.load (h : s.Files sources) (ha : (Parsed.ofSource source s.nextId).accept = .ok a)
    (id : NodeId) (d : Nat) (hd : (s.load a).machine.distances[id]? = some d) :
    id ∈ Stmt.allIds (Parsed.ofSources (sources ++ [source]) 0).program := by
  obtain ⟨-, hT⟩ := Parsed.accept_eq_ok ha
  rw [(Parsed.ofSources_concat sources source 0).2, Stmt.allIds_append, List.mem_append, ← h.nextId]
  rw [Session.load, Machine.getElem?_addDistances] at hd
  by_cases hid : id ∈ Stmt.allIds (Parsed.ofSource source s.nextId).program
  · exact .inr hid
  · rw [Scoping.mem_allIds_of_distances hT hid, Option.none_or] at hd
    exact .inl (h.entries id d hd)

theorem Files.run (h : s.Files sources) {steps : Nat} {o : Outcome}
    (hr : s.run steps source = some (o, s')) : s'.Files (sources ++ [source]) := by
  obtain ⟨hnext, hprogram⟩ := Parsed.ofSources_concat sources source 0
  cases ha : (Parsed.ofSource source s.nextId).accept with
  | error faults =>
    rw [run_of_reject ha] at hr
    cases hr
    refine ⟨by rw [hnext, ← h.nextId], fun id d hd => ?_⟩
    rw [hprogram, Stmt.allIds_append]
    exact List.mem_append_left _ (h.entries id d hd)
  | ok a =>
    rw [run_of_accept ha] at hr
    obtain ⟨⟨signal, m⟩, hrun, hend⟩ := Option.map_eq_some_iff.mp hr
    have hentries := h.load ha
    rw [← Config.distances_of_runFor hrun] at hentries
    cases signal <;> cases hend <;> exact ⟨by rw [hnext, ← h.nextId], hentries⟩

theorem Reached.files (h : Reached limit output sources s) : s.Files sources := by
  induction h with
  | start => exact ⟨rfl, fun id d hd => by simp [Session.start, Machine.start] at hd⟩
  | run _ hr ih => exact ih.run hr

/-- Only when a source is loaded does the table change. -/
theorem Moment.entries {c : Config} (h : Moment limit output sources c) (id : NodeId) (d : Nat)
    (hd : c.machine.distances[id]? = some d) :
    id ∈ Stmt.allIds (Parsed.ofSources sources 0).program := by
  induction h with
  | load hs ha => exact hs.files.load ha id d hd
  | step _ ih => exact ih (by rwa [Config.step_distances] at hd)

/-- What a source adds to the table is for its own nodes, and no entry is overwritten. -/
theorem Reached.load_keeps (hs : Reached limit output sources s)
    (hids : identifiersIn sources + identifiers (scan source).tokens < UInt64.size)
    (ha : (Parsed.ofSource source s.nextId).accept = .ok a) {id : NodeId} {d : Nat}
    (hd : s.machine.distances[id]? = some d) :
    a.distances[id]? = none ∧ (s.load a).machine.distances[id]? = some d := by
  obtain ⟨hsound, hle⟩ := hs.sound (by omega)
  have hsource : (Parsed.ofSource source s.nextId).Numbered s.nextId :=
    (Parsed.numbered_ofSource (by omega)).1
  obtain ⟨-, hT⟩ := Parsed.accept_eq_ok ha
  have hlt : id.toNat < s.nextId.toNat := by
    by_contra hge
    rw [hsound.free id (Nat.le_of_not_lt hge)] at hd
    cases hd
  have hnot : id ∉ Stmt.allIds (Parsed.ofSource source s.nextId).program := fun hid =>
    Nat.not_le_of_lt hlt (hsource.ids id hid).1
  have hnone := Scoping.mem_allIds_of_distances hT hnot
  refine ⟨hnone, ?_⟩
  rw [Session.load, Machine.getElem?_addDistances, hnone, Option.none_or]
  exact hd

/-- The ids of one parse differ and follow its first one, if so many ids follow it. In a session whose ids do
not wrap around, all nodes of all trees differ in their ids, which the next id exceeds; each entry of the table
is that of one node, between two runs and at every moment of one, and no later program has an entry for an id
that has one. -/
theorem ids_differ :
    (∀ (tokens : List Token) (firstId : NodeId), ∃ n ≤ identifiers tokens,
      let p := Parsed.ofTokens tokens firstId
      p.nextId = firstId + UInt64.ofNat n ∧
        (firstId.toNat + n ≤ UInt64.size → (Stmt.allIds p.program).Nodup ∧
          ∀ id ∈ Stmt.allIds p.program, firstId.toNat ≤ id.toNat ∧ id.toNat < firstId.toNat + n)) ∧
    ∀ (limit : Option Nat) (output : Output) (sources : List String),
      identifiersIn sources < UInt64.size →
      let trees := (Parsed.ofSources sources 0).program
      (Stmt.allIds trees).Nodup ∧
        (∀ s, Reached limit output sources s →
          (∀ id ∈ Stmt.allIds trees, id.toNat < s.nextId.toNat) ∧
            ∀ (id : NodeId) d, s.machine.distances[id]? = some d → (Stmt.allIds trees).count id = 1) ∧
        (∀ c, Moment limit output sources c →
          ∀ (id : NodeId) d, c.machine.distances[id]? = some d → (Stmt.allIds trees).count id = 1) ∧
        ∀ earlier source s a, sources = earlier ++ [source] → Reached limit output earlier s →
          (Parsed.ofSource source s.nextId).accept = .ok a →
            ∀ (id : NodeId) d, s.machine.distances[id]? = some d →
              a.distances[id]? = none ∧ (s.load a).machine.distances[id]? = some d := by
  refine ⟨fun tokens firstId => ?_, fun limit output sources hids => ?_⟩
  · obtain ⟨n, hn, hnext, ids, hperm, hsub⟩ := Parsed.ids_ofTokens tokens firstId
    refine ⟨n, hn, hnext, fun hrange => ⟨?_, fun id hid => ?_⟩⟩
    · exact hperm.nodup_iff.mp ((nodup_idsFrom firstId (by omega)).sublist hsub)
    · exact toNat_of_mem_idsFrom (hsub.subset (hperm.symm.subset hid)) hrange
  · have hp : (Parsed.ofSources sources 0).Numbered 0 :=
      Parsed.numbered_ofSources (by simpa using hids)
    refine ⟨hp.nodup, fun s hs => ⟨fun id hid => ?_, fun id d hd => ?_⟩, fun c hc id d hd => ?_, ?_⟩
    · rw [hs.files.nextId]
      exact (hp.ids id hid).2
    · exact List.count_eq_one_of_mem hp.nodup (hs.files.entries id d hd)
    · exact List.count_eq_one_of_mem hp.nodup (hc.entries id d hd)
    · rintro earlier source s a rfl hs ha id d hd
      rw [identifiersIn_concat] at hids
      exact hs.load_keeps hids ha hd

/-- A rejected source with a tree, and after it a block with a local variable. -/
theorem ids_differ_rejected :
    let rejected := "print a; \x7d"
    let source := "\x7b var b = \"x\"; print b; \x7d"
    identifiersIn [rejected, source] < UInt64.size ∧
      (Stmt.allIds (Parsed.ofTokens (scan rejected).tokens 0).program).Nodup ∧
      ∃ s c, Reached none (.empty none) [rejected] s ∧ Moment none (.empty none) [rejected, source] c ∧
        c.machine.distances[(1 : NodeId)]? = some 0 ∧
          (Stmt.allIds (Parsed.ofSources [rejected, source] 0).program).count 1 = 1 := by
  intro rejected source
  let s : Session := ⟨(start none (.empty none)).machine, 1⟩
  let a : Accepted :=
    ⟨[.block 1 [.var 1 "b" (some (.literal 1 (.string "x"))), .print 1 (.reference 1 "b" 1)]],
      Std.TreeMap.empty.insert 1 0⟩
  have hids : identifiersIn [rejected, source] < UInt64.size := by cbv
  have hrun : (start none (.empty none)).run 0 rejected =
      some (.rejected [⟨1, .at "\x7d", .expected .expression⟩], s) := by cbv
  have hparsed : Parsed.ofSource source 1 = ⟨a.program, [], 2⟩ := by cbv
  have haccept : (Parsed.ofSource source s.nextId).accept = .ok a := by
    change (Parsed.ofSource source 1).accept = .ok a
    rw [hparsed]
    rfl
  have hs : Reached none (.empty none) [rejected] s := .run .start hrun
  have hc : Moment none (.empty none) [rejected, source] (s.load a) := .load hs haccept
  have hentry : (s.load a).machine.distances[(1 : NodeId)]? = some 0 := by rfl
  obtain ⟨n, hn, -, htokens⟩ := ids_differ.1 (scan rejected).tokens 0
  have hfew : identifiers (scan rejected).tokens ≤ UInt64.size := by cbv
  obtain ⟨-, -, hone, -⟩ := ids_differ.2 none (.empty none) [rejected, source] hids
  refine ⟨hids, (htokens ?_).1, s, s.load a, hs, hc, hentry, hone _ hc 1 0 hentry⟩
  rw [UInt64.toNat_zero, Nat.zero_add]
  exact Nat.le_trans hn hfew

end Session
end LoxLang
