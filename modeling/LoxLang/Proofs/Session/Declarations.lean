import Mathlib
import LoxLang.Proofs.Machine.Pending
import LoxLang.Proofs.Session.Reached

/-!
Declarations in sessions. Each variable of a local scope comes from one executed declaration, and only an
assignment changes it.
-/
namespace LoxLang

/-- Each local variable that is bound has been declared once, and no other has been. -/
def DeclaredOnce (log : List Executed) (st : Store) : Prop :=
  ∀ id name, id ≠ globals →
    (log.map Executed.target).count (id, name) = if (st.read? id name).isSome then 1 else 0

namespace Config

def declarationsIn (locate : Locator) : Nat → Config → List Executed
  | 0, _ => []
  | n + 1, c => c.declarations ++ declarationsIn locate n (c.step locate)

structure Orderly (c : Config) : Prop where
  placed : c.Scoped Anywhere
  unspent : c.Unspent

namespace Orderly

variable {c : Config} {log : List Executed}

theorem step (h : c.Orderly) : (c.step .byDistance).Orderly :=
  ⟨h.placed.step Locator.finds_byDistance, h.unspent.step h.placed Locator.finds_byDistance⟩

/-- A step declares a local variable once at most. -/
theorem count_targets (h : c.Orderly) {id : ScopeId} (hid : id ≠ globals) (name : Name) :
    c.targets.count (id, name) = if (id, name) ∈ c.targets then 1 else 0 := by
  have hnodup := (h.unspent.account .byDistance h.placed).1
  rw [locals_append] at hnodup
  have hcount := (List.nodup_append.mp hnodup).1.count (a := (id, name))
  rw [locals, List.count_filter (by simpa using hid)] at hcount
  rw [hcount, ← locals]
  simp [hid]

theorem declaredOnce_step (h : c.Orderly) (hlog : DeclaredOnce log c.machine.store) :
    DeclaredOnce (log ++ c.declarations) (c.step .byDistance).machine.store := by
  intro id name hid
  have hbound := (step_stores .byDistance c).isSome_read? Locator.finds_byDistance
    h.placed.current_lt_next id name
  rw [List.map_append, List.count_append, hlog id name hid]
  change _ + c.targets.count (id, name) = _
  rw [h.count_targets hid]
  by_cases htarget : (id, name) ∈ c.targets
  · have hunbound := h.unspent.unbound_of_mem_targets h.placed htarget hid
    have hdeclared := hbound.mpr (.inr htarget)
    simp [htarget, hunbound, hdeclared]
  · simp only [htarget, or_false] at hbound
    simp only [htarget, hbound, if_false, Nat.add_zero]

theorem iterate (h : c.Orderly) (hlog : DeclaredOnce log c.machine.store) (n : Nat) :
    ((Config.step .byDistance)^[n] c).Orderly ∧
      DeclaredOnce (log ++ c.declarationsIn .byDistance n)
        ((Config.step .byDistance)^[n] c).machine.store := by
  induction n generalizing c log with
  | zero => exact ⟨h, by rwa [declarationsIn, List.append_nil]⟩
  | succ n ih =>
    rw [Function.iterate_succ_apply, declarationsIn, ← List.append_assoc]
    exact ih h.step (h.declaredOnce_step hlog)

end Orderly
end Config

namespace Session

def declared (steps : Nat) (s : Session) (source : String) : List Executed :=
  match (Parsed.ofSource source s.nextId).accept with
  | .error _ => []
  | .ok a => (s.load a).declarationsIn .byDistance steps

/-- The session after these sources, with all declarations so far. -/
inductive Recorded (limit : Option Nat) (output : Output) :
    List String → List Executed → Session → Prop where
  | start : Recorded limit output [] [] (.start limit output)
  | run {sources : List String} {log : List Executed} {source : String} {steps : Nat} {o : Outcome}
    {s s' : Session} :
    Recorded limit output sources log s → s.run steps source = some (o, s') →
      Recorded limit output (sources ++ [source]) (log ++ s.declared steps source) s'

inductive RecordedMoment (limit : Option Nat) (output : Output) :
    List String → List Executed → Config → Prop where
  | load {sources : List String} {log : List Executed} {source : String} {s : Session} {a : Accepted} :
    Recorded limit output sources log s → (Parsed.ofSource source s.nextId).accept = .ok a →
      RecordedMoment limit output (sources ++ [source]) log (s.load a)
  | step {sources : List String} {log : List Executed} {c : Config} :
    RecordedMoment limit output sources log c →
      RecordedMoment limit output sources (log ++ c.declarations) (c.step .byDistance)

variable {limit : Option Nat} {output : Output} {sources : List String} {log : List Executed}

theorem Reached.recorded {s : Session} (h : Reached limit output sources s) :
    ∃ log, Recorded limit output sources log s := by
  induction h with
  | start => exact ⟨[], .start⟩
  | run _ hr ih =>
    obtain ⟨log, hlog⟩ := ih
    exact ⟨_, hlog.run hr⟩

theorem Moment.recorded {c : Config} (h : Moment limit output sources c) :
    ∃ log, RecordedMoment limit output sources log c := by
  induction h with
  | load hr ha =>
    obtain ⟨log, hlog⟩ := hr.recorded
    exact ⟨log, .load hlog ha⟩
  | step _ ih =>
    obtain ⟨log, hlog⟩ := ih
    exact ⟨_, hlog.step⟩

structure Settled (s : Session) : Prop where
  store : ∃ W, s.machine.store.Scoped Anywhere W
  current : s.machine.current = globals

theorem settled_start (limit : Option Nat) (output : Output) : (start limit output).Settled :=
  ⟨⟨_, Machine.scoped_start _ limit output⟩, rfl⟩

/-- What is pending where a program begins is to be declared in the globals. -/
theorem Settled.load {s : Session} (h : s.Settled) {source : String} {a : Accepted}
    (ha : (Parsed.ofSource source s.nextId).accept = .ok a) : (s.load a).Orderly := by
  obtain ⟨W, hstore⟩ := h.store
  obtain ⟨hprogram, hT⟩ := Parsed.accept_eq_ok ha
  have hplaced := Parsed.allPlaced_ofTokens (scan source).tokens s.nextId
  have hscoped : Stmt.AllScoped Anywhere [] a.program :=
    hprogram ▸ Scoping.anywhere_of_distances hplaced hT
  have hpending : locals (s.load a).pending = [] := by
    refine List.filter_eq_nil_iff.mpr fun p hp => ?_
    obtain hp | hp := List.mem_append.mp hp
    · obtain ⟨name, -, rfl⟩ := List.mem_map.mp hp
      have hcurrent : (s.load a).machine.current = globals := h.current
      simpa using hcurrent
    · cases hp
  refine ⟨⟨W, hstore, h.current, hscoped, rfl⟩, ?_, ?_, ?_⟩ <;> rw [hpending]
  · exact .nil
  · nofun
  · nofun

theorem Settled.run {s s' : Session} {source : String} {steps : Nat} {o : Outcome} (h : s.Settled)
    (hlog : DeclaredOnce log s.machine.store) (hr : s.run steps source = some (o, s')) :
    s'.Settled ∧ DeclaredOnce (log ++ s.declared steps source) s'.machine.store := by
  unfold Session.run at hr
  unfold declared
  dsimp only at hr
  cases ha : (Parsed.ofSource source s.nextId).accept with
  | error faults =>
    rw [ha] at hr
    cases hr
    exact ⟨⟨h.store, h.current⟩, by simpa using hlog⟩
  | ok a =>
    rw [ha] at hr
    obtain ⟨⟨e?, m⟩, hi, hs⟩ := Option.map_eq_some_iff.mp hr
    obtain ⟨⟨signal, m'⟩, hrun, hm⟩ := Option.map_eq_some_iff.mp hi
    obtain ⟨horderly, hlog'⟩ := (h.load ha).iterate hlog steps
    rw [Session.load, Config.runFor_eq_some.mp hrun] at horderly hlog'
    obtain ⟨W, hstore, -⟩ := horderly.placed
    cases signal with
    | failed e =>
      cases hm; cases hs
      exact ⟨⟨⟨W, hstore⟩, rfl⟩, hlog'⟩
    | _ =>
      cases hm; cases hs
      exact ⟨⟨⟨W, hstore⟩, horderly.placed.current_of_done (by simp)⟩, hlog'⟩

theorem Recorded.settled {s : Session} (h : Recorded limit output sources log s) :
    s.Settled ∧ DeclaredOnce log s.machine.store := by
  induction h with
  | start =>
    refine ⟨settled_start limit output, fun id name _ => ?_⟩
    rw [Session.start, Machine.read?_start]
    rfl
  | run _ hr ih => exact ih.1.run ih.2 hr

theorem RecordedMoment.orderly {c : Config} (h : RecordedMoment limit output sources log c) :
    c.Orderly ∧ DeclaredOnce log c.machine.store := by
  induction h with
  | load hr ha => exact ⟨hr.settled.1.load ha, hr.settled.2⟩
  | step _ ih => exact ⟨ih.1.step, ih.1.declaredOnce_step ih.2⟩

/-- At every moment of a session, no declaration that is executed in a local scope and no parameter of a call
finds its name bound there. So each variable of a local scope comes from one executed declaration, and it
keeps its value until an assignment changes it. -/
theorem local_declarations {c : Config} (h : Moment limit output sources c) :
    (∀ d ∈ c.declarations, d.scope ≠ globals ∨ (∃ f args, c.Calls f args) →
        d.store.read? d.scope d.name = none) ∧
      ((∃ log, RecordedMoment limit output sources log c) ∧
        ∀ log, RecordedMoment limit output sources log c → ∀ id name, id ≠ globals →
          (log.map Executed.target).count (id, name) =
            if (c.machine.store.read? id name).isSome then 1 else 0) ∧
      ∀ id name v, id ≠ globals → c.machine.store.read? id name = some v →
        (c.step .byDistance).machine.store.read? id name = some v ∨
          ∃ w, c.Assigns .byDistance id name w ∧
            (c.step .byDistance).machine.store.read? id name = some w := by
  obtain ⟨log, hlog⟩ := h.recorded
  obtain ⟨horderly, -⟩ := hlog.orderly
  refine ⟨fun d hd => horderly.unspent.fresh horderly.placed hd, ⟨⟨log, hlog⟩, fun log hlog => hlog.orderly.2⟩, ?_⟩
  intro id name v hid hv
  refine (Config.step_stores .byDistance c).read?_eq_some hv fun htarget => ?_
  rw [horderly.unspent.unbound_of_mem_targets horderly.placed htarget hid] at hv
  cases hv

/-- A call is about to bind a parameter, which nothing has declared in its scope. -/
theorem local_declarations_parameter :
    ∃ c, Moment none (.empty none) ["fun f(a) \x7b print a; \x7d f(\"x\");"] c ∧
      c.targets = [(1, "a")] ∧
      (∀ d ∈ c.declarations, d.store.read? d.scope d.name = none) ∧
      ∃ log, RecordedMoment none (.empty none) ["fun f(a) \x7b print a; \x7d f(\"x\");"] log c ∧
        (log.map Executed.target).count (1, "a") = 0 := by
  let program : List Stmt :=
    [.function 1 "f" ["a"] [.print 1 (.reference 1 "a" 0)],
      .expression 1 (.call 1 (.reference 1 "f" 1) [.literal 1 (.string "x")])]
  let table : Distances := Std.TreeMap.empty.insert 0 0
  let c := (Config.step .byDistance)^[10] ((start none (.empty none)).load ⟨program, table⟩)
  have hparsed : Parsed.ofSource "fun f(a) \x7b print a; \x7d f(\"x\");" 0 = ⟨program, [], 2⟩ := by
    cbv
  have haccept : (Parsed.ofSource "fun f(a) \x7b print a; \x7d f(\"x\");" 0).accept =
      .ok ⟨program, table⟩ := by
    rw [hparsed]
    rfl
  have hmoment : Moment none (.empty none) ["fun f(a) \x7b print a; \x7d f(\"x\");"] c :=
    (Moment.load .start haccept).iterate 10
  obtain ⟨hfresh, ⟨⟨log, hlog⟩, honce⟩, -⟩ := local_declarations hmoment
  have hunbound : c.machine.store.read? 1 "a" = none := rfl
  have hcount := honce log hlog 1 "a" (by decide)
  rw [hunbound] at hcount
  have hcalls : ∃ f args, c.Calls f args := ⟨_, _, ⟨_, rfl⟩, rfl⟩
  exact ⟨c, hmoment, rfl, fun d hd => hfresh d hd (.inr hcalls), log, hlog, hcount⟩

end Session
end LoxLang
