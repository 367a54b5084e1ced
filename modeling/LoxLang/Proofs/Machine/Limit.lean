import LoxLang.Proofs.Machine.Adjust
import LoxLang.Proofs.Machine.Restore

/-!
The limit of calls. Two runs under different limits go on together until a call exceeds the lower one,
which ends one of them; so a limit cuts runs off and changes nothing else.
-/
namespace LoxLang

namespace Config

variable {c : Config} {l : Option Nat} {limit line n : Nat}

def withLimit (c : Config) (l : Option Nat) : Config := c.adjust { limit := fun _ => l }

def Overflows (c : Config) (line : Nat) : Prop := c.AtCall line ∧ c.machine.mayCall = false

def activeCalls (c : Config) : Nat := c.frames.countP Frame.isCall

theorem Overflows.step (locate : Locator) (h : c.Overflows line) :
    (c.step locate).control = .done (.failed ⟨.stackOverflow, line⟩) ∧
      (c.step locate).machine = c.machine := by
  obtain ⟨control, frames, m⟩ := c
  obtain ⟨⟨f, args, hcontrol⟩, hmay⟩ := h
  obtain rfl : control = .call f args line := hcontrol
  have hmay : m.mayCall = false := hmay
  simp [Config.step, call, hmay, fail]

/-- Nothing else lets a stack overflow. -/
theorem Raises.overflows {locate : Locator} (h : c.Raises locate ⟨.stackOverflow, line⟩) :
    c.Overflows line := by
  cases h.failsBy with
  | overflow hcall hmay => exact ⟨hcall, hmay⟩
  | misuse hm => cases hm

/-- Where the lower limit allows a call, the higher one does. -/
theorem mayCall_withLimit (hlimit : c.machine.limit = some limit) (hle : ∀ k ∈ l, limit ≤ k)
    (h : c.machine.mayCall) : (c.withLimit l).machine.mayCall := by
  have hdepth : c.machine.depth < limit := by simpa [Machine.mayCall, hlimit] using h
  cases l with
  | none => rfl
  | some k => exact decide_eq_true (Nat.lt_of_lt_of_le hdepth (hle k rfl))

theorem iterate_limit (locate : Locator) (n : Nat) (c : Config) :
    ((Config.step locate)^[n] c).machine.limit = c.machine.limit := by
  induction n with
  | zero => rfl
  | succ n ih => rw [Function.iterate_succ_apply', (step_leaves locate _).limit, ih]

/-- Until a call exceeds the lower limit, both runs go the same way. -/
theorem iterate_withLimit (hlimit : c.machine.limit = some limit) (hle : ∀ k ∈ l, limit ≤ k)
    (hno : ∀ k < n, ∀ line, ¬((Config.step .byDistance)^[k] c).Overflows line) :
    (Config.step .byDistance)^[n] (c.withLimit l) =
      ((Config.step .byDistance)^[n] c).withLimit l := by
  refine iterate_adjust fun k hk => step_adjust (fun _ _ _ _ => rfl) (fun line hcall => ?_)
    fun _ _ _ => ⟨rfl, rfl⟩
  have hmay : ((Config.step .byDistance)^[k] c).machine.mayCall = true := by
    by_contra hfalse
    exact hno k hk line ⟨hcall, Bool.eq_false_iff.mpr hfalse⟩
  exact (mayCall_withLimit ((iterate_limit _ k c).trans hlimit) hle hmay).trans hmay.symm

/-- A run that exceeds its limit fails so, with what it has written until then. -/
theorem exists_runFor_of_overflows (h : ((Config.step .byDistance)^[n] c).Overflows line) :
    ∃ steps m, c.runFor .byDistance steps = some (.failed ⟨.stackOverflow, line⟩, m) ∧
      m.output = ((Config.step .byDistance)^[n] c).machine.output := by
  obtain ⟨hcontrol, hmachine⟩ := h.step .byDistance
  obtain ⟨m, hrun, hreset⟩ := exists_runFor_of_failed .byDistance hcontrol
  rw [hmachine] at hreset
  refine ⟨n + 1 + (((Config.step .byDistance)^[n] c).step .byDistance).frames.length, m, ?_,
    (congrArg Machine.output hreset :)⟩
  rw [runFor_iterate, Function.iterate_succ_apply']
  exact hrun

/-- However often a run is asked for, it ends in one way. -/
theorem eq_of_overflows {s : Signal} {m : Machine}
    (h : ((Config.step .byDistance)^[n] c).Overflows line) {steps : Nat}
    (hrun : c.runFor .byDistance steps = some (s, m)) :
    s = .failed ⟨.stackOverflow, line⟩ ∧
      m.output = ((Config.step .byDistance)^[n] c).machine.output := by
  obtain ⟨steps', m', hrun', houtput⟩ := exists_runFor_of_overflows h
  have hsame := (runFor_le (Nat.le_max_left steps steps') hrun).symm.trans
    (runFor_le (Nat.le_max_right steps steps') hrun')
  cases hsame
  exact ⟨rfl, houtput⟩

/-- A stack overflows once. -/
theorem Overflows.not_before (h : ((Config.step .byDistance)^[n] c).Overflows line) :
    ∀ k < n, ∀ line', ¬((Config.step .byDistance)^[k] c).Overflows line' := by
  intro k hk line' hbefore
  obtain ⟨f, args, hcall⟩ := h.1
  obtain ⟨d, rfl⟩ := Nat.exists_eq_add_of_lt hk
  rw [Nat.add_right_comm, Nat.add_comm, Function.iterate_add_apply, Function.iterate_succ_apply'] at hcall
  obtain ⟨hfailed, -, -⟩ :=
    iterate_failed .byDistance (hbefore.step .byDistance).1 d
  rw [hfailed] at hcall
  cases hcall

/-- What does not end with an overflow ends the same way under a higher limit. -/
theorem runFor_withLimit {s : Signal} {m : Machine} (hlimit : c.machine.limit = some limit)
    (hle : ∀ k ∈ l, limit ≤ k) (hrun : c.runFor .byDistance n = some (s, m))
    (hs : ∀ line, s ≠ .failed ⟨.stackOverflow, line⟩) :
    (c.withLimit l).runFor .byDistance n = some (s, { m with limit := l }) := by
  have hno : ∀ k < n, ∀ line, ¬((Config.step .byDistance)^[k] c).Overflows line :=
    fun k _ line h => hs line (eq_of_overflows h hrun).1
  rw [runFor_eq_some, iterate_withLimit hlimit hle hno, runFor_eq_some.mp hrun]
  rfl

/-- What a run has written when its stack overflows, a run under a higher limit writes too. -/
theorem exists_output_eq_of_overflows (hlimit : c.machine.limit = some limit)
    (hle : ∀ k ∈ l, limit ≤ k) (h : ((Config.step .byDistance)^[n] c).Overflows line) {s : Signal}
    {m : Machine} {steps : Nat} (hrun : (c.withLimit l).runFor .byDistance steps = some (s, m)) :
    ∃ more, m.output.bytes =
      ((Config.step .byDistance)^[n] c).machine.output.bytes ++ more := by
  have hlong : (c.withLimit l).runFor .byDistance (n + steps) = some (s, m) :=
    runFor_le (Nat.le_add_left steps n) hrun
  rw [runFor_iterate, iterate_withLimit hlimit hle h.not_before, runFor_eq_some] at hlong
  obtain ⟨more, hmore⟩ := iterate_output .byDistance steps
    (((Config.step .byDistance)^[n] c).withLimit l)
  rw [hlong] at hmore
  exact ⟨more, hmore⟩

theorem countP_boundaries (c : Config) : c.boundaries.countP Frame.isCall = c.activeCalls := by
  unfold boundaries activeCalls
  rw [List.countP_filter]
  refine List.countP_congr fun f _ => ?_
  cases f <;> simp [Frame.isCall, Frame.isBoundary]

/-- A call exceeds the limit where as many calls are active as it allows. -/
theorem Returns.overflows_iff {scope : ScopeId} (h : c.Returns scope 0)
    (hlimit : c.machine.limit = some limit) :
    c.Overflows line ↔ c.AtCall line ∧ c.activeCalls = limit := by
  have hdepth : c.machine.depth = c.activeCalls := by
    rw [h.depth, countP_boundaries, Nat.zero_add]
  have hle := h.limit limit hlimit
  refine and_congr_right fun _ => ?_
  rw [Machine.mayCall, hlimit, Option.all_some, decide_eq_false_iff_not]
  omega

/-- A run exceeds its limit if without one it comes to begin a call while so many are active. -/
theorem exists_overflows_iff {final : Awaited} {scope : ScopeId} (hfit : c.Fits final)
    (hstart : c.Returns scope 0) (hlimit : c.machine.limit = some limit) :
    (∃ k line, ((Config.step .byDistance)^[k] c).Overflows line) ↔
      ∃ k c' f args, (Config.step .byDistance)^[k] (c.withLimit none) = c' ∧
        c'.Calls f args ∧ c'.activeCalls = limit := by
  have hiff (k line : Nat) : ((Config.step .byDistance)^[k] c).Overflows line ↔ _ :=
    (hfit.iterate_returns .byDistance hstart k).1.overflows_iff
      ((iterate_limit .byDistance k c).trans hlimit)
  have hle : ∀ k ∈ (none : Option Nat), limit ≤ k := by simp
  constructor
  · rintro ⟨k, line, hover⟩
    obtain ⟨⟨f, args, hcall⟩, hactive⟩ := (hiff k line).mp hover
    exact ⟨k, _, f, args, iterate_withLimit hlimit hle hover.not_before, ⟨⟨line, hcall⟩, rfl⟩, hactive⟩
  · rintro ⟨k, c', f, args, hreach, ⟨⟨line, hcall⟩, -⟩, hactive⟩
    by_contra hno
    rw [iterate_withLimit hlimit hle fun j _ line' h => hno ⟨j, line', h⟩] at hreach
    subst hreach
    exact hno ⟨k, line, (hiff k line).mpr ⟨⟨f, args, hcall⟩, hactive⟩⟩

/-- Only a run that exceeds its limit ends so. -/
theorem exists_overflows_of_runFor {m : Machine} (hc : ∀ e, c.control ≠ .done (.failed e))
    (h : c.runFor .byDistance n = some (.failed ⟨.stackOverflow, line⟩, m)) :
    ∃ k, ((Config.step .byDistance)^[k] c).Overflows line := by
  obtain ⟨k, -, hraises⟩ := exists_raises hc
    (congrArg Config.control (runFor_eq_some.mp h))
  exact ⟨k, hraises.overflows⟩

end Config

namespace Machine

/-- A program fails as its run does. -/
theorem exists_runFor_of_interpret {m m' : Machine} {program : List Stmt} {steps : Nat}
    {e? : Option RuntimeError} (h : m.interpret steps program = some (e?, m')) :
    ∃ s m₁, Config.runFor .byDistance steps ⟨.program program, [], m⟩ = some (s, m₁) ∧
      m'.output = m₁.output ∧ ∀ e, e? = some e ↔ s = .failed e := by
  obtain ⟨⟨s, m₁⟩, hrun, hend⟩ := Option.map_eq_some_iff.mp h
  refine ⟨s, m₁, hrun, ?_⟩
  cases s <;> cases hend <;> simp [reset]

theorem interpret_of_failed {m m₁ : Machine} {program : List Stmt} {steps : Nat} {e : RuntimeError}
    (h : Config.runFor .byDistance steps ⟨.program program, [], m⟩ = some (.failed e, m₁)) :
    m.interpret steps program = some (some e, m₁.reset) := by
  rw [interpret, run, h]
  rfl

/-- A limit of calls only cuts runs off: a run that does not exceed it ends the same way under a higher
limit or under none, one that exceeds it has written the beginning of what it writes under a higher limit,
and it exceeds the limit if without one it comes to begin a call while so many calls are active. -/
theorem interpret_limit (m : Machine) (hdepth : m.depth = 0) (program : List Stmt) (limit : Nat) :
    (∀ higher : Option Nat, (∀ k ∈ higher, limit ≤ k) → ∀ steps e? m₁,
      interpret steps { m with limit := some limit } program = some (e?, m₁) →
        ((∀ line, e? ≠ some ⟨.stackOverflow, line⟩) →
          interpret steps { m with limit := higher } program =
            some (e?, { m₁ with limit := higher })) ∧
        ((∃ line, e? = some ⟨.stackOverflow, line⟩) → ∀ steps' e?' m₂,
          interpret steps' { m with limit := higher } program = some (e?', m₂) →
            ∃ written more, m₁.output.bytes = m.output.bytes ++ written ∧
              m₂.output.bytes = m.output.bytes ++ (written ++ more))) ∧
    ((∃ steps line m₁, interpret steps { m with limit := some limit } program =
        some (some ⟨.stackOverflow, line⟩, m₁)) ↔
      ∃ k c f args, (Config.step .byDistance)^[k] ⟨.program program, [], { m with limit := none }⟩ = c ∧
        c.Calls f args ∧ c.activeCalls = limit) := by
  let c : Config := ⟨.program program, [], { m with limit := some limit }⟩
  have hc : ∀ e, c.control ≠ .done (.failed e) := nofun
  have hfit : c.Fits .statement := by rintro _ ⟨⟩; rfl
  have hstart : c.Returns m.current 0 := ⟨rfl, hdepth, fun _ _ => hdepth ▸ Nat.zero_le _⟩
  refine ⟨fun higher hle steps e? m₁ hrun => ⟨fun he => ?_, ?_⟩,
    Iff.trans ⟨?_, ?_⟩ (Config.exists_overflows_iff hfit hstart rfl)⟩
  · obtain ⟨⟨s, m'⟩, hrun', hend⟩ := Option.map_eq_some_iff.mp hrun
    have hs : ∀ line, s ≠ .failed ⟨.stackOverflow, line⟩ := by
      rintro line rfl
      cases hend
      exact he line rfl
    have hhigher : Config.runFor .byDistance steps ⟨.program program, [], { m with limit := higher }⟩ =
        some (s, { m' with limit := higher }) :=
      Config.runFor_withLimit (c := c) rfl hle hrun' hs
    rw [interpret, run, hhigher]
    cases s <;> cases hend <;> rfl
  · rintro ⟨line, rfl⟩ steps' e?' m₂ hrun₂
    obtain ⟨s, m', hrun', houtput, hs⟩ := exists_runFor_of_interpret hrun
    obtain rfl := (hs _).mp rfl
    obtain ⟨k, hover⟩ := Config.exists_overflows_of_runFor hc hrun'
    obtain ⟨s', m₂', hrun₂', houtput₂, -⟩ := exists_runFor_of_interpret hrun₂
    obtain ⟨written, hwritten⟩ := Config.iterate_output .byDistance k c
    obtain ⟨more, hmore⟩ := Config.exists_output_eq_of_overflows (l := higher) rfl hle hover hrun₂'
    have hlast := (Config.eq_of_overflows hover hrun').2
    refine ⟨written, more, by rw [houtput, hlast, hwritten], ?_⟩
    rw [houtput₂, hmore, hwritten, ByteArray.append_assoc]
  · rintro ⟨steps, line, m₁, hrun⟩
    obtain ⟨s, m', hrun', -, hs⟩ := exists_runFor_of_interpret hrun
    obtain rfl := (hs _).mp rfl
    obtain ⟨k, hover⟩ := Config.exists_overflows_of_runFor hc hrun'
    exact ⟨k, line, hover⟩
  · rintro ⟨k, line, hover⟩
    obtain ⟨steps, m', hrun, -⟩ := Config.exists_runFor_of_overflows hover
    exact ⟨steps, line, _, interpret_of_failed hrun⟩

/-- A function without an end writes on until the limit: `fun f() { print true; f(); } f();`. -/
theorem interpret_limit_endless :
    ∃ (m : Machine) (program : List Stmt) (m₁ m₂ : Machine) (written more : ByteArray),
      m.depth = 0 ∧
      interpret 40 { m with limit := some 1 } program = some (some ⟨.stackOverflow, 1⟩, m₁) ∧
      interpret 40 { m with limit := some 2 } program = some (some ⟨.stackOverflow, 1⟩, m₂) ∧
      m₁.output.bytes = m.output.bytes ++ written ∧
      m₂.output.bytes = m.output.bytes ++ (written ++ more) ∧
      ∃ k c f args, (Config.step .byDistance)^[k] ⟨.program program, [], { m with limit := none }⟩ = c ∧
        c.Calls f args ∧ c.activeCalls = 1 := by
  let m := start none (.empty none)
  let program : List Stmt := [.function 1 "f" []
      [.print 1 (.literal 1 (.bool true)), .expression 1 (.call 1 (.reference 1 "f" 0) [])],
    .expression 1 (.call 1 (.reference 1 "f" 1) [])]
  have hone : (interpret 40 { m with limit := some 1 } program).map Prod.fst =
      some (some ⟨.stackOverflow, 1⟩) := by rfl
  have htwo : (interpret 40 { m with limit := some 2 } program).map Prod.fst =
      some (some ⟨.stackOverflow, 1⟩) := by rfl
  obtain ⟨⟨e, m₁⟩, hrun₁, rfl⟩ := Option.map_eq_some_iff.mp hone
  obtain ⟨⟨e, m₂⟩, hrun₂, rfl⟩ := Option.map_eq_some_iff.mp htwo
  obtain ⟨hcut, hactive⟩ := interpret_limit m rfl program 1
  obtain ⟨written, more, hwritten, hmore⟩ :=
    (hcut (some 2) (by simp) 40 _ m₁ hrun₁).2 ⟨1, rfl⟩ 40 _ m₂ hrun₂
  exact ⟨m, program, m₁, m₂, written, more, rfl, hrun₁, hrun₂, hwritten, hmore,
    hactive.mp ⟨40, 1, m₁, hrun₁⟩⟩

end Machine
end LoxLang
