import LoxLang.Proofs.Machine.Effect

/-!
Restoring: whatever a part of a program ends with, the machine is back in the scope and at the call
depth that it came from.
-/
namespace LoxLang

namespace Frame

def isCall : Frame → Bool
  | call _ => true
  | _ => false

def home (current : ScopeId) : List Frame → ScopeId
  | [] => current
  | block outer :: fs => home outer fs
  | call caller :: fs => home caller fs
  | _ :: fs => home current fs

end Frame

namespace Config

/-- The frames lead back to the scope and to the depth, and the calls on the way are within the limit. -/
structure Returns (scope : ScopeId) (depth : Nat) (c : Config) : Prop where
  home : Frame.home c.machine.current c.boundaries = scope
  depth : c.machine.depth = depth + c.boundaries.countP Frame.isCall
  limit : ∀ n ∈ c.machine.limit, c.machine.depth ≤ n

def LeavesCall (c : Config) : Prop :=
  (∃ s, c.control = .done s) ∧ ∃ caller fs, c.frames = .call caller :: fs

variable {locate : Locator} {scope : ScopeId} {depth : Nat} {c c' : Config} {final : Awaited}

/-- Each effect keeps the way back. -/
theorem Effect.returns (h : c.Effect locate c') (hc : c.Returns scope depth) :
    c'.Returns scope depth := by
  obtain ⟨hhome, hdepth, hlimit⟩ := hc
  cases h with
  | stay output hf | define functions hf | assign hf =>
    exact ⟨by rw [boundaries, hf]; exact hhome, by rw [boundaries, hf]; exact hdepth, hlimit⟩
  | openBlock hf =>
    exact ⟨by rw [boundaries, hf]; exact hhome, by rw [boundaries, hf]; exact hdepth, hlimit⟩
  | @enterCall control frames f args hf hb =>
    rw [Machine.enterCall_eq]
    refine ⟨by rw [boundaries, hb]; exact hhome, ?_, fun n hn => ?_⟩
    · rw [boundaries, hb, List.countP_cons_of_pos rfl, ← Nat.add_assoc, ← hdepth]
    · have hmay : c.machine.limit.all (c.machine.depth < ·) := hf.2
      have hn : c.machine.limit = some n := hn
      rw [hn] at hmay
      exact Nat.succ_le_of_lt (by simpa using hmay)
  | @closeBlock control frames outer hf =>
    have hb : c.boundaries = .block outer :: frames.filter Frame.isBoundary := by
      rw [boundaries, hf]; rfl
    rw [hb] at hhome hdepth
    exact ⟨hhome, hdepth, hlimit⟩
  | @leaveCall control frames caller hf =>
    have hb : c.boundaries = .call caller :: frames.filter Frame.isBoundary := by
      rw [boundaries, hf]; rfl
    rw [hb] at hhome hdepth
    rw [List.countP_cons_of_pos rfl] at hdepth
    refine ⟨hhome, ?_, fun n hn => Nat.le_trans (Nat.sub_le _ 1) (hlimit n hn)⟩
    change c.machine.depth - 1 = _
    rw [hdepth]
    rfl

/-- A call that ends was begun. -/
theorem Returns.depth_pos (hc : c.Returns scope depth) (h : c.LeavesCall) : 0 < c.machine.depth := by
  obtain ⟨-, caller, fs, hf⟩ := h
  rw [hc.depth, boundaries, hf, List.filter_cons_of_pos rfl, List.countP_cons_of_pos rfl]
  exact Nat.succ_pos _

/-- All the way the calls stay within the limit, and the table and the limit stay what they are. -/
theorem Fits.iterate_returns (locate : Locator) (hfit : c.Fits final) (hc : c.Returns scope depth) (n : Nat) :
    ((Config.step locate)^[n] c).Returns scope depth ∧
      ((Config.step locate)^[n] c).machine.distances = c.machine.distances ∧
      ((Config.step locate)^[n] c).machine.limit = c.machine.limit := by
  induction n generalizing c with
  | zero => exact ⟨hc, rfl, rfl⟩
  | succ n ih =>
    have hkept := step_leaves locate c
    obtain ⟨hr, hd, hl⟩ := ih hfit.step (hfit.effect.returns hc)
    exact ⟨hr, hd.trans hkept.distances, hl.trans hkept.limit⟩

/-- Once all frames are left, the machine is where it came from. -/
theorem Returns.of_done {s : Signal} {m : Machine} (h : Returns scope depth ⟨.done s, [], m⟩) :
    m.current = scope ∧ m.depth = depth :=
  ⟨h.home, h.depth⟩

end Config

theorem Part.returns_start (p : Part) {m : Machine} (hm : ∀ n ∈ m.limit, m.depth ≤ n) :
    (p.start m).Returns m.current m.depth := by
  cases p <;> exact ⟨rfl, rfl, hm⟩

/-- Whatever a part of a program ends with, the machine is back in its scope and at its depth, with the
table and the limit it had; on the way no call exceeds the limit, and none ends that was not begun. So
after a program, failed or not, a machine between two programs is one again without being reset. -/
theorem Machine.run_restores (m : Machine) (hm : ∀ n ∈ m.limit, m.depth ≤ n) :
    (∀ (p : Part) (k : Nat) (c : Config), (Config.step .byDistance)^[k] (p.start m) = c →
      (∀ n ∈ m.limit, c.machine.depth ≤ n) ∧ (c.LeavesCall → 0 < c.machine.depth)) ∧
    (∀ (p : Part) (steps : Nat) (signal : Signal) (m' : Machine),
      Config.runFor .byDistance steps (p.start m) = some (signal, m') →
        m'.current = m.current ∧ m'.depth = m.depth ∧ m'.distances = m.distances ∧
          m'.limit = m.limit) ∧
    (m.current = globals → m.depth = 0 → ∀ (steps : Nat) (program : List Stmt),
      (∀ e? m', m.interpret steps program = some (e?, m') → m'.current = globals ∧ m'.depth = 0) ∧
      ∀ signal m', m.run steps (.program program) = some (signal, m') → m'.reset = m') := by
  refine ⟨?_, ?_, fun hcurrent hdepth steps program => ?_⟩
  · rintro p k c rfl
    obtain ⟨hr, -, hl⟩ := (p.fits_start m).iterate_returns .byDistance
      (p.returns_start hm) k
    have hlimit : (p.start m).machine.limit = m.limit := by cases p <;> rfl
    exact ⟨fun n hn => hr.limit n (by rw [hl, hlimit]; exact hn), hr.depth_pos⟩
  · intro p steps signal m' hrun
    obtain ⟨hr, hd, hl⟩ := (p.fits_start m).iterate_returns .byDistance
      (p.returns_start hm) steps
    rw [Config.runFor_eq_some.mp hrun] at hr hd hl
    obtain ⟨hcur, hdep⟩ := hr.of_done
    cases p <;> exact ⟨hcur, hdep, hd, hl⟩
  · have hback : ∀ signal m', m.run steps (.program program) = some (signal, m') →
        m'.current = globals ∧ m'.depth = 0 := by
      intro signal m' hrun
      have hfit : Config.Fits .statement ⟨.program program, [], m⟩ := by rintro _ ⟨⟩; rfl
      have hstart : Config.Returns m.current m.depth ⟨.program program, [], m⟩ := ⟨rfl, rfl, hm⟩
      have hr := (hfit.iterate_returns .byDistance hstart steps).1
      rw [Config.runFor_eq_some.mp hrun] at hr
      rw [← hcurrent, ← hdepth]
      exact hr.of_done
    refine ⟨fun e? m' hi => ?_, fun signal m' hrun => ?_⟩
    · obtain ⟨⟨signal, m₁⟩, hrun, hm'⟩ := Option.map_eq_some_iff.mp hi
      cases signal with
      | failed e => cases hm'; exact ⟨rfl, rfl⟩
      | _ => cases hm'; exact hback _ _ hrun
    · obtain ⟨hcur, hdep⟩ := hback signal m' hrun
      rw [Machine.reset, ← hcur, ← hdep]

/-- A function that calls itself past the limit fails, and the machine is back. -/
theorem Machine.run_restores_recursion :
    ∃ m', Config.runFor .byDistance 40 ((Part.body
        [.function 1 "f" [] [.expression 1 (.call 1 (.reference 1 "f" 0) [])],
          .expression 1 (.call 1 (.reference 1 "f" 1) [])] globals).start
            (start (some 1) (.empty none))) = some (.failed ⟨.stackOverflow, 1⟩, m') ∧
      (∀ n ∈ some 1, 0 ≤ n) ∧ m'.current = globals ∧ m'.depth = 0 := by
  let m := start (some 1) (.empty none)
  let p : Part := .body [.function 1 "f" [] [.expression 1 (.call 1 (.reference 1 "f" 0) [])],
    .expression 1 (.call 1 (.reference 1 "f" 1) [])] globals
  have hm : ∀ n ∈ m.limit, m.depth ≤ n := fun n _ => Nat.zero_le n
  have hfailed : (Config.runFor .byDistance 40 (p.start m)).map Prod.fst =
      some (.failed ⟨.stackOverflow, 1⟩) := by rfl
  obtain ⟨⟨signal, m'⟩, hrun, rfl⟩ := Option.map_eq_some_iff.mp hfailed
  obtain ⟨hcurrent, hdepth, -, -⟩ := (run_restores m hm).2.1 p 40 _ m' hrun
  exact ⟨m', hrun, fun n _ => Nat.zero_le n, hcurrent, hdepth⟩

end LoxLang
