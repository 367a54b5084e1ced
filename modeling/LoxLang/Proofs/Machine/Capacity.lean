import LoxLang.Proofs.Machine.Limit

/-!
The capacity of the output. Until a text goes beyond it, a run is the one without a capacity; the print
that writes this text keeps what fits and ends the run.
-/
namespace LoxLang

section Bytes
variable {a b : ByteArray} {n : Nat}

theorem extract_of_size_le (h : a.size ≤ n) : a.extract 0 n = a := by
  rw [← Nat.max_eq_left h, ByteArray.extract_zero_max_size]

/-- The first bytes of a row that is longer than its first part. -/
theorem extract_append_of_le (h : a.size ≤ n) :
    (a ++ b).extract 0 n = a ++ b.extract 0 (n - a.size) := by
  rw [ByteArray.extract_append, extract_of_size_le h, Nat.zero_sub]

end Bytes

namespace Output

variable {o : Output} {text : String} {n : Nat}

/-- A text that ends within the first `n` bytes does not notice an end behind them. -/
theorem agrees_of_le (hopen : o.capacity = none) (h : o.bytes.size + text.utf8ByteSize ≤ n) :
    o.Agrees { capacity := fun _ => some n } text := by
  have hall : text.toByteArray.extract 0 (n - o.bytes.size) = text.toByteArray := by
    refine extract_of_size_le ?_
    rw [String.size_toByteArray]
    omega
  constructor
  · simp [fits, adjust, hopen, h]
  · simp [write, adjust, hopen, hall]

theorem write_capacity (o : Output) (text : String) : (o.write text).capacity = o.capacity := by
  unfold write
  split <;> rfl

theorem size_write (hopen : o.capacity = none) (text : String) :
    (o.write text).bytes.size = o.bytes.size + text.utf8ByteSize := by
  simp [write, hopen]

end Output

namespace Config

variable {c : Config} {n capacity line steps : Nat} {text : String}

def withCapacity (c : Config) (capacity : Option Nat) : Config :=
  c.adjust { capacity := fun _ => capacity }

def written (c : Config) : Nat := c.machine.output.bytes.size

structure Crosses (c : Config) (capacity line : Nat) (text : String) : Prop where
  prints : c.Prints line text
  begins : c.written ≤ capacity
  ends : capacity < c.written + text.utf8ByteSize

theorem Prints.step_output (h : c.Prints line text) (locate : Locator) :
    (c.step locate).machine.output = c.machine.output.write text := by
  obtain ⟨control, frames, m⟩ := c
  obtain ⟨v, fs, rfl, rfl, rfl⟩ := h
  simp only [step, pop, resume, print]
  split <;> rfl

/-- Only a print writes: with no room at all nothing is written, and nothing but a print notices. -/
theorem step_written (h : ∀ line text, ¬c.Prints line text) :
    (c.step .byDistance).machine.output.bytes = c.machine.output.bytes := by
  have hstep : (c.withCapacity (some 0)).step .byDistance =
      (c.step .byDistance).withCapacity (some 0) :=
    step_adjust (fun _ _ _ _ => rfl) (fun _ _ => rfl) fun line text hp => absurd hp (h line text)
  have hleaves := (step_leaves .byDistance (c.withCapacity (some 0))).output
  rw [hstep] at hleaves
  obtain hsame | ⟨text, hwrite⟩ := hleaves
  · exact (congrArg Output.bytes hsame :)
  · have hbytes : (c.step .byDistance).machine.output.bytes =
        c.machine.output.bytes ++ text.toUTF8.extract 0 (0 - c.written) :=
      (congrArg Output.bytes hwrite :)
    rw [hbytes, Nat.zero_sub, ByteArray.extract_same, ByteArray.append_empty]

theorem iterate_capacity (locate : Locator) (n : Nat) (c : Config) :
    ((step locate)^[n] c).machine.output.capacity = c.machine.output.capacity := by
  induction n with
  | zero => rfl
  | succ n ih =>
    rw [Function.iterate_succ_apply']
    obtain hsame | ⟨text, hwrite⟩ := (step_leaves locate ((step locate)^[n] c)).output
    · rw [hsame, ih]
    · rw [hwrite, Output.write_capacity, ih]

theorem written_le_iterate (locate : Locator) (n : Nat) (c : Config) :
    c.written ≤ ((step locate)^[n] c).written := by
  obtain ⟨rest, hrest⟩ := iterate_output locate n c
  rw [written, written, hrest, ByteArray.size_append]
  exact Nat.le_add_right _ _

/-- While no more has been written than the capacity holds, it makes no difference. -/
theorem iterate_withCapacity (hopen : c.machine.output.capacity = none)
    (hle : ((step .byDistance)^[n] c).written ≤ capacity) :
    (step .byDistance)^[n] (c.withCapacity (some capacity)) =
      ((step .byDistance)^[n] c).withCapacity (some capacity) := by
  refine iterate_adjust fun k hk => step_adjust (fun _ _ _ _ => rfl) (fun _ _ => rfl)
    fun line text hprints => ?_
  have hopen' := (iterate_capacity .byDistance k c).trans hopen
  refine Output.agrees_of_le hopen' ?_
  obtain ⟨d, rfl⟩ := Nat.exists_eq_add_of_lt hk
  rw [Nat.add_right_comm, Nat.add_comm, Function.iterate_add_apply] at hle
  have hlater := written_le_iterate .byDistance d ((step .byDistance)^[k + 1] c)
  have hnext : ((step .byDistance)^[k + 1] c).written =
      ((step .byDistance)^[k] c).written + text.utf8ByteSize := by
    rw [Function.iterate_succ_apply', written, hprints.step_output, Output.size_write hopen']
    rfl
  exact hnext ▸ Nat.le_trans hlater hle

/-- A run that writes more than the capacity holds has one print that goes beyond it. -/
theorem exists_crosses (hopen : c.machine.output.capacity = none) (hbegins : c.written ≤ capacity)
    (hends : capacity < ((step .byDistance)^[n] c).written) :
    ∃ i < n, ∃ line text, ((step .byDistance)^[i] c).Crosses capacity line text := by
  induction n with
  | zero => exact absurd hends (Nat.not_lt_of_le hbegins)
  | succ n ih =>
    by_cases hbefore : capacity < ((step .byDistance)^[n] c).written
    · obtain ⟨i, hi, hcrosses⟩ := ih hbefore
      exact ⟨i, Nat.lt_succ_of_lt hi, hcrosses⟩
    have hle := Nat.le_of_not_lt hbefore
    rw [Function.iterate_succ_apply'] at hends
    by_cases hprints : ∃ line text, ((step .byDistance)^[n] c).Prints line text
    · obtain ⟨line, text, hprints⟩ := hprints
      rw [written, hprints.step_output,
        Output.size_write ((iterate_capacity .byDistance n c).trans hopen)] at hends
      exact ⟨n, Nat.lt_succ_self n, line, text, hprints, hle, hends⟩
    · have hsame := step_written fun line text h => hprints ⟨line, text, h⟩
      rw [written, hsame] at hends
      exact absurd hends hbefore

/-- The print that goes beyond the capacity keeps what fits and fails. -/
theorem Crosses.step (h : c.Crosses capacity line text) (locate : Locator) :
    (c.withCapacity (some capacity)).step locate =
      ⟨.done (.failed ⟨.outputFull, line⟩), c.frames.tail,
        { c.machine with
          output := ⟨c.machine.output.bytes ++ text.toUTF8.extract 0 (capacity - c.written),
            some capacity⟩ }⟩ := by
  obtain ⟨control, frames, m⟩ := c
  obtain ⟨⟨v, fs, rfl, rfl, rfl⟩, -, hends⟩ := h
  have hfull : ¬m.output.bytes.size + (v.text ++ "\n").utf8ByteSize ≤ capacity :=
    Nat.not_le_of_lt hends
  simp only [Config.step, withCapacity, adjust, pop, resume, print, Machine.adjust, Output.adjust,
    Output.fits, Option.all_some, decide_eq_true_eq, if_neg hfull]
  rfl

/-- A step takes one frame away at most. -/
theorem length_frames_le_step (locate : Locator) (c : Config) :
    c.frames.length ≤ (c.step locate).frames.length + 1 := by
  by_cases hdone : ∃ s, c.control = .done s
  · obtain ⟨control, frames, m⟩ := c
    obtain ⟨s, rfl⟩ := hdone
    cases frames with
    | nil => exact Nat.zero_le _
    | cons f frames => exact Nat.succ_le_succ (suffix_pop s f frames m).length_le
  · exact Nat.le_succ_of_le (suffix_step fun s hs => hdone ⟨s, hs⟩).length_le

/-- A run takes a step for each frame at least. -/
theorem length_frames_le_of_runFor {locate : Locator} {r : Signal × Machine}
    (h : c.runFor locate n = some r) : c.frames.length ≤ n := by
  induction n generalizing c with
  | zero => rw [runFor_zero.mp h]; exact Nat.le_refl _
  | succ n ih =>
    rw [runFor_step] at h
    exact Nat.le_trans (length_frames_le_step locate c) (Nat.succ_le_succ (ih h))

/-- What the print keeps is the rest of the first bytes that the run writes. -/
theorem Crosses.kept {i : Nat} (hopen : c.machine.output.capacity = none)
    (h : ((Config.step .byDistance)^[i] c).Crosses capacity line text) (hi : i < n) :
    ((Config.step .byDistance)^[i] c).machine.output.bytes ++
        text.toUTF8.extract 0 (capacity - ((Config.step .byDistance)^[i] c).written) =
      ((Config.step .byDistance)^[n] c).machine.output.bytes.extract 0 capacity := by
  obtain ⟨d, rfl⟩ := Nat.exists_eq_add_of_lt hi
  have hwrite := h.prints.step_output .byDistance
  have hopen' := (iterate_capacity .byDistance i c).trans hopen
  obtain ⟨more, hmore⟩ := iterate_output .byDistance d ((Config.step .byDistance)^[i + 1] c)
  rw [Function.iterate_succ_apply', hwrite] at hmore
  rw [Nat.add_right_comm, Nat.add_comm, Function.iterate_add_apply, Function.iterate_succ_apply', hmore]
  generalize (Config.step .byDistance)^[i] c = c' at h hopen' ⊢
  have hbytes : (c'.machine.output.write text).bytes = c'.machine.output.bytes ++ text.toUTF8 := by
    simp [Output.write, hopen']
  have hnone : more.extract 0 (capacity - c'.written - text.toUTF8.size) = ByteArray.empty := by
    have hends := h.ends
    rw [ByteArray.extract_eq_empty_iff, String.toUTF8, String.size_toByteArray]
    omega
  rw [hbytes, ByteArray.append_assoc, extract_append_of_le h.begins, ByteArray.extract_append, Nat.zero_sub]
  exact congrArg _ ((ByteArray.append_empty).symm.trans (congrArg _ hnone.symm))

/-- A run that goes beyond the capacity ends there, no later than without a capacity. -/
theorem Crosses.exists_runFor {i : Nat} {r : Signal × Machine}
    (hopen : c.machine.output.capacity = none)
    (h : ((Config.step .byDistance)^[i] c).Crosses capacity line text) (hi : i < steps)
    (hrun : c.runFor .byDistance steps = some r) :
    ∃ m, (c.withCapacity (some capacity)).runFor .byDistance steps =
        some (.failed ⟨.outputFull, line⟩, m) ∧
      m.reset = { ((Config.step .byDistance)^[i] c).machine.reset with
        output := ⟨((Config.step .byDistance)^[i] c).machine.output.bytes ++
          text.toUTF8.extract 0 (capacity - ((Config.step .byDistance)^[i] c).written),
          some capacity⟩ } := by
  have hsame := iterate_withCapacity hopen h.begins
  obtain ⟨d, rfl⟩ := Nat.exists_eq_add_of_le (Nat.le_of_lt hi)
  rw [runFor_iterate] at hrun ⊢
  rw [hsame]
  generalize (Config.step .byDistance)^[i] c = c' at h hrun ⊢
  have hframes := length_frames_le_of_runFor hrun
  have hcontrol := congrArg Config.control (h.step .byDistance)
  obtain ⟨m, hfails, hreset⟩ := exists_runFor_of_failed .byDistance hcontrol
  rw [h.step] at hfails hreset
  refine ⟨m, ?_, hreset⟩
  cases d with
  | zero => exact absurd hi (Nat.lt_irrefl i)
  | succ d =>
    rw [runFor_step, h.step]
    refine runFor_le ?_ hfails
    rw [List.length_tail]
    omega

end Config

namespace Machine

def withCapacity (m : Machine) (capacity : Option Nat) : Machine :=
  { m with output := { m.output with capacity } }

/-- An output with room for only `k` more bytes truncates a run and changes nothing else. It keeps the first
`k` bytes of all that the run writes without an end. If these are all, the run ends with the same outcome and
the same machine. If not, it fails at the one print whose text goes beyond them, with the machine as it is at
that print but for the bytes that still fit. -/
theorem interpret_capacity (m : Machine) (program : List Stmt) (k steps : Nat) {e? : Option RuntimeError}
    {m₁ : Machine} (h : (m.withCapacity none).interpret steps program = some (e?, m₁)) :
    ∃ written, m₁.output.bytes = m.output.bytes ++ written ∧
      (written.size ≤ k →
        (m.withCapacity (some (m.output.bytes.size + k))).interpret steps program =
          some (e?, m₁.withCapacity (some (m.output.bytes.size + k)))) ∧
      (k < written.size → ∃ i c line text,
        (Config.step .byDistance)^[i] ⟨.program program, [], m.withCapacity none⟩ = c ∧
        c.Crosses (m.output.bytes.size + k) line text ∧
        (m.withCapacity (some (m.output.bytes.size + k))).interpret steps program =
          some (some ⟨.outputFull, line⟩, { c.machine.reset with
            output := ⟨m.output.bytes ++ written.extract 0 k, some (m.output.bytes.size + k)⟩ })) := by
  let c₀ : Config := ⟨.program program, [], m.withCapacity none⟩
  obtain ⟨⟨s, m'⟩, hrun, hend⟩ := Option.map_eq_some_iff.mp h
  have hrun : c₀.runFor .byDistance steps = some (s, m') := hrun
  have hlast := Config.runFor_eq_some.mp hrun
  have houtput : m₁.output = m'.output := by cases s <;> cases hend <;> rfl
  obtain ⟨written, hwritten⟩ := Config.iterate_output .byDistance steps c₀
  rw [hlast] at hwritten
  have hsize : m'.output.bytes.size = m.output.bytes.size + written.size := by
    rw [hwritten, ByteArray.size_append]
    rfl
  refine ⟨written, houtput ▸ hwritten, fun hle => ?_, fun hlt => ?_⟩
  · have hfits : ((Config.step .byDistance)^[steps] c₀).written ≤ m.output.bytes.size + k := by
      rw [hlast, Config.written, hsize]
      omega
    have hsame := Config.iterate_withCapacity (c := c₀) rfl hfits
    rw [hlast] at hsame
    have hrun' : Config.runFor .byDistance steps
        ⟨.program program, [], m.withCapacity (some (m.output.bytes.size + k))⟩ =
          some (s, m'.withCapacity (some (m.output.bytes.size + k))) := Config.runFor_eq_some.mpr hsame
    rw [interpret, run, hrun']
    cases s <;> cases hend <;> rfl
  · have hgoes : m.output.bytes.size + k < ((Config.step .byDistance)^[steps] c₀).written := by
      rw [hlast, Config.written, hsize]
      omega
    obtain ⟨i, hi, line, text, hcrosses⟩ :=
      Config.exists_crosses (c := c₀) rfl (Nat.le_add_right m.output.bytes.size k) hgoes
    obtain ⟨m₂, hfails, hreset⟩ := hcrosses.exists_runFor rfl hi hrun
    have hkept := hcrosses.kept rfl hi
    have hfirst : m'.output.bytes.extract 0 (m.output.bytes.size + k) =
        m.output.bytes ++ written.extract 0 k := by
      rw [hwritten]
      exact (extract_append_of_le (Nat.le_add_right _ k)).trans (by rw [Nat.add_sub_cancel_left]; rfl)
    rw [hlast, hfirst] at hkept
    rw [hkept] at hreset
    exact ⟨i, _, line, text, rfl, hcrosses, hreset ▸ interpret_of_failed hfails⟩

/-- `print true; print false; var a;` with room for seven bytes stops within the second text. -/
theorem interpret_capacity_within :
    ∃ (m : Machine) (program : List Stmt) (m₁ m₂ : Machine) (i : Nat) (c : Config) (text : String),
      (m.withCapacity none).interpret 20 program = some (none, m₁) ∧
      m₁.output.bytes = "true\nfalse\n".toUTF8 ∧
      (Config.step .byDistance)^[i] ⟨.program program, [], m.withCapacity none⟩ = c ∧
      c.Crosses 7 2 text ∧
      (m.withCapacity (some 7)).interpret 20 program = some (some ⟨.outputFull, 2⟩, m₂) ∧
      m₂.output.bytes = "true\nfa".toUTF8 ∧ m₂.store = c.machine.store := by
  let m := start none (.empty none)
  let program : List Stmt := [.print 1 (.literal 1 (.bool true)), .print 2 (.literal 2 (.bool false)),
    .var 3 "a" none]
  have hopen : ((m.withCapacity none).interpret 20 program).map (fun r => (r.1, r.2.output.bytes)) =
      some (none, "true\nfalse\n".toUTF8) := by rfl
  have hfull : ((m.withCapacity (some 7)).interpret 20 program).map Prod.fst =
      some (some ⟨.outputFull, 2⟩) := by rfl
  obtain ⟨⟨e?, m₁⟩, hrun, hend⟩ := Option.map_eq_some_iff.mp hopen
  obtain ⟨rfl, hbytes⟩ := Prod.mk.inj hend
  obtain ⟨written, hwritten, -, hcrossed⟩ := interpret_capacity m program 7 20 hrun
  obtain rfl : written = "true\nfalse\n".toUTF8 :=
    (hbytes.symm.trans (hwritten.trans ByteArray.empty_append)).symm
  obtain ⟨i, c, line, text, hreach, hcrosses, hlimited⟩ := hcrossed (by decide)
  obtain rfl : line = 2 := by
    rw [show m.output.bytes.size + 7 = 7 from rfl] at hlimited
    rw [hlimited] at hfull
    cases hfull
    rfl
  exact ⟨m, program, m₁, _, i, c, text, hrun, hbytes, hreach, hcrosses, hlimited, by rfl, rfl⟩

end Machine

end LoxLang
