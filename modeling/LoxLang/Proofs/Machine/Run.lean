import Mathlib.Logic.Function.Iterate
import LoxLang.Machine.Run
import LoxLang.Proofs.Machine.Preservation

/-!
Runs of scoped configurations: they stay scoped, the table stays as it was, and a program that ends
without an error has come to its end, in the globals.
-/
namespace LoxLang

namespace Machine

/-- Parameters are bound in the store; all else stays. -/
theorem bindParams_eq (params : List Name) (args : List Value) (m : Machine) :
    bindParams params args m = { m with store := (bindParams params args m).store } := by
  induction params generalizing args m with
  | nil => rfl
  | cons name names ih =>
    cases args with
    | nil => rfl
    | cons v vs => exact ih vs (m.define name v)

theorem enterCall_eq (m : Machine) (f : Function) (args : List Value) :
    m.enterCall f args =
      { m with
        store := (m.enterCall f args).store
        current := m.store.next
        depth := m.depth + 1 } :=
  bindParams_eq ..

theorem getElem?_foldl_insert {entries : List (NodeId × Nat)} {id : NodeId} {d : Nat}
    (h : ∀ e ∈ entries, e.1 = id → e.2 = d) (T : Distances) :
    (entries.foldl (fun T e => T.insert e.1 e.2) T)[id]? =
      if id ∈ entries.map (·.1) then some d else T[id]? := by
  induction entries generalizing T with
  | nil => rfl
  | cons e es ih =>
    rw [List.foldl_cons, ih (fun f hf => h f (List.mem_cons_of_mem _ hf)), Std.TreeMap.getElem?_insert]
    by_cases he : e.1 = id
    · simp [he, h e List.mem_cons_self he]
    · have hne : id ≠ e.1 := Ne.symm he
      simp only [List.map_cons, List.mem_cons, hne, false_or, Std.LawfulEqOrd.compare_eq_iff_eq, he,
        if_false]

/-- New entries come before the old ones. -/
theorem getElem?_addDistances (m : Machine) (D : Distances) (id : NodeId) :
    (m.addDistances D).distances[id]? = D[id]?.or m.distances[id]? := by
  have hmem (d : Nat) : (id, d) ∈ D.toList ↔ D[id]? = some d :=
    Std.TreeMap.mem_toList_iff_getElem?_eq_some
  unfold addDistances
  dsimp only
  rw [Std.TreeMap.foldl_eq_foldl_toList]
  cases hd : D[id]? with
  | none =>
    rw [getElem?_foldl_insert (d := 0), if_neg]
    · rfl
    · rintro h
      obtain ⟨⟨i, d⟩, he, rfl⟩ := List.mem_map.mp h
      rw [(hmem d).mp he] at hd
      cases hd
    · rintro ⟨i, d⟩ he rfl
      rw [(hmem d).mp he] at hd
      cases hd
  | some d =>
    rw [getElem?_foldl_insert (d := d), if_pos]
    · rfl
    · exact List.mem_map.mpr ⟨(id, d), (hmem d).mpr hd, rfl⟩
    · rintro ⟨i, e⟩ he rfl
      rw [(hmem e).mp he] at hd
      exact Option.some_inj.mp hd

/-- A machine starts with globals that bind nothing. -/
theorem read?_start (limit : Option Nat) (output : Output) (id : ScopeId) (n : Name) :
    (start limit output).store.read? id n = none := by
  rw [start, Store.read?_alloc]
  simp [Store.read?, Store.empty]

theorem scoped_start (Q : Layers → Name → NodeId → Prop) (limit : Option Nat) (output : Output) :
    (start limit output).store.Scoped Q fun _ => [] := by
  refine ⟨Nat.one_pos, rfl, fun id n v hv => ?_, fun id n hn => ?_⟩
  · rw [read?_start] at hv
    cases hv
  · rw [read?_start] at hn
    cases hn

end Machine

namespace Config

variable {locate : Locator} {Q : Layers → Name → NodeId → Prop}

structure Leaves (m m' : Machine) : Prop where
  distances : m'.distances = m.distances
  limit : m'.limit = m.limit
  output : m'.output = m.output ∨ ∃ text, m'.output = m.output.write text

theorem leaves_ofExcept (line : Nat) (r : Except Mishap Value) (frames : List Frame) (m : Machine) :
    Leaves m (ofExcept line r frames m).machine := by
  cases r <;> exact ⟨rfl, rfl, .inl rfl⟩

theorem leaves_arguments (line : Nat) (callee : Value) (args : List Value) (rest : List Expr)
    (frames : List Frame) (m : Machine) :
    Leaves m (arguments line callee args rest frames m).machine := by
  unfold arguments
  split
  · unfold apply
    split
    · split <;> exact ⟨rfl, rfl, .inl rfl⟩
    · exact ⟨rfl, rfl, .inl rfl⟩
  · exact ⟨rfl, rfl, .inl rfl⟩

theorem leaves_resume (v : Value) (f : Frame) (frames : List Frame) (m : Machine) :
    Leaves m (resume locate v f frames m).machine := by
  cases f with
  | unary line op => exact leaves_ofExcept line _ frames m
  | right line op left => exact leaves_ofExcept line _ frames m
  | callee line args => exact leaves_arguments line v [] args frames m
  | argument line callee args rest => exact leaves_arguments line callee _ rest frames m
  | logical | assign | test => simp only [resume]; split <;> exact ⟨rfl, rfl, .inl rfl⟩
  | branch =>
    simp only [resume]
    split
    · exact ⟨rfl, rfl, .inl rfl⟩
    · split <;> exact ⟨rfl, rfl, .inl rfl⟩
  | print => simp only [resume, print]; split <;> exact ⟨rfl, rfl, .inr ⟨_, rfl⟩⟩
  | _ => exact ⟨rfl, rfl, .inl rfl⟩

theorem step_leaves (locate : Locator) (c : Config) : Leaves c.machine (c.step locate).machine := by
  obtain ⟨control, frames, m⟩ := c
  cases control with
  | eval e =>
    simp only [step]
    unfold eval
    split <;> try exact ⟨rfl, rfl, .inl rfl⟩
    split <;> exact ⟨rfl, rfl, .inl rfl⟩
  | exec s =>
    simp only [step]
    unfold exec
    split <;> exact ⟨rfl, rfl, .inl rfl⟩
  | execAll ss => cases ss <;> exact ⟨rfl, rfl, .inl rfl⟩
  | program ss => cases ss <;> exact ⟨rfl, rfl, .inl rfl⟩
  | call f args line =>
    simp only [step, call]
    split
    · rw [Machine.enterCall_eq]
      exact ⟨rfl, rfl, .inl rfl⟩
    · exact ⟨rfl, rfl, .inl rfl⟩
  | done s =>
    cases frames with
    | nil => exact ⟨rfl, rfl, .inl rfl⟩
    | cons f frames =>
      cases s with
      | value v => exact leaves_resume v f frames m
      | _ => cases f <;> exact ⟨rfl, rfl, .inl rfl⟩

/-- Only between programs does the table change. -/
theorem step_distances (locate : Locator) (c : Config) :
    (c.step locate).machine.distances = c.machine.distances :=
  (step_leaves locate c).distances

def result? : Config → Option (Signal × Machine)
  | ⟨.done s, [], m⟩ => some (s, m)
  | _ => none

theorem result?_eq_some {c : Config} {s : Signal} {m : Machine} :
    c.result? = some (s, m) ↔ c = ⟨.done s, [], m⟩ := by
  unfold result?
  split
  · simp
  · next h => simpa using h s m

/-- A finished configuration steps to itself. -/
theorem runFor_step (n : Nat) (c : Config) :
    c.runFor locate (n + 1) = (c.step locate).runFor locate n := by
  conv_lhs => unfold runFor
  split
  · cases n <;> rfl
  · next h _ => cases h
  · next h _ => cases h; rfl

/-- A run ends where its steps lead. -/
theorem runFor_eq_result? (n : Nat) (c : Config) :
    c.runFor locate n = ((step locate)^[n] c).result? := by
  induction n generalizing c with
  | zero =>
    obtain ⟨control, frames, m⟩ := c
    cases control <;> cases frames <;> rfl
  | succ n ih => rw [runFor_step, ih, Function.iterate_succ_apply]

theorem runFor_eq_some {n : Nat} {c : Config} {s : Signal} {m : Machine} :
    c.runFor locate n = some (s, m) ↔ (step locate)^[n] c = ⟨.done s, [], m⟩ := by
  rw [runFor_eq_result?, result?_eq_some]

theorem runFor_zero {c : Config} {s : Signal} {m : Machine} :
    c.runFor locate 0 = some (s, m) ↔ c = ⟨.done s, [], m⟩ := runFor_eq_some

theorem Scoped.iterate {c : Config} (h : c.Scoped Q) (hl : locate.Finds) (n : Nat) :
    ((Config.step locate)^[n] c).Scoped Q := by
  induction n generalizing c with
  | zero => exact h
  | succ n ih => exact ih (h.step hl)

theorem iterate_distances (locate : Locator) (n : Nat) (c : Config) :
    ((step locate)^[n] c).machine.distances = c.machine.distances := by
  induction n generalizing c with
  | zero => rfl
  | succ n ih => rw [Function.iterate_succ_apply, ih, step_distances]

theorem distances_of_runFor {n : Nat} {c : Config} {s : Signal} {m : Machine}
    (h : c.runFor locate n = some (s, m)) : m.distances = c.machine.distances := by
  have hkept := iterate_distances locate n c
  rwa [runFor_eq_some.mp h] at hkept

/-- A program that has ended without an error has left all scopes but the globals. -/
theorem Scoped.current_of_done {s : Signal} {m : Machine} (h : Scoped Q ⟨.done s, [], m⟩)
    (hs : ∀ e, s ≠ .failed e) : m.current = globals := by
  obtain ⟨W, -, hc⟩ := h
  cases s with
  | value v =>
    obtain ⟨ls, -, -, hf⟩ := hc
    cases hf
  | normal =>
    obtain ⟨hcur, -⟩ | ⟨ls, -, hf⟩ := hc
    · exact hcur
    · cases hf
  | returned v =>
    obtain ⟨ls, -, -, hf⟩ := hc
    cases hf
  | failed e => exact absurd rfl (hs e)

theorem suffix_eval (e : Expr) (frames : List Frame) (m : Machine) :
    frames <:+ (eval locate e frames m).frames := by
  cases e with
  | reference line name id => simp only [eval]; split <;> exact List.suffix_rfl
  | literal | grouping => exact List.suffix_rfl
  | _ => exact List.suffix_cons ..

theorem suffix_exec (s : Stmt) (frames : List Frame) (m : Machine) :
    frames <:+ (exec s frames m).frames := by
  cases s with
  | var line name initializer =>
    cases initializer with
    | none => exact List.suffix_rfl
    | some => exact List.suffix_cons ..
  | result line value =>
    cases value with
    | none => exact List.suffix_rfl
    | some => exact List.suffix_cons ..
  | function => exact List.suffix_rfl
  | _ => exact List.suffix_cons ..

theorem suffix_arguments (line : Nat) (callee : Value) (args : List Value) (rest : List Expr)
    (frames : List Frame) (m : Machine) :
    frames <:+ (arguments line callee args rest frames m).frames := by
  cases rest with
  | cons => exact List.suffix_cons ..
  | nil =>
    simp only [arguments, apply]
    split
    · split <;> exact List.suffix_rfl
    · exact List.suffix_rfl

theorem suffix_resume (v : Value) (f : Frame) (frames : List Frame) (m : Machine) :
    frames <:+ (resume locate v f frames m).frames := by
  cases f with
  | unary | right => simp only [resume, ofExcept]; split <;> exact List.suffix_rfl
  | left => exact List.suffix_cons ..
  | logical | assign => simp only [resume]; split <;> exact List.suffix_rfl
  | callee | argument => exact suffix_arguments ..
  | print => simp only [resume, print]; split <;> exact List.suffix_rfl
  | branch =>
    simp only [resume]
    split
    · exact List.suffix_rfl
    · split <;> exact List.suffix_rfl
  | test =>
    simp only [resume]
    split
    · exact List.suffix_cons ..
    · exact List.suffix_rfl
  | _ => exact List.suffix_rfl

/-- A step takes at most one frame away. -/
theorem suffix_pop (s : Signal) (f : Frame) (frames : List Frame) (m : Machine) :
    frames <:+ (pop locate s f frames m).frames := by
  cases s with
  | value v => exact suffix_resume v f frames m
  | normal =>
    cases f with
    | again => exact List.suffix_cons ..
    | _ => exact List.suffix_rfl
  | returned | failed => cases f <;> exact List.suffix_rfl

/-- Without a signal it takes none. -/
theorem suffix_step {c : Config} (h : ∀ s, c.control ≠ .done s) :
    c.frames <:+ (c.step locate).frames := by
  obtain ⟨control, frames, m⟩ := c
  cases control with
  | eval e => exact suffix_eval e frames m
  | exec s => exact suffix_exec s frames m
  | execAll ss =>
    cases ss with
    | nil => exact List.suffix_rfl
    | cons => exact List.suffix_cons ..
  | program ss =>
    cases ss with
    | nil => exact List.suffix_rfl
    | cons => exact List.suffix_cons ..
  | call f args line =>
    simp only [step, call]
    split
    · exact List.suffix_cons ..
    · exact List.suffix_rfl
  | done s => exact absurd rfl (h s)

/-- The frame at the bottom is that of the program. -/
theorem eq_program_of_allScoped {st : Store} {W : Labels} {awaited : Awaited} {ls : Layers} {f : Frame}
    (h : Frame.AllScoped Q st W awaited ls [f]) : awaited = .statement ∧ ∃ ss, f = .program ss := by
  cases awaited <;> cases f <;> simp_all [Frame.AllScoped]

/-- Only the end of the program is followed by an end without an error. -/
theorem Scoped.eq_program_of_step {c : Config} {s : Signal} {m : Machine} (h : c.Scoped Q)
    (hstep : c.step locate = ⟨.done s, [], m⟩) (hs : ∀ e, s ≠ .failed e)
    (hc : c ≠ ⟨.done s, [], m⟩) : c = ⟨.program [], [], m⟩ := by
  obtain ⟨W, -, hcontrol⟩ := h
  have hframes : (c.step locate).frames = [] := congrArg frames hstep
  obtain ⟨control, frames, m₀⟩ := c
  have hnil (hd : ∀ t, control ≠ .done t) : frames = [] :=
    List.suffix_nil.mp (hframes ▸ suffix_step (c := ⟨control, frames, m₀⟩) hd)
  cases control with
  | eval e => obtain rfl := hnil nofun; obtain ⟨ls, -, -, hf⟩ := hcontrol; cases hf
  | exec stmt => obtain rfl := hnil nofun; obtain ⟨ls, -, -, hf⟩ := hcontrol; cases hf
  | execAll ss => obtain rfl := hnil nofun; obtain ⟨ls, -, -, hf⟩ := hcontrol; cases hf
  | call f args line => obtain rfl := hnil nofun; obtain ⟨ls, -, -, -, hf⟩ := hcontrol; cases hf
  | program ss =>
    obtain rfl := hnil nofun
    cases ss with
    | nil => cases hstep; rfl
    | cons => cases hframes
  | done t =>
    cases frames with
    | nil => exact absurd hstep hc
    | cons f frames =>
      obtain rfl : frames = [] := List.suffix_nil.mp (hframes ▸ suffix_pop t f frames m₀)
      cases t with
      | failed e => cases f <;> cases hstep <;> exact absurd rfl (hs e)
      | value v =>
        obtain ⟨ls, -, -, hf⟩ := hcontrol
        cases (eq_program_of_allScoped hf).1
      | normal =>
        obtain ⟨-, hnone⟩ | ⟨ls, -, hf⟩ := hcontrol
        · cases hnone
        · obtain ⟨-, ss, rfl⟩ := eq_program_of_allScoped hf
          cases hstep
      | returned v =>
        obtain ⟨ls, -, -, hf⟩ := hcontrol
        obtain ⟨-, ss, rfl⟩ := eq_program_of_allScoped hf
        cases hstep

/-- A run without an error comes to the end of its program, once, just before it ends. -/
theorem Scoped.reaches_end {n : Nat} {c : Config} {s : Signal} {m : Machine} (h : c.Scoped Q)
    (hl : locate.Finds) (hrun : c.runFor locate n = some (s, m)) (hs : ∀ e, s ≠ .failed e)
    (hc : c ≠ ⟨.done s, [], m⟩) :
    ∃ k < n, (Config.step locate)^[k] c = ⟨.program [], [], m⟩ ∧
      ∀ i < k, ((Config.step locate)^[i] c).control ≠ .program [] := by
  induction n generalizing c with
  | zero => exact absurd (runFor_zero.mp hrun) hc
  | succ n ih =>
    rw [runFor_step] at hrun
    by_cases hstep : c.step locate = ⟨.done s, [], m⟩
    · exact ⟨0, Nat.succ_pos n, h.eq_program_of_step hstep hs hc, nofun⟩
    · obtain ⟨k, hk, hend, hbefore⟩ := ih (h.step hl) hrun hstep
      refine ⟨k + 1, Nat.succ_lt_succ hk, hend, fun i hi => ?_⟩
      cases i with
      | succ i => exact hbefore i (Nat.lt_of_succ_lt_succ hi)
      | zero =>
        -- A program at its end would be over after this step.
        intro hcontrol
        obtain ⟨control, frames, m₀⟩ := c
        obtain rfl : control = .program [] := hcontrol
        obtain ⟨W, -, -, -, rfl⟩ := h
        have hover : (normal [] m₀).runFor locate n = some (.normal, m₀) := by cases n <;> rfl
        have hsame := Option.some_inj.mp (hover.symm.trans hrun)
        cases hsame
        exact hstep rfl

/-- The steps before a run count among its steps. -/
theorem runFor_iterate (locate : Locator) (k n : Nat) (c : Config) :
    c.runFor locate (k + n) = ((step locate)^[k] c).runFor locate n := by
  induction k generalizing c with
  | zero => rw [Nat.zero_add]; rfl
  | succ k ih => rw [Nat.add_right_comm, runFor_step, ih, Function.iterate_succ_apply]

end Config
end LoxLang
