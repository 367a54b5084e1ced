import Mathlib
import LoxLang.Proofs.Session.Reached
import LoxLang.Proofs.Renaming.Pass
import LoxLang.Proofs.Renaming.Step

/-!
Runs of renamed programs: from every state of a session they print the same and end the same.
-/
namespace LoxLang

variable {T : Distances} {x y : Name} {Q : Layers → Name → NodeId → Prop}

/-- A store is like itself as long as no scope exchanges anything. -/
theorem Store.Chain.marked {st : Store} {W : Labels} {id : ScopeId} {ls : Layers}
    (h : st.Chain W id ls) (hm : st.Scoped Q W) : st.Marked (fun _ => false) id .none := by
  intro d a ha
  refine ⟨?_, rfl⟩
  induction ls generalizing id d with
  | nil =>
    obtain rfl : id = globals := h
    cases d with
    | zero => cases ha; exact hm.nonempty
    | succ d => rw [Store.ancestor?, hm.enclosing_globals] at ha; cases ha
  | cons l ls ih =>
    cases d with
    | zero => cases ha; exact h.2.1
    | succ d =>
      obtain ⟨-, -, -, -, outer, -, he, ho⟩ := h
      rw [Store.ancestor?, he] at ha
      exact ih ho d ha

theorem Value.Scoped.alike_self {st : Store} {W : Labels} {v : Value} (h : v.Scoped Q st W)
    (hm : st.Scoped Q W) : Value.Alike T x y st (fun _ => false) v v := by
  cases v with
  | function f =>
    obtain ⟨ls, hc, -⟩ := h
    have hb : Stmt.AllAlike T x y (Marks.none.push false) f.body f.body := by
      rw [Marks.push_false_none]
      exact Stmt.allAlike_self f.body
    have := Value.Alike.function false f.identity f.name f.params (hc.marked hm) hb
    rwa [map_exchange_false] at this
  | _ => exact .same _ nofun

theorem Store.Scoped.alike_self {st : Store} {W : Labels} (h : st.Scoped Q W) :
    Store.Alike T x y (fun _ => false) st st where
  next := rfl
  enclosing _ := rfl
  globals := rfl
  read id n := by
    change Option.Rel _ (st.read? id n) (st.read? id n)
    cases hr : st.read? id n with
    | none => exact .none
    | some v => exact .some ((h.values id n v hr).alike_self h)

namespace Config

def EndAlike (T : Distances) (x y : Name) (r r' : Signal × Machine) : Prop :=
  (∃ M, Signal.Alike T x y r.2.store M r.1 r'.1) ∧ r'.2.output = r.2.output

/-- Configurations that are alike end in the same number of steps, if at all. -/
theorem Alike.runFor {c c' : Config} (h : Config.Alike T x y c c') (hc : c.Scoped Q)
    (hQ : ∀ ls name id, Q ls name id → Bound T ls name id) (n : Nat) :
    Option.Rel (EndAlike T x y) (c.runFor .byDistance n) (c'.runFor .byDistance n) := by
  induction n generalizing c c' with
  | zero =>
    obtain @⟨M, marks, control, control', frames, frames', m, st', h, hcontrol⟩ := h
    have hframes := h.frames
    cases hcontrol with
    | done hs =>
      cases hframes with
      | nil => exact .some ⟨⟨M, hs⟩, rfl⟩
      | _ => exact .none
    | _ => exact .none
  | succ n ih =>
    rw [runFor_step, runFor_step]
    exact ih (h.step hc hQ) (hc.step Locator.finds_byDistance)

end Config

/-- Programs that are alike print the same and end with the same error, if any. -/
theorem Machine.interpret_alike {m : Machine} {program program' : List Stmt}
    (hp : Stmt.AllAlike T x y .none program program') (hc : Config.Scoped Q ⟨.program program, [], m⟩)
    (hT : m.distances = T) (hQ : ∀ ls name id, Q ls name id → Bound T ls name id) (n : Nat) :
    (m.interpret n program').map (fun r => (r.1, r.2.output)) =
      (m.interpret n program).map fun r => (r.1, r.2.output) := by
  obtain ⟨W, hstore, hcurrent, -⟩ := id hc
  have hchain : m.store.Chain W m.current [] := hcurrent
  have hm : m.Alike T x y (fun _ => false) .none m.store [] [] :=
    ⟨hT, hstore.alike_self, hchain.marked hstore, .nil _⟩
  have halike : Config.Alike T x y ⟨.program program, [], m⟩ ⟨.program program', [], m⟩ :=
    .intro hm (.program hp)
  have hend := halike.runFor hc hQ n
  unfold Machine.interpret Machine.run
  generalize Config.runFor .byDistance n ⟨.program program, [], m⟩ = r? at hend
  generalize Config.runFor .byDistance n ⟨.program program', [], m⟩ = r?' at hend
  cases hend with
  | none => rfl
  | @some r r' hr =>
    obtain ⟨s, m₁⟩ := r
    obtain ⟨s', m₁'⟩ := r'
    obtain ⟨⟨M, hs⟩, ho⟩ := hr
    dsimp only at hs ho
    cases hs <;> simp [ho, Machine.reset]

namespace Session

/-- Renaming a local variable or parameter to a name that occurs nowhere in the program leaves the
program accepted with the same table, and in every session it prints the same and ends the same. -/
theorem interpret_renamed {tokens : List Token} {firstId : NodeId} {program' : List Stmt}
    (hids : identifiers tokens ≤ UInt64.size)
    (hT : Scoping.distances (Parsed.ofTokens tokens firstId).program = .ok T)
    (hr : Stmt.AllRenamed T x y (Parsed.ofTokens tokens firstId).program program')
    (hy : y ∉ Stmt.allNames (Parsed.ofTokens tokens firstId).program) :
    Scoping.distances program' = .ok T ∧
      ∀ {limit : Option Nat} {output : Output} {sources : List String} {s : Session},
        Reached limit output sources s → identifiersIn sources < UInt64.size →
        (∀ id ∈ Stmt.allIds (Parsed.ofTokens tokens firstId).program, s.nextId.toNat ≤ id.toNat) →
        ∀ n, ((s.machine.addDistances T).interpret n program').map (fun r => (r.1, r.2.output)) =
          ((s.machine.addDistances T).interpret n (Parsed.ofTokens tokens firstId).program).map
            fun r => (r.1, r.2.output) := by
  have hplaced := Parsed.allPlaced_ofTokens tokens firstId
  have hnodup := Parsed.nodup_ids_ofTokens firstId hids
  generalize (Parsed.ofTokens tokens firstId).program = program at hT hr hy hplaced hnodup
  refine ⟨Scoping.distances_of_renamed hplaced hnodup hT hr hy, ?_⟩
  intro limit output sources s hreached hsources hnew n
  have hscoped := (hreached.sound hsources).1.scoped_load (a := ⟨program, T⟩) hnew hplaced hnodup hT
  have hbound := Scoping.scoped_of_distances hplaced hnodup hT
  have htable : ∀ id ∈ Stmt.allIds program, (s.machine.addDistances T).distances[id]? = T[id]? := by
    intro id hid
    rw [Machine.getElem?_addDistances, (hreached.sound hsources).1.free id (hnew id hid), Option.or_none]
  exact Machine.interpret_alike ((hr.alike hy hplaced hbound).congr htable) hscoped rfl
    (fun _ _ _ hq => hq.1) n

/-- A local variable of a block, renamed in a new session. -/
theorem interpret_renamed_block :
    ∃ tokens T, (Parsed.ofTokens tokens 0).program =
        [.block 1 [.var 1 "a" (some (.literal 1 (.string "x"))), .print 1 (.reference 1 "a" 0)]] ∧
      Scoping.distances
        [.block 1 [.var 1 "b" (some (.literal 1 (.string "x"))), .print 1 (.reference 1 "b" 0)]] = .ok T ∧
      ((((start none (.empty none)).machine.addDistances T).interpret 24
        [.block 1 [.var 1 "b" (some (.literal 1 (.string "x"))), .print 1 (.reference 1 "b" 0)]]).map
          fun r => (r.1, r.2.output)).isSome := by
  let program : List Stmt :=
    [.block 1 [.var 1 "a" (some (.literal 1 (.string "x"))), .print 1 (.reference 1 "a" 0)]]
  let T : Distances := Std.TreeMap.empty.insert 0 0
  obtain ⟨tokens, htokens⟩ : ∃ tokens, (scan "\x7b var a = \"x\"; print a; \x7d").tokens = tokens :=
    ⟨_, rfl⟩
  have hparsed : Parsed.ofTokens tokens 0 = ⟨program, [], 1⟩ := by rw [← htokens]; cbv
  have hprogram : (Parsed.ofTokens tokens 0).program = program := congrArg Parsed.program hparsed
  have hids : identifiers tokens ≤ UInt64.size := by rw [← htokens]; cbv
  have hT : Scoping.distances (Parsed.ofTokens tokens 0).program = .ok T := by rw [hprogram]; rfl
  have hr : Stmt.AllRenamed T "a" "b" (Parsed.ofTokens tokens 0).program
      [.block 1 [.var 1 "b" (some (.literal 1 (.string "x"))), .print 1 (.reference 1 "b" 0)]] := by
    rw [hprogram]
    exact .head [] (.block 1 ⟨1, _, List.mem_cons_self⟩)
  have hy : "b" ∉ Stmt.allNames (Parsed.ofTokens tokens 0).program := by rw [hprogram]; decide
  have hnew : ∀ id ∈ Stmt.allIds (Parsed.ofTokens tokens 0).program,
      (start none (.empty none)).nextId.toNat ≤ id.toNat := fun _ _ => Nat.zero_le _
  obtain ⟨hT', hrun⟩ := interpret_renamed hids hT hr hy
  have hstart : Reached none (.empty none) [] (start none (.empty none)) := .start
  have hsame := hrun hstart (by decide) hnew 24
  refine ⟨tokens, T, hprogram, hT', ?_⟩
  rw [hsame, hprogram]
  rfl

end Session
end LoxLang
