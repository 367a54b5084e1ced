import Mathlib
import LoxLang.Proofs.Session.Reached

/-! Lookups in sessions: no reference to a local variable ever misses its scope. -/
namespace LoxLang
namespace Session

/-- At every moment of a session a node with a distance on file finds the scope that far out, and
finds its name bound there; only a global can be undefined. -/
theorem lookup_finds_binding {limit : Option Nat} {output : Output} {sources : List String}
    {c : Config} (h : Moment limit output sources c)
    (hids : identifiersIn sources < UInt64.size) :
    (∀ line name id d, c.LooksUp line name id → c.machine.distances[id]? = some d →
      (∃ a, c.machine.store.ancestor? c.machine.current d = some a ∧
        (c.machine.store.read? a name).isSome) ∧
      (c.machine.store.getAt? c.machine.current d name).isSome ∧
      ∀ v, (c.machine.store.assignAt? c.machine.current d name v).isSome) ∧
    ∀ line name, c.Raises .byDistance ⟨.undefinedVariable name, line⟩ →
      ∃ id, c.LooksUp line name id ∧ c.machine.distances[id]? = none ∧
        c.machine.store.read? globals name = none := by
  obtain ⟨k, hc⟩ := h.scoped hids
  have hholder {line name id d} (hl : c.LooksUp line name id)
      (hd : c.machine.distances[id]? = some d) :=
    hc.holderAt?_of_looksUp (fun _ _ _ hf => hf.1) hl hd
  constructor
  · intro line name id d hl hd
    obtain ⟨a, ha⟩ := hholder hl hd
    exact ⟨⟨a, Store.holderAt?_eq_some.mp ha⟩, Store.getAt?_isSome ha, Store.assignAt?_isSome ha⟩
  · intro line name hr
    obtain ⟨id, hl, hnone⟩ := Config.looksUp_of_raises hr Locator.finds_byDistance
    obtain ⟨W, hstore, -⟩ := hc
    cases hd : c.machine.distances[id]? with
    | some d =>
      obtain ⟨a, ha⟩ := hholder hl hd
      rw [Locator.byDistance_some hd, ha] at hnone
      cases hnone
    | none =>
      rw [Locator.byDistance_none hd, hstore.holder?_globals] at hnone
      refine ⟨id, hl, hd, ?_⟩
      split at hnone
      · cases hnone
      · next hread => simpa using hread

/-- The body of a function reads a parameter. -/
theorem lookup_finds_binding_parameter :
    ∃ c, Moment none (.empty none) ["fun f(a) \x7b print a; \x7d f(\"x\");"] c ∧
      identifiersIn ["fun f(a) \x7b print a; \x7d f(\"x\");"] < UInt64.size ∧
      c.LooksUp 1 "a" 0 ∧ c.machine.distances[(0 : NodeId)]? = some 0 ∧
      (c.machine.store.getAt? c.machine.current 0 "a").isSome := by
  let program : List Stmt :=
    [.function 1 "f" ["a"] [.print 1 (.reference 1 "a" 0)],
      .expression 1 (.call 1 (.reference 1 "f" 1) [.literal 1 (.string "x")])]
  let table : Distances := Std.TreeMap.empty.insert 0 0
  let c := (Config.step .byDistance)^[13] ((start none (.empty none)).load ⟨program, table⟩)
  have hparsed : Parsed.ofSource "fun f(a) \x7b print a; \x7d f(\"x\");" 0 = ⟨program, [], 2⟩ := by
    cbv
  have haccept : (Parsed.ofSource "fun f(a) \x7b print a; \x7d f(\"x\");" 0).accept =
      .ok ⟨program, table⟩ := by
    rw [hparsed]
    rfl
  have hmoment : Moment none (.empty none) ["fun f(a) \x7b print a; \x7d f(\"x\");"] c :=
    (Moment.load .start haccept).iterate 13
  have hids : identifiersIn ["fun f(a) \x7b print a; \x7d f(\"x\");"] < UInt64.size := by cbv
  have hlook : c.LooksUp 1 "a" 0 := .reference 1 "a" 0 c.frames c.machine
  have hdistance : c.machine.distances[(0 : NodeId)]? = some 0 := by rfl
  have h := (lookup_finds_binding hmoment hids).1 1 "a" 0 0 hlook hdistance
  exact ⟨c, hmoment, hids, hlook, hdistance, h.2.1⟩

end Session
end LoxLang
