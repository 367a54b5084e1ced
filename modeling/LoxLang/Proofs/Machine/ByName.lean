import Mathlib
import LoxLang.Proofs.Parse.Numbering
import LoxLang.Proofs.Scoping.Locals
import LoxLang.Proofs.Machine.Adjust
import LoxLang.Proofs.Machine.Run

/-!
Lookup by name. Where all local declarations have different names, the nearest scope that binds a name
is the one at its distance, so programs run alike with the table and without it.
-/
namespace LoxLang

namespace Store

variable {Q : Layers → Name → NodeId → Prop} {st : Store} {W : Labels}

/-- A scope binds no name that its block or function does not declare. -/
theorem Chain.read?_eq_none {id : ScopeId} {l : Layer} {ls : Layers} {name : Name}
    (h : st.Chain W id (l :: ls)) (hm : st.Scoped Q W) (hname : name ∉ l.declared) :
    st.read? id name = none := by
  rw [← Option.not_isSome_iff_eq_none]
  intro hread
  exact hname (h.2.2.1 ▸ hm.labels id name hread h.1)

theorem Chain.mem_declared {id : ScopeId} {l : Layer} {ls : Layers} {name : Name}
    (h : st.Chain W id (l :: ls)) (hm : st.Scoped Q W) (hname : name ∈ l.visible) :
    name ∈ l.declared := by
  obtain ⟨h0, -, hw, hv, -⟩ := h
  exact hw ▸ hm.labels id name (hv name hname) h0

theorem Chain.mem_declared_of_distance? {id : ScopeId} {ls : Layers} {name : Name} {d : Nat}
    (h : st.Chain W id ls) (hm : st.Scoped Q W) (hd : ls.distance? name = some d) :
    name ∈ ls.declared := by
  obtain ⟨l, hl, hname⟩ := Layers.distance?_eq_some hd
  obtain ⟨a, -, hc⟩ := h.ancestor? hl
  exact List.mem_flatMap.mpr ⟨l, List.mem_of_getElem? hl, hc.mem_declared hm hname⟩

/-- On the way out the name is met first where the innermost scope shows it. -/
theorem Chain.holderWithin?_of_distance? {id : ScopeId} {ls : Layers} {name : Name} {d k : Nat}
    (h : st.Chain W id ls) (hm : st.Scoped Q W) (hn : ls.declared.Nodup)
    (hd : ls.distance? name = some d) (hk : id < k) :
    st.holderWithin? name k id = st.ancestor? id d := by
  induction ls generalizing id d k with
  | nil => cases hd
  | cons l ls ih =>
    obtain ⟨k, rfl⟩ := Nat.exists_eq_add_one_of_ne_zero (Nat.ne_of_gt (Nat.zero_lt_of_lt hk))
    have hc := h
    obtain ⟨-, -, -, hv, outer, hlt, he, ho⟩ := h
    rw [Layers.distance?, List.findIdx?_cons] at hd
    split at hd
    · next hvisible =>
      cases hd
      rw [holderWithin?, if_pos (hv name (by simpa using hvisible))]
      rfl
    · obtain ⟨d, hd', rfl⟩ := Option.map_eq_some_iff.mp hd
      have hname : name ∉ l.declared := fun hmem =>
        (List.nodup_append.mp hn).2.2 name hmem name (ho.mem_declared_of_distance? hm hd') rfl
      rw [holderWithin?, hc.read?_eq_none hm hname, if_neg (by simp), Store.ancestor?, he]
      exact ih ho (List.nodup_append.mp hn).2.1 hd' (Nat.lt_of_lt_of_le hlt (Nat.le_of_lt_succ hk))

/-- A name that no scope around declares is met in the globals, if at all. -/
theorem Chain.holderWithin?_of_not_mem {id : ScopeId} {ls : Layers} {name : Name} {k : Nat}
    (h : st.Chain W id ls) (hm : st.Scoped Q W) (hname : name ∉ ls.declared) (hk : id < k) :
    st.holderWithin? name k id = st.holder? globals name := by
  induction ls generalizing id k with
  | nil =>
    obtain rfl : id = globals := h
    obtain ⟨k, rfl⟩ := Nat.exists_eq_add_one_of_ne_zero (Nat.ne_of_gt hk)
    rw [hm.holder?_globals, holderWithin?, hm.enclosing_globals]
    rfl
  | cons l ls ih =>
    obtain ⟨k, rfl⟩ := Nat.exists_eq_add_one_of_ne_zero (Nat.ne_of_gt (Nat.zero_lt_of_lt hk))
    have hc := h
    obtain ⟨-, -, -, -, outer, hlt, he, ho⟩ := h
    have hl : name ∉ l.declared := fun hmem => hname (List.mem_append_left _ hmem)
    rw [holderWithin?, hc.read?_eq_none hm hl, if_neg (by simp), he]
    exact ih ho (fun hmem => hname (List.mem_append_right _ hmem))
      (Nat.lt_of_lt_of_le hlt (Nat.le_of_lt_succ hk))

end Store

def Distinct (T : Distances) (ls : Layers) (name : Name) (id : NodeId) : Prop :=
  Bound T ls name id ∧ Apart T ls name id

/-- Both rules find the same scope. -/
theorem Config.Scoped.byName_eq_byDistance {T : Distances} {c : Config} {line : Nat} {name : Name}
    {id : NodeId} (h : c.Scoped (Distinct T))
    (hT : c.machine.distances = T) (hl : c.LooksUp line name id) :
    Locator.byName c.machine name id = Locator.byDistance c.machine name id := by
  obtain ⟨W, ls, hm, hc, hbound, hn, hfree⟩ := h.chain_of_looksUp hl
  have hlt := hc.lt_next hm.nonempty
  subst hT
  cases hid : c.machine.distances[id]? with
  | none =>
    rw [Locator.byDistance_none hid]
    exact hc.holderWithin?_of_not_mem hm (hfree hid) hlt
  | some d =>
    rw [Locator.byDistance_some hid]
    have hd : ls.distance? name = some d := hbound.symm.trans hid
    obtain ⟨a, ha⟩ := hc.ancestor?_of_distance? hd
    exact ((hc.holderWithin?_of_distance? hm hn hd hlt).trans ha.1).trans
      (Store.holderAt?_eq_some.mpr ha).symm

def Config.withTable (c : Config) (T : Distances) : Config := c.adjust { distances := fun _ => T }

namespace Config

variable {locate locate' : Locator}

/-- The table only matters where a scope is looked up. -/
theorem step_withTable {c : Config} {T : Distances}
    (h : ∀ line name id, c.LooksUp line name id →
      locate' { c.machine with distances := T } name id = locate c.machine name id) :
    (c.withTable T).step locate' = (c.step locate).withTable T :=
  step_adjust h (fun _ _ => rfl) fun _ _ _ => ⟨rfl, rfl⟩

/-- Step by step both rules lead to the same, with the table and without it. -/
theorem Scoped.runFor_withTable {T : Distances} {c : Config} (h : c.Scoped (Distinct T))
    (hT : c.machine.distances = T) (n : Nat) :
    (c.withTable ∅).runFor .byName n =
      (c.runFor .byDistance n).map fun (s, m) => (s, { m with distances := ∅ }) := by
  refine runFor_adjust fun k _ => step_withTable fun line name id hl => ?_
  exact (h.iterate Locator.finds_byDistance k).byName_eq_byDistance
    ((iterate_distances .byDistance k c).trans hT) hl

end Config

/-- Where no two local declarations have the same name, and none has the name of a reference that is
not local, a program runs the same when every scope is found by name and there is no table. -/
theorem Parsed.runFor_byName {tokens : List Token} {firstId : NodeId} {T : Distances}
    (hids : identifiers tokens ≤ UInt64.size)
    (hT : Scoping.distances (ofTokens tokens firstId).program = .ok T)
    (hnames : (Stmt.allLocals (ofTokens tokens firstId).program).Nodup)
    (hfree : ∀ node ∈ Stmt.allNodes (ofTokens tokens firstId).program, T[node.2]? = none →
      node.1 ∉ Stmt.allLocals (ofTokens tokens firstId).program)
    (limit : Option Nat) (output : Output) (n : Nat) :
    Config.runFor .byName n ⟨.program (ofTokens tokens firstId).program, [], .start limit output⟩ =
      (Config.runFor .byDistance n ⟨.program (ofTokens tokens firstId).program, [],
        (Machine.start limit output).addDistances T⟩).map
          fun (s, m) => (s, { m with distances := ∅ }) := by
  generalize hp : (ofTokens tokens firstId).program = program at hT hnames hfree
  have hplaced : Stmt.AllPlaced program := hp ▸ allPlaced_ofTokens tokens firstId
  have hnodup : (Stmt.allIds program).Nodup := hp ▸ nodup_ids_ofTokens firstId hids
  let m := (Machine.start limit output).addDistances T
  have hget (id : NodeId) : m.distances[id]? = T[id]? := by
    rw [Machine.getElem?_addDistances]
    simp [Machine.start]
  have hscoped : Stmt.AllScoped (Distinct T) [] program :=
    Stmt.AllScoped.apart program ⟨hnames, hfree⟩ (Scoping.scoped_of_distances hplaced hnodup hT)
  have hprog : Stmt.AllScoped (Distinct m.distances) [] program := by
    refine hscoped.imp program fun ls name id _ hd => ?_
    rw [Distinct, Bound, Apart, hget]
    exact hd
  have hstart : Config.Scoped (Distinct m.distances) ⟨.program program, [], m⟩ :=
    ⟨_, Machine.scoped_start _ limit output, rfl, hprog, rfl⟩
  exact hstart.runFor_withTable rfl n

/-- A function reads its parameter. -/
theorem Parsed.runFor_byName_parameter :
    ∃ tokens T s m, identifiers tokens ≤ UInt64.size ∧
      Scoping.distances (ofTokens tokens 0).program = .ok T ∧
      Stmt.allLocals (ofTokens tokens 0).program = ["a"] ∧
      Config.runFor .byName 24 ⟨.program (ofTokens tokens 0).program, [],
        .start none (.empty none)⟩ = some (s, m) := by
  let program : List Stmt :=
    [.function 1 "f" ["a"] [.print 1 (.reference 1 "a" 0)],
      .expression 1 (.call 1 (.reference 1 "f" 1) [.literal 1 (.string "x")])]
  let T : Distances := Std.TreeMap.empty.insert 0 0
  obtain ⟨tokens, htokens⟩ : ∃ tokens, (scan "fun f(a) \x7b print a; \x7d f(\"x\");").tokens = tokens :=
    ⟨_, rfl⟩
  have hparsed : ofTokens tokens 0 = ⟨program, [], 2⟩ := by rw [← htokens]; cbv
  have hprogram : (ofTokens tokens 0).program = program := congrArg Parsed.program hparsed
  have hids : identifiers tokens ≤ UInt64.size := by rw [← htokens]; cbv
  have hT : Scoping.distances (ofTokens tokens 0).program = .ok T := by rw [hprogram]; rfl
  have hlocals : Stmt.allLocals (ofTokens tokens 0).program = ["a"] := by rw [hprogram]; rfl
  have hnames : (Stmt.allLocals (ofTokens tokens 0).program).Nodup := by rw [hlocals]; decide
  have hfree : ∀ node ∈ Stmt.allNodes (ofTokens tokens 0).program, T[node.2]? = none →
      node.1 ∉ Stmt.allLocals (ofTokens tokens 0).program := by rw [hprogram]; decide
  have h := runFor_byName hids hT hnames hfree none (.empty none) 24
  have hrun : (Config.runFor .byDistance 24 ⟨.program (ofTokens tokens 0).program, [],
      (Machine.start none (.empty none)).addDistances T⟩).isSome := by rw [hprogram]; rfl
  obtain ⟨⟨s, m⟩, hr⟩ := Option.isSome_iff_exists.mp hrun
  rw [hr] at h
  exact ⟨tokens, T, s, _, hids, hT, hlocals, h⟩

end LoxLang
