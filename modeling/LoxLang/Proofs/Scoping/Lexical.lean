import Mathlib
import LoxLang.Proofs.Scoping.Table
import LoxLang.Proofs.Parse.Numbering

/-!
Lexical scoping by position. Each statement of a program has blocks and functions around it, and of each of
these the statements before it are known. From that alone one can tell which scopes show a name at an
expression, and the table of distances of an accepted program is just that.
-/
namespace LoxLang

structure Enclosure where
  /-- The parameters of a function; a block has none. -/
  params : Option (List Name)
  /-- The statements directly in it that come before the place. -/
  before : List Stmt
  /-- The statement directly in it that the place lies in. -/
  here : Option Stmt

/-- Innermost first; all around is the top level, which is not among them. -/
abbrev Around := List Enclosure

def Stmt.functionName? : Stmt → Option Name
  | .function _ name _ _ => some name
  | _ => none

namespace Enclosure

def block : Enclosure := ⟨none, [], none⟩

def function (params : List Name) : Enclosure := ⟨some params, [], none⟩

def declared (e : Enclosure) : List Name := e.params.getD [] ++ Stmt.declaredNames e.before

/-- A function can be read inside itself, a variable not inside its own initializer. -/
def shows (e : Enclosure) (name : Name) : Bool :=
  name ∈ e.declared || e.here.bind Stmt.functionName? = some name

end Enclosure

namespace Around

def within (s : Stmt) : Around → Around
  | [] => []
  | e :: es => { e with here := some s } :: es

def past (s : Stmt) : Around → Around
  | [] => []
  | e :: es => { e with before := e.before ++ [s] } :: es

end Around

structure Visit where
  around : Around
  stmt : Stmt

mutual

def Stmt.visits (around : Around) : Stmt → List Visit
  | .expression line e => [⟨around, .expression line e⟩]
  | .print line e => [⟨around, .print line e⟩]
  | .var line name initializer => [⟨around, .var line name initializer⟩]
  | .block line body => ⟨around, .block line body⟩ :: Stmt.allVisits (.block :: around) body
  | .branch line condition thenBranch none =>
    ⟨around, .branch line condition thenBranch none⟩ :: thenBranch.visits around
  | .branch line condition thenBranch (some elseBranch) =>
    ⟨around, .branch line condition thenBranch (some elseBranch)⟩ ::
      (thenBranch.visits around ++ elseBranch.visits around)
  | .loop line condition body => ⟨around, .loop line condition body⟩ :: body.visits around
  | .function line name params body =>
    ⟨around, .function line name params body⟩ :: Stmt.allVisits (.function params :: around) body
  | .result line value => [⟨around, .result line value⟩]

def Stmt.allVisits (around : Around) : List Stmt → List Visit
  | [] => []
  | s :: ss => s.visits (around.within s) ++ Stmt.allVisits (around.past s) ss

end

def Stmt.own? : Stmt → Option Expr
  | .expression _ e | .print _ e => some e
  | .var _ _ initializer => initializer
  | .branch _ condition _ _ | .loop _ condition _ => some condition
  | .result _ value => value
  | .block _ _ | .function _ _ _ _ => none

def Visit.nodes (v : Visit) : List (Name × NodeId) := Expr.nodesOf v.stmt.own?

mutual

/-- Each node of a tree stands in one of its statements. -/
theorem Stmt.flatMap_nodes_visits : (s : Stmt) → (around : Around) →
    (s.visits around).flatMap Visit.nodes = s.nodes
  | .expression _ _, _ | .print _ _, _ | .var _ _ _, _ | .result _ _, _ => by
    simp [Stmt.visits, Stmt.nodes, Visit.nodes, Stmt.own?, Expr.nodesOf]
  | .block _ body, around => by
    simp [Stmt.visits, Stmt.nodes, Visit.nodes, Stmt.own?, Expr.nodesOf,
      Stmt.flatMap_nodes_allVisits body]
  | .branch _ _ thenBranch none, around => by
    simp [Stmt.visits, Stmt.nodes, Visit.nodes, Stmt.own?, Expr.nodesOf,
      Stmt.flatMap_nodes_visits thenBranch]
  | .branch _ _ thenBranch (some elseBranch), around => by
    simp [Stmt.visits, Stmt.nodes, Visit.nodes, Stmt.own?, Expr.nodesOf,
      Stmt.flatMap_nodes_visits thenBranch, Stmt.flatMap_nodes_visits elseBranch]
  | .loop _ _ body, around => by
    simp [Stmt.visits, Stmt.nodes, Visit.nodes, Stmt.own?, Expr.nodesOf, Stmt.flatMap_nodes_visits body]
  | .function _ _ _ body, around => by
    simp [Stmt.visits, Stmt.nodes, Visit.nodes, Stmt.own?, Expr.nodesOf,
      Stmt.flatMap_nodes_allVisits body]

theorem Stmt.flatMap_nodes_allVisits : (ss : List Stmt) → (around : Around) →
    (Stmt.allVisits around ss).flatMap Visit.nodes = Stmt.allNodes ss
  | [], _ => rfl
  | s :: ss, around => by
    rw [Stmt.allVisits, List.flatMap_append, s.flatMap_nodes_visits, Stmt.flatMap_nodes_allVisits ss,
      Stmt.allNodes]

end

/-- The innermost scope is left at this statement, or at one that it is a part of. -/
def Around.Holds (around : Around) (s : Stmt) : Prop :=
  ∀ e ∈ around.head?, e.here.bind Stmt.functionName? = s.functionName?

theorem Around.holds_within (around : Around) (s : Stmt) : (around.within s).Holds s := by
  cases around with
  | nil => nofun
  | cons e around => rintro _ ⟨⟩; rfl

theorem Stmt.functionName?_eq_none {s : Stmt} (h : s.declares? = none) : s.functionName? = none := by
  cases s <;> first | rfl | cases h

/-- A part of a statement that is neither a function nor a declaration is in the same place. -/
theorem Around.Holds.part {around : Around} {s t : Stmt} (h : around.Holds s)
    (hs : s.functionName? = none) (ht : t.declares? = none) : around.Holds t :=
  fun e he => (h e he).trans (hs.trans (Stmt.functionName?_eq_none ht).symm)

theorem Enclosure.mem_declared_past {e : Enclosure} {s : Stmt} {name : Name} :
    name ∈ ({ e with before := e.before ++ [s] } : Enclosure).declared ↔
      name ∈ e.declared ∨ s.declares? = some name := by
  have hlast : name ∈ [s].filterMap Stmt.declares? ↔ s.declares? = some name := by simp
  simp only [Enclosure.declared, Stmt.declaredNames, List.filterMap_append, List.mem_append, hlast,
    or_assoc]

def Layers.Shown (ls : Layers) (around : Around) : Prop :=
  List.Forall₂ (fun l e => ∀ name, name ∈ l.visible ↔ e.shows name) ls around

inductive Layers.Fit : Layers → Around → Prop where
  | nil : Fit [] []
  | cons {l : Layer} {ls : Layers} {e : Enclosure} {around : Around} :
    (∀ name, name ∈ l.visible ↔ name ∈ e.declared) → ls.Shown around → Fit (l :: ls) (e :: around)

namespace Layers

variable {ls : Layers} {around : Around} {s : Stmt}

theorem Fit.within (h : ls.Fit around) (s : Stmt) : ls.Fit (around.within s) := by
  cases h with
  | nil => exact .nil
  | cons hl hls => exact .cons hl hls

theorem Fit.past (h : ls.Fit around) (s : Stmt) : (ls.after s).Fit (around.past s) := by
  cases h with
  | nil => rw [after_nil]; exact .nil
  | cons hl hls =>
    unfold Layers.after
    split
    · next name hs =>
      refine .cons (fun n => ?_) hls
      rw [List.mem_cons, hl n, Enclosure.mem_declared_past, hs, Option.some_inj, or_comm, eq_comm]
    · next hs =>
      refine .cons (fun n => ?_) hls
      rw [hl n, Enclosure.mem_declared_past, hs]
      simp

/-- Inside a statement that is no function nothing more can be read. -/
theorem Fit.shown (h : ls.Fit around) (hs : around.Holds s) (hnone : s.functionName? = none) :
    ls.Shown around := by
  cases h with
  | nil => exact .nil
  | @cons l ls e around hl hls =>
    refine .cons (fun name => ?_) hls
    rw [hl name, Enclosure.shows, hs e rfl, hnone]
    simp

/-- Inside a function it can itself be read. -/
theorem Fit.shown_reveal (h : ls.Fit around) (hs : around.Holds s) {name : Name}
    (hname : s.functionName? = some name) : (ls.reveal name).Shown around := by
  cases h with
  | nil => exact .nil
  | @cons l ls e around hl hls =>
    refine .cons (fun n => ?_) hls
    rw [List.mem_cons, hl n, Enclosure.shows, hs e rfl, hname, Bool.or_eq_true, decide_eq_true_iff,
      decide_eq_true_iff, Option.some_inj, or_comm, eq_comm (a := n)]

theorem Shown.fit_block (h : ls.Shown around) (body : List Stmt) :
    Fit (.ofBlock body :: ls) (.block :: around) :=
  .cons (fun name => by simp [Layer.ofBlock, Enclosure.declared, Enclosure.block, Stmt.declaredNames]) h

theorem Shown.fit_function (h : ls.Shown around) (params : List Name) (body : List Stmt) :
    Fit (.ofFunction params body :: ls) (.function params :: around) :=
  .cons (fun name => by
    simp [Layer.ofFunction, Enclosure.declared, Enclosure.function, Stmt.declaredNames]) h

/-- The distance of a name is counted over what is around. -/
theorem Shown.distance?_eq (h : ls.Shown around) (name : Name) :
    ls.distance? name = around.findIdx? (·.shows name) := by
  unfold Layers.distance?
  induction h with
  | nil => rfl
  | @cons l e ls around hl _ ih =>
    have hshows : decide (name ∈ l.visible) = e.shows name := by
      rw [Bool.eq_iff_iff, decide_eq_true_iff]
      exact hl name
    rw [List.findIdx?_cons, List.findIdx?_cons, hshows, ih]

end Layers

section Visits
variable {Q : Layers → Name → NodeId → Prop}

mutual

theorem Expr.Scoped.mem_nodes {ls : Layers} {node : Name × NodeId} : (e : Expr) → e.Scoped Q ls →
    node ∈ e.nodes → Q ls node.1 node.2
  | .literal _ _, _, h => nomatch h
  | .grouping _ inner, he, h => Expr.Scoped.mem_nodes inner he h
  | .unary _ _ operand, he, h => Expr.Scoped.mem_nodes operand he h
  | .binary _ _ left right, he, h | .logical _ _ left right, he, h =>
    (List.mem_append.mp h).elim (Expr.Scoped.mem_nodes left he.1) (Expr.Scoped.mem_nodes right he.2)
  | .reference _ _ _, he, h => by rw [List.mem_singleton.mp h]; exact he
  | .assign _ _ _ value, he, h =>
    (List.mem_cons.mp h).elim (fun h => by rw [h]; exact he.2) (Expr.Scoped.mem_nodes value he.1)
  | .call _ callee arguments, he, h =>
    (List.mem_append.mp h).elim (Expr.Scoped.mem_nodes callee he.1)
      (Expr.AllScoped.mem_nodes arguments he.2)

theorem Expr.AllScoped.mem_nodes {ls : Layers} {node : Name × NodeId} : (es : List Expr) →
    Expr.AllScoped Q ls es → node ∈ Expr.allNodes es → Q ls node.1 node.2
  | [], _, h => nomatch h
  | e :: es, he, h =>
    (List.mem_append.mp h).elim (Expr.Scoped.mem_nodes e he.1) (Expr.AllScoped.mem_nodes es he.2)

end

/-- The nodes of a visited statement satisfy the condition in layers that show what is around it. -/
def Visit.Scoped (Q : Layers → Name → NodeId → Prop) (v : Visit) : Prop :=
  ∀ node ∈ v.nodes, ∃ ls : Layers, ls.Shown v.around ∧ Q ls node.1 node.2

theorem Visit.scoped_of_own {ls : Layers} {v : Visit} (hls : ls.Shown v.around)
    (h : ∀ e ∈ v.stmt.own?, e.Scoped Q ls) : v.Scoped Q := by
  intro node hnode
  unfold Visit.nodes at hnode
  cases hown : v.stmt.own? with
  | none => rw [hown] at hnode; cases hnode
  | some e => rw [hown] at hnode; exact ⟨ls, hls, (h e hown).mem_nodes e hnode⟩

mutual

theorem Stmt.Scoped.visits : (s : Stmt) → {ls : Layers} → {around : Around} → s.Scoped Q ls →
    ls.Fit around → around.Holds s → ∀ v ∈ s.visits around, v.Scoped Q
  | .expression _ e, ls, around, hs, hfit, hholds => by
    simp only [Stmt.visits, List.mem_singleton, forall_eq]
    exact Visit.scoped_of_own (hfit.shown hholds rfl) (by rintro _ ⟨⟩; exact hs)
  | .print _ e, ls, around, hs, hfit, hholds => by
    simp only [Stmt.visits, List.mem_singleton, forall_eq]
    exact Visit.scoped_of_own (hfit.shown hholds rfl) (by rintro _ ⟨⟩; exact hs)
  | .var _ _ initializer, ls, around, hs, hfit, hholds => by
    simp only [Stmt.visits, List.mem_singleton, forall_eq]
    exact Visit.scoped_of_own (hfit.shown hholds rfl) hs.2
  | .result _ value, ls, around, hs, hfit, hholds => by
    simp only [Stmt.visits, List.mem_singleton, forall_eq]
    exact Visit.scoped_of_own (hfit.shown hholds rfl) hs
  | .block _ body, ls, around, hs, hfit, hholds => by
    refine List.forall_mem_cons.mpr ⟨nofun, ?_⟩
    exact Stmt.AllScoped.visits body hs ((hfit.shown hholds rfl).fit_block body)
  | .branch _ condition thenBranch none, ls, around, hs, hfit, hholds => by
    refine List.forall_mem_cons.mpr ⟨?_, ?_⟩
    · exact Visit.scoped_of_own (hfit.shown hholds rfl) (by rintro _ ⟨⟩; exact hs.1)
    · exact Stmt.Scoped.visits thenBranch hs.2.2 hfit (hholds.part rfl hs.2.1)
  | .branch _ condition thenBranch (some elseBranch), ls, around, hs, hfit, hholds => by
    refine List.forall_mem_cons.mpr ⟨?_, List.forall_mem_append.mpr ⟨?_, ?_⟩⟩
    · exact Visit.scoped_of_own (hfit.shown hholds rfl) (by rintro _ ⟨⟩; exact hs.1)
    · exact Stmt.Scoped.visits thenBranch hs.2.1.2 hfit (hholds.part rfl hs.2.1.1)
    · exact Stmt.Scoped.visits elseBranch hs.2.2.2 hfit (hholds.part rfl hs.2.2.1)
  | .loop _ condition body, ls, around, hs, hfit, hholds => by
    refine List.forall_mem_cons.mpr ⟨?_, ?_⟩
    · exact Visit.scoped_of_own (hfit.shown hholds rfl) (by rintro _ ⟨⟩; exact hs.1)
    · exact Stmt.Scoped.visits body hs.2.2 hfit (hholds.part rfl hs.2.1)
  | .function _ _ params body, ls, around, hs, hfit, hholds => by
    refine List.forall_mem_cons.mpr ⟨nofun, ?_⟩
    exact Stmt.AllScoped.visits body hs.2.2 ((hfit.shown_reveal hholds rfl).fit_function params body)

theorem Stmt.AllScoped.visits : (ss : List Stmt) → {ls : Layers} → {around : Around} →
    Stmt.AllScoped Q ls ss → ls.Fit around → ∀ v ∈ Stmt.allVisits around ss, v.Scoped Q
  | [], _, _, _, _ => nofun
  | s :: ss, _, around, hs, hfit =>
    List.forall_mem_append.mpr ⟨Stmt.Scoped.visits s hs.1 (hfit.within s) (around.holds_within s),
      Stmt.AllScoped.visits ss hs.2 (hfit.past s)⟩

end

end Visits

namespace Scoping

/-- The distances of an accepted program are those of its text: the table gives each node the number of
blocks and functions between it and the innermost one that shows its name, and no entry where none does; and
it has no entries but for nodes of the program. -/
theorem distances_are_lexical {tokens : List Token} (firstId : NodeId) {T : Distances}
    (hids : identifiers tokens ≤ UInt64.size)
    (h : distances (Parsed.ofTokens tokens firstId).program = .ok T) :
    let visits := Stmt.allVisits [] (Parsed.ofTokens tokens firstId).program
    visits.flatMap Visit.nodes = Stmt.allNodes (Parsed.ofTokens tokens firstId).program ∧
      (∀ v ∈ visits, ∀ node ∈ v.nodes, T[node.2]? = v.around.findIdx? (·.shows node.1)) ∧
      ∀ id, T[id]? ≠ none → ∃ v ∈ visits, ∃ node ∈ v.nodes, node.2 = id := by
  have hnodes := Stmt.flatMap_nodes_allVisits (Parsed.ofTokens tokens firstId).program []
  refine ⟨hnodes, fun v hv node hnode => ?_, fun id hid => ?_⟩
  · have hscoped := scoped_of_distances (Parsed.allPlaced_ofTokens tokens firstId)
      (Parsed.nodup_ids_ofTokens firstId hids) h
    obtain ⟨ls, hls, hbound⟩ := hscoped.visits _ .nil v hv node hnode
    exact hbound.trans (hls.distance?_eq node.1)
  · have hmem : id ∈ Stmt.allIds (Parsed.ofTokens tokens firstId).program :=
      Decidable.of_not_not fun hnot => hid (mem_allIds_of_distances h hnot)
    rw [← Stmt.map_snd_allNodes, ← hnodes] at hmem
    obtain ⟨node, hnode, hid⟩ := List.mem_map.mp hmem
    obtain ⟨v, hv, hvnode⟩ := List.mem_flatMap.mp hnode
    exact ⟨v, hv, node, hvnode, hid⟩

/-- The initializer of an inner variable reads the outer one of the same name, the statement after it the
inner one. -/
theorem distances_are_lexical_shadowed :
    ∃ tokens T, identifiers tokens ≤ UInt64.size ∧
      distances (Parsed.ofTokens tokens 0).program = .ok T ∧ T[(0 : NodeId)]? = some 1 ∧
      T[(1 : NodeId)]? = some 0 := by
  let inner : List Stmt :=
    [.var 1 "a" (some (.unary 1 .not (.reference 1 "a" 0))), .print 1 (.reference 1 "a" 1)]
  let program : List Stmt := [.block 1 [.var 1 "a" none, .block 1 inner]]
  let T : Distances := (Std.TreeMap.empty.insert 0 1).insert 1 0
  obtain ⟨tokens, htokens⟩ :
      ∃ tokens, (scan "\x7b var a; \x7b var a = !a; print a; \x7d \x7d").tokens = tokens := ⟨_, rfl⟩
  have hparsed : Parsed.ofTokens tokens 0 = ⟨program, [], 2⟩ := by rw [← htokens]; cbv
  have hprogram : (Parsed.ofTokens tokens 0).program = program := congrArg Parsed.program hparsed
  have hids : identifiers tokens ≤ UInt64.size := by rw [← htokens]; cbv
  have hT : distances (Parsed.ofTokens tokens 0).program = .ok T := by rw [hprogram]; rfl
  obtain ⟨-, htable, -⟩ := distances_are_lexical 0 hids hT
  rw [hprogram] at htable
  let outer : Enclosure := ⟨none, [.var 1 "a" none], some (.block 1 inner)⟩
  let v : Visit := ⟨[⟨none, [], inner[0]⟩, outer], inner[0]⟩
  let w : Visit := ⟨[⟨none, [inner[0]], inner[1]⟩, outer], inner[1]⟩
  have hv : v ∈ Stmt.allVisits [] program := .tail _ (.tail _ (.tail _ (.head _)))
  have hw : w ∈ Stmt.allVisits [] program := .tail _ (.tail _ (.tail _ (.tail _ (.head _))))
  exact ⟨tokens, T, hids, hT, htable v hv ("a", 0) (List.mem_singleton_self _),
    htable w hw ("a", 1) (List.mem_singleton_self _)⟩

end Scoping
end LoxLang
