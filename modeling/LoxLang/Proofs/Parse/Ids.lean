import Mathlib.Data.List.Nodup
import LoxLang.Tree

/-!
The ids in a tree, and ids in a row: before they wrap around they differ.
-/
namespace LoxLang

mutual

def Expr.ids : Expr → List NodeId
  | .literal _ _ => []
  | .grouping _ inner => inner.ids
  | .unary _ _ operand => operand.ids
  | .binary _ _ left right => left.ids ++ right.ids
  | .logical _ _ left right => left.ids ++ right.ids
  | .reference _ _ id => [id]
  | .assign _ _ id value => id :: value.ids
  | .call _ callee arguments => callee.ids ++ Expr.allIds arguments

def Expr.allIds : List Expr → List NodeId
  | [] => []
  | e :: es => e.ids ++ Expr.allIds es

end

def Expr.idsOf : Option Expr → List NodeId
  | none => []
  | some e => e.ids

mutual

def Stmt.ids : Stmt → List NodeId
  | .expression _ e => e.ids
  | .print _ e => e.ids
  | .var _ _ initializer => Expr.idsOf initializer
  | .block _ body => Stmt.allIds body
  | .branch _ condition thenBranch none => condition.ids ++ thenBranch.ids
  | .branch _ condition thenBranch (some elseBranch) =>
    condition.ids ++ thenBranch.ids ++ elseBranch.ids
  | .loop _ condition body => condition.ids ++ body.ids
  | .function _ _ _ body => Stmt.allIds body
  | .result _ value => Expr.idsOf value

def Stmt.allIds : List Stmt → List NodeId
  | [] => []
  | s :: ss => s.ids ++ Stmt.allIds ss

end

def Stmt.idsOf : Option Stmt → List NodeId
  | none => []
  | some s => s.ids

theorem Stmt.ids_branch (line : Nat) (condition : Expr) (thenBranch : Stmt)
    (elseBranch : Option Stmt) :
    (Stmt.branch line condition thenBranch elseBranch).ids =
      condition.ids ++ thenBranch.ids ++ Stmt.idsOf elseBranch := by
  cases elseBranch <;> simp [Stmt.ids, Stmt.idsOf]

theorem Stmt.allIds_append (ss ts : List Stmt) :
    Stmt.allIds (ss ++ ts) = Stmt.allIds ss ++ Stmt.allIds ts := by
  induction ss with
  | nil => rfl
  | cons s ss ih => simp [Stmt.allIds, ih]

theorem Stmt.allIds_toList (s? : Option Stmt) : Stmt.allIds s?.toList = Stmt.idsOf s? := by
  cases s? <;> simp [Stmt.allIds, Stmt.idsOf]

mutual

def Expr.nodes : Expr → List (Name × NodeId)
  | .literal _ _ => []
  | .grouping _ inner => inner.nodes
  | .unary _ _ operand => operand.nodes
  | .binary _ _ left right => left.nodes ++ right.nodes
  | .logical _ _ left right => left.nodes ++ right.nodes
  | .reference _ name id => [(name, id)]
  | .assign _ name id value => (name, id) :: value.nodes
  | .call _ callee arguments => callee.nodes ++ Expr.allNodes arguments

def Expr.allNodes : List Expr → List (Name × NodeId)
  | [] => []
  | e :: es => e.nodes ++ Expr.allNodes es

end

def Expr.nodesOf : Option Expr → List (Name × NodeId)
  | none => []
  | some e => e.nodes

mutual

def Stmt.nodes : Stmt → List (Name × NodeId)
  | .expression _ e => e.nodes
  | .print _ e => e.nodes
  | .var _ _ initializer => Expr.nodesOf initializer
  | .block _ body => Stmt.allNodes body
  | .branch _ condition thenBranch none => condition.nodes ++ thenBranch.nodes
  | .branch _ condition thenBranch (some elseBranch) =>
    condition.nodes ++ thenBranch.nodes ++ elseBranch.nodes
  | .loop _ condition body => condition.nodes ++ body.nodes
  | .function _ _ _ body => Stmt.allNodes body
  | .result _ value => Expr.nodesOf value

def Stmt.allNodes : List Stmt → List (Name × NodeId)
  | [] => []
  | s :: ss => s.nodes ++ Stmt.allNodes ss

end

mutual

theorem Expr.map_snd_nodes : (e : Expr) → e.nodes.map Prod.snd = e.ids
  | .literal _ _ => rfl
  | .grouping _ inner => Expr.map_snd_nodes inner
  | .unary _ _ operand => Expr.map_snd_nodes operand
  | .binary _ _ left right | .logical _ _ left right => by
    rw [Expr.nodes, List.map_append, Expr.map_snd_nodes left, Expr.map_snd_nodes right, Expr.ids]
  | .reference _ _ _ => rfl
  | .assign _ _ _ value => by rw [Expr.nodes, List.map_cons, Expr.map_snd_nodes value, Expr.ids]
  | .call _ callee arguments => by
    rw [Expr.nodes, List.map_append, Expr.map_snd_nodes callee, Expr.map_snd_allNodes arguments, Expr.ids]

theorem Expr.map_snd_allNodes : (es : List Expr) → (Expr.allNodes es).map Prod.snd = Expr.allIds es
  | [] => rfl
  | e :: es => by
    rw [Expr.allNodes, List.map_append, Expr.map_snd_nodes e, Expr.map_snd_allNodes es, Expr.allIds]

end

theorem Expr.map_snd_nodesOf (e? : Option Expr) : (Expr.nodesOf e?).map Prod.snd = Expr.idsOf e? := by
  cases e? with
  | none => rfl
  | some e => exact e.map_snd_nodes

mutual

theorem Stmt.map_snd_nodes : (s : Stmt) → s.nodes.map Prod.snd = s.ids
  | .expression _ e | .print _ e => e.map_snd_nodes
  | .var _ _ initializer => Expr.map_snd_nodesOf initializer
  | .block _ body => Stmt.map_snd_allNodes body
  | .branch _ condition thenBranch none => by
    rw [Stmt.nodes, List.map_append, condition.map_snd_nodes, Stmt.map_snd_nodes thenBranch, Stmt.ids]
  | .branch _ condition thenBranch (some elseBranch) => by
    rw [Stmt.nodes, List.map_append, List.map_append, condition.map_snd_nodes,
      Stmt.map_snd_nodes thenBranch, Stmt.map_snd_nodes elseBranch, Stmt.ids]
  | .loop _ condition body => by
    rw [Stmt.nodes, List.map_append, condition.map_snd_nodes, Stmt.map_snd_nodes body, Stmt.ids]
  | .function _ _ _ body => Stmt.map_snd_allNodes body
  | .result _ value => Expr.map_snd_nodesOf value

theorem Stmt.map_snd_allNodes : (ss : List Stmt) → (Stmt.allNodes ss).map Prod.snd = Stmt.allIds ss
  | [] => rfl
  | s :: ss => by
    rw [Stmt.allNodes, List.map_append, Stmt.map_snd_nodes s, Stmt.map_snd_allNodes ss, Stmt.allIds]

end

theorem Expr.mem_ids_of_mem_nodes {node : Name × NodeId} (e : Expr) (h : node ∈ e.nodes) :
    node.2 ∈ e.ids :=
  e.map_snd_nodes ▸ List.mem_map_of_mem h

def idsFrom (first : NodeId) (n : Nat) : List NodeId :=
  (List.range n).map fun i => first + UInt64.ofNat i

theorem idsFrom_add (first : NodeId) (m n : Nat) :
    idsFrom first (m + n) = idsFrom first m ++ idsFrom (first + UInt64.ofNat m) n := by
  simp [idsFrom, List.range_add, Function.comp_def, UInt64.ofNat_add, UInt64.add_assoc]

/-- Before the ids wrap around they differ. -/
theorem nodup_idsFrom (first : NodeId) {n : Nat} (h : n ≤ UInt64.size) : (idsFrom first n).Nodup := by
  refine List.Nodup.map_on ?_ List.nodup_range
  intro i hi j hj hij
  have hi : i < UInt64.size := Nat.lt_of_lt_of_le (List.mem_range.mp hi) h
  have hj : j < UInt64.size := Nat.lt_of_lt_of_le (List.mem_range.mp hj) h
  have := congrArg UInt64.toNat ((UInt64.add_right_inj first).mp hij)
  rwa [UInt64.toNat_ofNat_of_lt' hi, UInt64.toNat_ofNat_of_lt' hj] at this

theorem toNat_of_mem_idsFrom {first : NodeId} {n : Nat} {id : NodeId}
    (hid : id ∈ idsFrom first n) (h : first.toNat + n ≤ UInt64.size) :
    first.toNat ≤ id.toNat ∧ id.toNat < first.toNat + n := by
  obtain ⟨i, hi, rfl⟩ := List.mem_map.mp hid
  have hi := List.mem_range.mp hi
  have hlt : first.toNat + i < UInt64.size := by omega
  have := UInt64.toNat_add first (UInt64.ofNat i)
  rw [UInt64.toNat_ofNat_of_lt' (by omega), Nat.mod_eq_of_lt hlt] at this
  omega

end LoxLang
