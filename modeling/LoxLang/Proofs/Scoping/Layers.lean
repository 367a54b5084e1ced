import LoxLang.Proofs.Parse.Ids
import LoxLang.Proofs.Parse.Placement

/-!
The scopes around a place in a program as its text shows them, and what it means for every node of a
tree to satisfy a condition on its name, its id and the scopes around it.
-/
namespace LoxLang

/-- A block or function: the names whose declarations are complete, and all that it declares. -/
structure Layer where
  visible : List Name
  declared : List Name

/-- Innermost first; the globals are not among them. -/
abbrev Layers := List Layer

def Stmt.declaredNames (body : List Stmt) : List Name := body.filterMap Stmt.declares?

def Layer.ofBlock (body : List Stmt) : Layer := ⟨[], Stmt.declaredNames body⟩

/-- Parameters and body share one scope. -/
def Layer.ofFunction (params : List Name) (body : List Stmt) : Layer :=
  ⟨params, params ++ Stmt.declaredNames body⟩

namespace Layers

def distance? (ls : Layers) (name : Name) : Option Nat := ls.findIdx? (name ∈ ·.visible)

def reveal (name : Name) : Layers → Layers
  | [] => []
  | l :: ls => { l with visible := name :: l.visible } :: ls

def after (ls : Layers) (s : Stmt) : Layers :=
  match s.declares? with
  | some name => ls.reveal name
  | none => ls

def afterAll (ls : Layers) : List Stmt → Layers
  | [] => ls
  | s :: ss => (ls.after s).afterAll ss

def Admits (ls : Layers) (name : Name) : Prop :=
  ∀ l ∈ ls.head?, name ∉ l.visible ∧ name ∈ l.declared

@[simp] theorem after_nil (s : Stmt) : after [] s = [] := by
  unfold after
  split <;> rfl

theorem after_eq_nil {ls : Layers} {s : Stmt} : ls.after s = [] ↔ ls = [] := by
  unfold after reveal
  split
  · cases ls <;> simp
  · rfl

theorem afterAll_eq_nil {ls : Layers} {ss : List Stmt} : ls.afterAll ss = [] ↔ ls = [] := by
  induction ss generalizing ls with
  | nil => rfl
  | cons s ss ih => rw [afterAll, ih, after_eq_nil]

theorem after_of_declares?_eq_none {s : Stmt} (ls : Layers) (h : s.declares? = none) :
    ls.after s = ls := by
  simp [after, h]

theorem distance?_eq_some {ls : Layers} {name : Name} {d : Nat} (h : ls.distance? name = some d) :
    ∃ l, ls[d]? = some l ∧ name ∈ l.visible := by
  obtain ⟨hd, hmem, -⟩ := List.findIdx?_eq_some_iff_getElem.mp h
  exact ⟨ls[d], List.getElem?_eq_getElem hd, by simpa using hmem⟩

end Layers

section Scoped
variable (Q : Layers → Name → NodeId → Prop)

mutual

def Expr.Scoped (ls : Layers) : Expr → Prop
  | .literal _ _ => True
  | .grouping _ inner => inner.Scoped ls
  | .unary _ _ operand => operand.Scoped ls
  | .binary _ _ left right => left.Scoped ls ∧ right.Scoped ls
  | .logical _ _ left right => left.Scoped ls ∧ right.Scoped ls
  | .reference _ name id => Q ls name id
  | .assign _ name id value => value.Scoped ls ∧ Q ls name id
  | .call _ callee arguments => callee.Scoped ls ∧ Expr.AllScoped ls arguments

def Expr.AllScoped (ls : Layers) : List Expr → Prop
  | [] => True
  | e :: es => e.Scoped ls ∧ Expr.AllScoped ls es

end

mutual

/-- Every node in the statement satisfies `Q` in the layers around it, and declarations stand where
scopes are and repeat no name. -/
def Stmt.Scoped (ls : Layers) : Stmt → Prop
  | .expression _ e => e.Scoped Q ls
  | .print _ e => e.Scoped Q ls
  | .var _ name initializer => ls.Admits name ∧ ∀ e ∈ initializer, e.Scoped Q ls
  | .block _ body => Stmt.AllScoped (.ofBlock body :: ls) body
  | .branch _ condition thenBranch none =>
    condition.Scoped Q ls ∧ thenBranch.declares? = none ∧ thenBranch.Scoped ls
  | .branch _ condition thenBranch (some elseBranch) =>
    condition.Scoped Q ls ∧ (thenBranch.declares? = none ∧ thenBranch.Scoped ls) ∧
      elseBranch.declares? = none ∧ elseBranch.Scoped ls
  | .loop _ condition body => condition.Scoped Q ls ∧ body.declares? = none ∧ body.Scoped ls
  | .function _ name params body =>
    ls.Admits name ∧ params.Nodup ∧
      Stmt.AllScoped (.ofFunction params body :: ls.reveal name) body
  | .result _ value => ∀ e ∈ value, e.Scoped Q ls

def Stmt.AllScoped (ls : Layers) : List Stmt → Prop
  | [] => True
  | s :: ss => s.Scoped ls ∧ Stmt.AllScoped (ls.after s) ss

end

theorem Stmt.allScoped_append {Q : Layers → Name → NodeId → Prop} {ls : Layers} {ss ts : List Stmt} :
    Stmt.AllScoped Q ls (ss ++ ts) ↔
      Stmt.AllScoped Q ls ss ∧ Stmt.AllScoped Q (ls.afterAll ss) ts := by
  induction ss generalizing ls with
  | nil => simp [Stmt.AllScoped, Layers.afterAll]
  | cons s ss ih =>
    rw [List.cons_append, Stmt.AllScoped, Stmt.AllScoped, ih, and_assoc]
    rfl

end Scoped

section Imp
variable {Q R : Layers → Name → NodeId → Prop}

mutual

theorem Expr.Scoped.imp_nodes {ls : Layers} : (e : Expr) →
    (∀ node ∈ e.nodes, Q ls node.1 node.2 → R ls node.1 node.2) → e.Scoped Q ls → e.Scoped R ls
  | .literal _ _, _, _ => trivial
  | .grouping _ inner, h, he => Expr.Scoped.imp_nodes inner h he
  | .unary _ _ operand, h, he => Expr.Scoped.imp_nodes operand h he
  | .binary _ _ left right, h, he | .logical _ _ left right, h, he =>
    ⟨Expr.Scoped.imp_nodes left (fun n hn => h n (List.mem_append_left _ hn)) he.1,
      Expr.Scoped.imp_nodes right (fun n hn => h n (List.mem_append_right _ hn)) he.2⟩
  | .reference _ name id, h, he => h (name, id) (List.mem_singleton_self _) he
  | .assign _ name id value, h, he =>
    ⟨Expr.Scoped.imp_nodes value (fun n hn => h n (List.mem_cons_of_mem _ hn)) he.1,
      h (name, id) List.mem_cons_self he.2⟩
  | .call _ callee arguments, h, he =>
    ⟨Expr.Scoped.imp_nodes callee (fun n hn => h n (List.mem_append_left _ hn)) he.1,
      Expr.AllScoped.imp_nodes arguments (fun n hn => h n (List.mem_append_right _ hn)) he.2⟩

theorem Expr.AllScoped.imp_nodes {ls : Layers} : (es : List Expr) →
    (∀ node ∈ Expr.allNodes es, Q ls node.1 node.2 → R ls node.1 node.2) →
    Expr.AllScoped Q ls es → Expr.AllScoped R ls es
  | [], _, _ => trivial
  | e :: es, h, he =>
    ⟨Expr.Scoped.imp_nodes e (fun n hn => h n (List.mem_append_left _ hn)) he.1,
      Expr.AllScoped.imp_nodes es (fun n hn => h n (List.mem_append_right _ hn)) he.2⟩

end

theorem Expr.Scoped.imp {ls : Layers} (e : Expr)
    (h : ∀ name, ∀ id ∈ e.ids, Q ls name id → R ls name id) (he : e.Scoped Q ls) : e.Scoped R ls :=
  he.imp_nodes e fun node hn => h node.1 node.2 (e.mem_ids_of_mem_nodes hn)

theorem Expr.scoped_idsOf_imp {ls : Layers} {e? : Option Expr}
    (h : ∀ name, ∀ id ∈ Expr.idsOf e?, Q ls name id → R ls name id)
    (he : ∀ e ∈ e?, e.Scoped Q ls) : ∀ e ∈ e?, e.Scoped R ls := by
  rintro e ⟨⟩
  exact .imp e h (he e rfl)

mutual

theorem Stmt.Scoped.imp {ls : Layers} : (s : Stmt) →
    (∀ ls name, ∀ id ∈ s.ids, Q ls name id → R ls name id) → s.Scoped Q ls → s.Scoped R ls
  | .expression _ e, h, hs | .print _ e, h, hs => Expr.Scoped.imp e (h ls) hs
  | .var _ _ _, h, hs => ⟨hs.1, Expr.scoped_idsOf_imp (h ls) hs.2⟩
  | .block _ body, h, hs => Stmt.AllScoped.imp body h hs
  | .branch _ condition thenBranch none, h, hs =>
    ⟨Expr.Scoped.imp condition (fun n i hi => h ls n i (List.mem_append_left _ hi)) hs.1, hs.2.1,
      Stmt.Scoped.imp thenBranch (fun ls n i hi => h ls n i (List.mem_append_right _ hi)) hs.2.2⟩
  | .branch _ condition thenBranch (some elseBranch), h, hs =>
    have hc name id (hi : id ∈ condition.ids) := h ls name id (by simp [Stmt.ids, hi])
    have ht ls name id (hi : id ∈ thenBranch.ids) := h ls name id (by simp [Stmt.ids, hi])
    have he ls name id (hi : id ∈ elseBranch.ids) := h ls name id (by simp [Stmt.ids, hi])
    ⟨Expr.Scoped.imp condition hc hs.1, ⟨hs.2.1.1, Stmt.Scoped.imp thenBranch ht hs.2.1.2⟩,
      hs.2.2.1, Stmt.Scoped.imp elseBranch he hs.2.2.2⟩
  | .loop _ condition body, h, hs =>
    ⟨Expr.Scoped.imp condition (fun n i hi => h ls n i (List.mem_append_left _ hi)) hs.1, hs.2.1,
      Stmt.Scoped.imp body (fun ls n i hi => h ls n i (List.mem_append_right _ hi)) hs.2.2⟩
  | .function _ _ _ body, h, hs => ⟨hs.1, hs.2.1, Stmt.AllScoped.imp body h hs.2.2⟩
  | .result _ _, h, hs => Expr.scoped_idsOf_imp (h ls) hs

theorem Stmt.AllScoped.imp {ls : Layers} : (ss : List Stmt) →
    (∀ ls name, ∀ id ∈ Stmt.allIds ss, Q ls name id → R ls name id) →
    Stmt.AllScoped Q ls ss → Stmt.AllScoped R ls ss
  | [], _, _ => trivial
  | s :: ss, h, hs =>
    ⟨Stmt.Scoped.imp s (fun ls n i hi => h ls n i (List.mem_append_left _ hi)) hs.1,
      Stmt.AllScoped.imp ss (fun ls n i hi => h ls n i (List.mem_append_right _ hi)) hs.2⟩

end

end Imp
end LoxLang
