import Mathlib.Data.List.Perm.Subperm
import LoxLang.Scoping
import LoxLang.Proofs.Scoping.Layers

/-!
Local declarations. Where all of them have different names, the scopes around a place declare
different names, and the references that are not local use none of these.
-/
namespace LoxLang

mutual

def Stmt.locals : Stmt → List Name
  | .block _ body => Stmt.declaredNames body ++ Stmt.allLocals body
  | .branch _ _ thenBranch none => thenBranch.locals
  | .branch _ _ thenBranch (some elseBranch) => thenBranch.locals ++ elseBranch.locals
  | .loop _ _ body => body.locals
  | .function _ _ params body => params ++ Stmt.declaredNames body ++ Stmt.allLocals body
  | _ => []

def Stmt.allLocals : List Stmt → List Name
  | [] => []
  | s :: ss => s.locals ++ Stmt.allLocals ss

end

def Layers.declared (ls : Layers) : List Name := ls.flatMap Layer.declared

theorem Layers.declared_reveal (ls : Layers) (name : Name) :
    (ls.reveal name).declared = ls.declared := by
  cases ls <;> rfl

theorem Layers.declared_after (ls : Layers) (s : Stmt) : (ls.after s).declared = ls.declared := by
  unfold Layers.after
  split
  · exact ls.declared_reveal _
  · rfl

def Apart (T : Distances) (ls : Layers) (name : Name) (id : NodeId) : Prop :=
  ls.declared.Nodup ∧ (T[id]? = none → name ∉ ls.declared)

/-- The names around a part of a program and inside it: they differ, and references that are not local
use none of them. -/
structure Separate (T : Distances) (ls : Layers) (names : List Name)
    (nodes : List (Name × NodeId)) : Prop where
  nodup : (ls.declared ++ names).Nodup
  avoided : ∀ node ∈ nodes, T[node.2]? = none → node.1 ∉ ls.declared ++ names

section
variable {Q : Layers → Name → NodeId → Prop} {T : Distances}

theorem Separate.apart {ls : Layers} {names : List Name} {nodes : List (Name × NodeId)}
    (h : Separate T ls names nodes) {node : Name × NodeId} (hn : node ∈ nodes) :
    Apart T ls node.1 node.2 :=
  ⟨(List.nodup_append.mp h.nodup).1, fun hT hmem => h.avoided node hn hT (List.mem_append_left _ hmem)⟩

/-- A part of the part. -/
theorem Separate.part {ls ls' : Layers} {names names' : List Name} {nodes nodes' : List (Name × NodeId)}
    (h : Separate T ls names nodes) (hnames : (ls'.declared ++ names').Subperm (ls.declared ++ names))
    (hnodes : nodes' ⊆ nodes) : Separate T ls' names' nodes' where
  nodup := by
    obtain ⟨l, hperm, hsub⟩ := hnames
    exact hperm.nodup_iff.mp (h.nodup.sublist hsub)
  avoided node hn hT hmem := h.avoided node (hnodes hn) hT (hnames.subset hmem)

theorem Separate.left {ls : Layers} {names names' : List Name} {nodes nodes' : List (Name × NodeId)}
    (h : Separate T ls (names ++ names') (nodes ++ nodes')) : Separate T ls names nodes :=
  h.part ((List.subperm_append_left _).mpr (List.sublist_append_left _ _).subperm)
    (List.subset_append_left _ _)

theorem Separate.right {ls : Layers} {names names' : List Name} {nodes nodes' : List (Name × NodeId)}
    (h : Separate T ls (names ++ names') (nodes ++ nodes')) : Separate T ls names' nodes' :=
  h.part ((List.subperm_append_left _).mpr (List.sublist_append_right _ _).subperm)
    (List.subset_append_right _ _)

/-- Inside a block or function its own names are around. -/
theorem Separate.inside {ls : Layers} {l : Layer} {names : List Name} {nodes : List (Name × NodeId)}
    (h : Separate T ls (l.declared ++ names) nodes) : Separate T (l :: ls) names nodes := by
  refine h.part (List.Perm.subperm ?_) (List.Subset.refl _)
  rw [Layers.declared, List.flatMap_cons, ← List.append_assoc]
  exact List.perm_append_comm.append_right names

theorem Separate.among {ls : Layers} {names : List Name} {nodes nodes' : List (Name × NodeId)}
    (h : Separate T ls names nodes) (hn : nodes' ⊆ nodes) : Separate T ls names nodes' :=
  h.part (List.Subperm.refl _) hn

theorem Separate.congr {ls ls' : Layers} {names : List Name} {nodes : List (Name × NodeId)}
    (h : Separate T ls names nodes) (hls : ls'.declared = ls.declared) :
    Separate T ls' names nodes :=
  h.part (by rw [hls]) (List.Subset.refl _)

theorem Expr.Scoped.apart {ls : Layers} {names : List Name} {e : Expr} (h : Separate T ls names e.nodes)
    (he : e.Scoped Q ls) : e.Scoped (fun ls name id => Q ls name id ∧ Apart T ls name id) ls :=
  he.imp_nodes e fun _ hn hq => ⟨hq, h.apart hn⟩

theorem Expr.scoped_apart_of {ls : Layers} {names : List Name} {e? : Option Expr}
    (h : Separate T ls names (Expr.nodesOf e?)) (he : ∀ e ∈ e?, e.Scoped Q ls) :
    ∀ e ∈ e?, e.Scoped (fun ls name id => Q ls name id ∧ Apart T ls name id) ls := by
  rintro e ⟨⟩
  exact .apart h (he e rfl)

mutual

theorem Stmt.Scoped.apart : (s : Stmt) → {ls : Layers} → Separate T ls s.locals s.nodes →
    s.Scoped Q ls → s.Scoped (fun ls name id => Q ls name id ∧ Apart T ls name id) ls
  | .expression _ e, _, h, hs | .print _ e, _, h, hs => Expr.Scoped.apart h hs
  | .var _ _ _, _, h, hs => ⟨hs.1, Expr.scoped_apart_of h hs.2⟩
  | .block _ body, ls, h, hs => Stmt.AllScoped.apart body h.inside hs
  | .branch _ condition thenBranch none, ls, h, hs =>
    ⟨Expr.Scoped.apart (h.among (List.subset_append_left _ _)) hs.1, hs.2.1,
      Stmt.Scoped.apart thenBranch (h.among (List.subset_append_right _ _)) hs.2.2⟩
  | .branch _ condition thenBranch (some elseBranch), ls, h, hs =>
    have hbranches : Separate T ls (thenBranch.locals ++ elseBranch.locals)
        (thenBranch.nodes ++ elseBranch.nodes) := h.among (by simp [Stmt.nodes])
    ⟨Expr.Scoped.apart (h.among (by simp [Stmt.nodes])) hs.1,
      ⟨hs.2.1.1, Stmt.Scoped.apart thenBranch hbranches.left hs.2.1.2⟩,
      hs.2.2.1, Stmt.Scoped.apart elseBranch hbranches.right hs.2.2.2⟩
  | .loop _ condition body, ls, h, hs =>
    ⟨Expr.Scoped.apart (h.among (List.subset_append_left _ _)) hs.1, hs.2.1,
      Stmt.Scoped.apart body (h.among (List.subset_append_right _ _)) hs.2.2⟩
  | .function _ name _ body, ls, h, hs =>
    ⟨hs.1, hs.2.1, Stmt.AllScoped.apart body (h.congr (ls.declared_reveal name)).inside hs.2.2⟩
  | .result _ _, _, h, hs => Expr.scoped_apart_of h hs

theorem Stmt.AllScoped.apart : (ss : List Stmt) → {ls : Layers} →
    Separate T ls (Stmt.allLocals ss) (Stmt.allNodes ss) → Stmt.AllScoped Q ls ss →
      Stmt.AllScoped (fun ls name id => Q ls name id ∧ Apart T ls name id) ls ss
  | [], _, _, _ => trivial
  | s :: ss, ls, h, hs =>
    ⟨Stmt.Scoped.apart s h.left hs.1,
      Stmt.AllScoped.apart ss (h.right.congr (ls.declared_after s)) hs.2⟩

end

end
end LoxLang
