import Mathlib.Logic.Equiv.Basic
import LoxLang.Proofs.Renaming.Tree
import LoxLang.Proofs.Scoping.Layers

/-!
Trees that are alike but for the names `x` and `y`, which are exchanged in some scopes. A tree in which
one local variable is renamed to a name that occurs nowhere is such a tree.
-/
namespace LoxLang

/-- By distance from a place in a program: does the scope that far out exchange the two names? -/
abbrev Marks := Nat → Bool

namespace Marks

def none : Marks := fun _ => false

def push (b : Bool) (marks : Marks) : Marks
  | 0 => b
  | d + 1 => marks d

def only (depth : Nat) : Marks := fun d => d == depth

@[simp] theorem push_false_none : push false none = none := by
  funext d
  cases d <;> rfl

@[simp] theorem push_true_none : push true none = only 0 := by
  funext d
  cases d <;> rfl

@[simp] theorem push_false_only (depth : Nat) : push false (only depth) = only (depth + 1) := by
  funext d
  cases d with
  | zero => simp [push, only]
  | succ d => simp [push, only]

end Marks

section Definitions
variable (T : Distances) (x y : Name)

def exchange (b : Bool) (name : Name) : Name := if b then Equiv.swap x y name else name

def exchangeNode (marks : Marks) (name : Name) (id : NodeId) : Name :=
  match T[id]? with
  | some d => exchange x y (marks d) name
  | none => name

mutual

/-- The same statement, with the names exchanged where the marks say so and in some of its own
scopes. -/
inductive Stmt.Alike : Marks → Stmt → Stmt → Prop where
  | expression (marks : Marks) (line : Nat) (e : Expr) :
    Stmt.Alike marks (.expression line e) (.expression line (e.mapNames (exchangeNode T x y marks)))
  | print (marks : Marks) (line : Nat) (e : Expr) :
    Stmt.Alike marks (.print line e) (.print line (e.mapNames (exchangeNode T x y marks)))
  | var (marks : Marks) (line : Nat) (name : Name) (initializer : Option Expr) :
    Stmt.Alike marks (.var line name initializer) (.var line (exchange x y (marks 0) name)
      (initializer.map (·.mapNames (exchangeNode T x y marks))))
  | block {marks : Marks} (line : Nat) (b : Bool) {body body' : List Stmt} :
    Stmt.AllAlike (marks.push b) body body' → Stmt.Alike marks (.block line body) (.block line body')
  | ifThen {marks : Marks} (line : Nat) (condition : Expr) {s s' : Stmt} :
    Stmt.Alike marks s s' → Stmt.Alike marks (.branch line condition s none)
      (.branch line (condition.mapNames (exchangeNode T x y marks)) s' none)
  | ifElse {marks : Marks} (line : Nat) (condition : Expr) {s s' t t' : Stmt} :
    Stmt.Alike marks s s' → Stmt.Alike marks t t' →
      Stmt.Alike marks (.branch line condition s (some t))
        (.branch line (condition.mapNames (exchangeNode T x y marks)) s' (some t'))
  | loop {marks : Marks} (line : Nat) (condition : Expr) {body body' : Stmt} :
    Stmt.Alike marks body body' → Stmt.Alike marks (.loop line condition body)
      (.loop line (condition.mapNames (exchangeNode T x y marks)) body')
  | function {marks : Marks} (line : Nat) (b : Bool) (name : Name) (params : List Name)
      {body body' : List Stmt} :
    exchange x y (marks 0) name = name → Stmt.AllAlike (marks.push b) body body' →
      Stmt.Alike marks (.function line name params body)
        (.function line name (params.map (exchange x y b)) body')
  | result (marks : Marks) (line : Nat) (value : Option Expr) :
    Stmt.Alike marks (.result line value)
      (.result line (value.map (·.mapNames (exchangeNode T x y marks))))

inductive Stmt.AllAlike : Marks → List Stmt → List Stmt → Prop where
  | nil (marks : Marks) : Stmt.AllAlike marks [] []
  | cons {marks : Marks} {s s' : Stmt} {ss ss' : List Stmt} :
    Stmt.Alike marks s s' → Stmt.AllAlike marks ss ss' → Stmt.AllAlike marks (s :: ss) (s' :: ss')

end

end Definitions

section
variable {T : Distances} {x y : Name}

@[simp]
theorem map_exchange_false (x y : Name) (names : List Name) :
    names.map (exchange x y false) = names :=
  List.map_id names

theorem exchange_involutive (x y : Name) (b : Bool) : Function.Involutive (exchange x y b) := by
  intro n
  cases b
  · rfl
  · exact Equiv.swap_apply_self x y n

theorem exchange_injective (x y : Name) (b : Bool) : Function.Injective (exchange x y b) :=
  (exchange_involutive x y b).injective

theorem exchange_of_ne {b : Bool} {n : Name} (hx : n ≠ x) (hy : n ≠ y) : exchange x y b n = n := by
  cases b
  · rfl
  · exact Equiv.swap_apply_of_ne_of_ne hx hy

theorem exchange_true {n : Name} (hy : n ≠ y) : exchange x y true n = if n = x then y else n := by
  rw [exchange, if_pos rfl, Equiv.swap_apply_def, if_neg hy]

/-- Names other than `y` stay apart, whether they are exchanged or not. -/
theorem exchange_inj {b c : Bool} {m n : Name} (hm : m ≠ y) (hn : n ≠ y)
    (h : exchange x y b m = exchange x y c n) : m = n := by
  cases b with
  | true =>
    rw [exchange_true hm] at h
    cases c with
    | true =>
      rw [exchange_true hn] at h
      split at h <;> split at h <;> simp_all
    | false =>
      split at h
      · exact absurd h.symm hn
      · exact h
  | false =>
    cases c with
    | true =>
      rw [exchange_true hn] at h
      split at h
      · exact absurd h hm
      · exact h
    | false => exact h

theorem exchangeNode_of_some {marks : Marks} {name : Name} {id : NodeId} {d : Nat}
    (h : T[id]? = some d) : exchangeNode T x y marks name id = exchange x y (marks d) name := by
  rw [exchangeNode, h]

theorem exchangeNode_of_none {marks : Marks} {name : Name} {id : NodeId} (h : T[id]? = none) :
    exchangeNode T x y marks name id = name := by
  rw [exchangeNode, h]

theorem exists_exchangeNode (T : Distances) (x y : Name) (marks : Marks) (name : Name) (id : NodeId) :
    ∃ b, exchangeNode T x y marks name id = exchange x y b name := by
  cases h : T[id]? with
  | some d => exact ⟨marks d, exchangeNode_of_some h⟩
  | none => exact ⟨false, exchangeNode_of_none h⟩

theorem exchangeNode_none (name : Name) (id : NodeId) : exchangeNode T x y .none name id = name := by
  cases h : T[id]? with
  | some d => exact exchangeNode_of_some h
  | none => exact exchangeNode_of_none h

@[simp] theorem map_mapNames_none (e? : Option Expr) :
    e?.map (·.mapNames (exchangeNode T x y .none)) = e? := by
  cases e? with
  | none => rfl
  | some e => rw [Option.map_some, e.mapNames_eq_self exchangeNode_none]

theorem mapNames_none (e : Expr) : e.mapNames (exchangeNode T x y .none) = e :=
  e.mapNames_eq_self exchangeNode_none

mutual

/-- Where nothing is exchanged, a tree is like itself. -/
theorem Stmt.alike_self : (s : Stmt) → Stmt.Alike T x y .none s s
  | .expression line e => by
    have := Stmt.Alike.expression (T := T) (x := x) (y := y) .none line e
    rwa [mapNames_none] at this
  | .print line e => by
    have := Stmt.Alike.print (T := T) (x := x) (y := y) .none line e
    rwa [mapNames_none] at this
  | .var line name initializer => by
    have := Stmt.Alike.var (T := T) (x := x) (y := y) .none line name initializer
    rwa [map_mapNames_none] at this
  | .block line body => .block line false (by simpa using Stmt.allAlike_self body)
  | .branch line condition thenBranch none => by
    have := Stmt.Alike.ifThen line condition thenBranch.alike_self
    rwa [mapNames_none] at this
  | .branch line condition thenBranch (some elseBranch) => by
    have := Stmt.Alike.ifElse line condition thenBranch.alike_self elseBranch.alike_self
    rwa [mapNames_none] at this
  | .loop line condition body => by
    have := Stmt.Alike.loop line condition body.alike_self
    rwa [mapNames_none] at this
  | .function line name params body => by
    have hb : Stmt.AllAlike T x y (Marks.none.push false) body body := by
      simpa using Stmt.allAlike_self body
    have := Stmt.Alike.function line false name params rfl hb
    rwa [map_exchange_false] at this
  | .result line value => by
    have := Stmt.Alike.result (T := T) (x := x) (y := y) .none line value
    rwa [map_mapNames_none] at this

theorem Stmt.allAlike_self : (ss : List Stmt) → Stmt.AllAlike T x y .none ss ss
  | [] => .nil _
  | s :: ss => .cons s.alike_self (Stmt.allAlike_self ss)

end

section Congr
variable {U : Distances}

theorem mapNames_exchangeNode_congr {e : Expr} (h : ∀ id ∈ e.ids, U[id]? = T[id]?) (marks : Marks) :
    e.mapNames (exchangeNode U x y marks) = e.mapNames (exchangeNode T x y marks) :=
  e.mapNames_congr fun node hn => by
    rw [exchangeNode, exchangeNode, h node.2 (e.mem_ids_of_mem_nodes hn)]

theorem map_mapNames_exchangeNode_congr {e? : Option Expr}
    (h : ∀ id ∈ Expr.idsOf e?, U[id]? = T[id]?) (marks : Marks) :
    e?.map (·.mapNames (exchangeNode U x y marks)) =
      e?.map (·.mapNames (exchangeNode T x y marks)) := by
  cases e? with
  | none => rfl
  | some e => exact congrArg some (mapNames_exchangeNode_congr h marks)

mutual

/-- Only the entries of a tree's own nodes matter to it. -/
theorem Stmt.Alike.congr {marks : Marks} {s s' : Stmt} (h : Stmt.Alike T x y marks s s')
    (hU : ∀ id ∈ s.ids, U[id]? = T[id]?) : Stmt.Alike U x y marks s s' := by
  cases h with
  | expression _ line e =>
    rw [← mapNames_exchangeNode_congr hU]
    exact .expression _ line e
  | print _ line e =>
    rw [← mapNames_exchangeNode_congr hU]
    exact .print _ line e
  | var _ line name initializer =>
    rw [← map_mapNames_exchangeNode_congr hU]
    exact .var _ line name initializer
  | block line b hb => exact .block line b (hb.congr hU)
  | ifThen line condition ht =>
    rw [← mapNames_exchangeNode_congr fun id hi => hU id (List.mem_append_left _ hi)]
    exact .ifThen line condition (ht.congr fun id hi => hU id (List.mem_append_right _ hi))
  | ifElse line condition ht he =>
    rw [← mapNames_exchangeNode_congr fun id hi =>
      hU id (List.mem_append_left _ (List.mem_append_left _ hi))]
    refine .ifElse line condition (ht.congr fun id hi => ?_)
      (he.congr fun id hi => hU id (List.mem_append_right _ hi))
    exact hU id (List.mem_append_left _ (List.mem_append_right _ hi))
  | loop line condition hb =>
    rw [← mapNames_exchangeNode_congr fun id hi => hU id (List.mem_append_left _ hi)]
    exact .loop line condition (hb.congr fun id hi => hU id (List.mem_append_right _ hi))
  | function line b name params hkept hb => exact .function line b name params hkept (hb.congr hU)
  | result _ line value =>
    rw [← map_mapNames_exchangeNode_congr hU]
    exact .result _ line value

theorem Stmt.AllAlike.congr {marks : Marks} {ss ss' : List Stmt} (h : Stmt.AllAlike T x y marks ss ss')
    (hU : ∀ id ∈ Stmt.allIds ss, U[id]? = T[id]?) : Stmt.AllAlike U x y marks ss ss' := by
  cases h with
  | nil => exact .nil _
  | cons hs hss =>
    exact .cons (hs.congr fun id hi => hU id (List.mem_append_left _ hi))
      (hss.congr fun id hi => hU id (List.mem_append_right _ hi))

end

end Congr

/-- A new name gives a node what exchanging the two names gives it. -/
theorem renamedNode_eq_exchangeNode {depth : Nat} {name : Name} (id : NodeId) (hy : name ≠ y) :
    renamedNode T x y depth name id = exchangeNode T x y (.only depth) name id := by
  cases hT : T[id]? with
  | none => rw [exchangeNode_of_none hT, renamedNode, if_neg (by simp [hT])]
  | some d =>
    rw [exchangeNode_of_some hT]
    by_cases hd : d = depth
    · subst hd
      have : Marks.only d d = true := by simp [Marks.only]
      rw [this, exchange_true hy]
      simp [renamedNode, hT]
    · have : Marks.only depth d = false := by simp [Marks.only, hd]
      rw [this, renamedNode, if_neg (by simp [hT, hd])]
      rfl

theorem renamedDeclaration_eq_exchange {depth : Nat} {name : Name} (hy : name ≠ y) :
    renamedDeclaration x y depth name = exchange x y (Marks.only depth 0) name := by
  unfold renamedDeclaration
  cases depth with
  | zero =>
    rw [show Marks.only 0 0 = true from rfl, exchange_true hy]
    simp
  | succ d => simp [Marks.only, exchange]

theorem mapNames_renamedNode {depth : Nat} {e : Expr} (hy : y ∉ e.names) :
    e.mapNames (renamedNode T x y depth) = e.mapNames (exchangeNode T x y (.only depth)) :=
  e.mapNames_congr fun node hn => renamedNode_eq_exchangeNode node.2 fun h =>
    hy (h ▸ List.mem_map_of_mem hn)

theorem map_mapNames_renamedNode {depth : Nat} {e? : Option Expr} (hy : y ∉ Expr.namesOf e?) :
    e?.map (·.mapNames (renamedNode T x y depth)) =
      e?.map (·.mapNames (exchangeNode T x y (.only depth))) := by
  cases e? with
  | none => rfl
  | some e => exact congrArg some (mapNames_renamedNode hy)

theorem not_mem_append_iff {α : Type} {a : α} {l l' : List α} : a ∉ l ++ l' ↔ a ∉ l ∧ a ∉ l' := by
  rw [List.mem_append, not_or]

theorem not_mem_map_append {α β : Type} {f : α → β} {b : β} {l l' : List α} :
    b ∉ (l ++ l').map f ↔ b ∉ l.map f ∧ b ∉ l'.map f := by
  rw [List.map_append, not_mem_append_iff]

/-- Directly in the scope of the variable, no function has its name. -/
def Stmt.Keeps (x : Name) (depth : Nat) (s : Stmt) : Prop :=
  depth = 0 → ∀ line params body, s ≠ .function line x params body

theorem Stmt.keeps_of_declares {depth : Nat} {s : Stmt} (h : s.declares? = none) : s.Keeps x depth := by
  rintro - line params body rfl
  cases h

mutual

theorem Stmt.alike_renameAt : (s : Stmt) → {depth : Nat} → s.Placed → s.Keeps x depth → y ∉ s.names →
    Stmt.Alike T x y (.only depth) s (s.renameAt T x y depth)
  | .expression line e, depth, _, _, hy => by
    rw [Stmt.renameAt, mapNames_renamedNode hy]
    exact .expression _ line e
  | .print line e, depth, _, _, hy => by
    rw [Stmt.renameAt, mapNames_renamedNode hy]
    exact .print _ line e
  | .var line name initializer, depth, _, _, hy => by
    obtain ⟨hname, he⟩ := List.ne_and_not_mem_of_not_mem_cons hy
    rw [Stmt.renameAt, map_mapNames_renamedNode he, renamedDeclaration_eq_exchange (Ne.symm hname)]
    exact .var _ line name initializer
  | .block line body, depth, hpl, _, hy => by
    refine .block line false ?_
    rw [Marks.push_false_only]
    exact Stmt.allAlike_renameAt body hpl (fun _ _ => nofun) hy
  | .branch line condition thenBranch none, depth, hpl, _, hy => by
    obtain ⟨hc, ht⟩ := not_mem_append_iff.mp hy
    rw [Stmt.renameAt, mapNames_renamedNode hc]
    exact .ifThen line condition (thenBranch.alike_renameAt hpl.2 (keeps_of_declares hpl.1) ht)
  | .branch line condition thenBranch (some elseBranch), depth, hpl, _, hy => by
    obtain ⟨hct, he⟩ := not_mem_append_iff.mp hy
    obtain ⟨hc, ht⟩ := not_mem_append_iff.mp hct
    rw [Stmt.renameAt, mapNames_renamedNode hc]
    exact .ifElse line condition (thenBranch.alike_renameAt hpl.1.2 (keeps_of_declares hpl.1.1) ht)
      (elseBranch.alike_renameAt hpl.2.2 (keeps_of_declares hpl.2.1) he)
  | .loop line condition body, depth, hpl, _, hy => by
    obtain ⟨hc, hb⟩ := not_mem_append_iff.mp hy
    rw [Stmt.renameAt, mapNames_renamedNode hc]
    exact .loop line condition (body.alike_renameAt hpl.2 (keeps_of_declares hpl.1) hb)
  | .function line name params body, depth, hpl, hk, hy => by
    obtain ⟨hnp, hb⟩ := not_mem_append_iff.mp hy
    obtain ⟨hname, -⟩ := List.ne_and_not_mem_of_not_mem_cons hnp
    have hbody : Stmt.AllAlike T x y ((Marks.only depth).push false) body
        (Stmt.allRenameAt T x y (depth + 1) body) := by
      rw [Marks.push_false_only]
      exact Stmt.allAlike_renameAt body hpl (fun _ _ => nofun) hb
    have hkept : exchange x y (Marks.only depth 0) name = name := by
      cases depth with
      | zero =>
        refine exchange_of_ne ?_ (Ne.symm hname)
        rintro rfl
        exact hk rfl line params body rfl
      | succ d => rfl
    have := Stmt.Alike.function line false name params hkept hbody
    rwa [map_exchange_false] at this
  | .result line value, depth, _, _, hy => by
    rw [Stmt.renameAt, map_mapNames_renamedNode hy]
    exact .result _ line value

theorem Stmt.allAlike_renameAt : (ss : List Stmt) → {depth : Nat} → Stmt.AllPlaced ss →
    (∀ s ∈ ss, s.Keeps x depth) → y ∉ Stmt.allNames ss →
    Stmt.AllAlike T x y (.only depth) ss (Stmt.allRenameAt T x y depth ss)
  | [], _, _, _, _ => .nil _
  | s :: ss, depth, hpl, hk, hy => by
    obtain ⟨hs, hss⟩ := not_mem_append_iff.mp hy
    exact .cons (s.alike_renameAt hpl.1 (hk s List.mem_cons_self) hs)
      (Stmt.allAlike_renameAt ss hpl.2 (fun s hs => hk s (List.mem_cons_of_mem _ hs)) hss)

end

section Unique
variable {Q : Layers → Name → NodeId → Prop} {l : Layer} {ls : Layers} {body : List Stmt}

/-- What is declared later is not visible yet. -/
theorem Stmt.AllScoped.not_visible {s : Stmt} {name : Name} (h : Stmt.AllScoped Q (l :: ls) body)
    (hs : s ∈ body) (hd : s.declares? = some name) : name ∉ l.visible := by
  induction body generalizing l with
  | nil => cases hs
  | cons t ts ih =>
    obtain ⟨ht, hts⟩ := h
    rcases List.mem_cons.mp hs with rfl | hs
    · cases s with
      | var line n initializer => cases hd; exact (ht.1 l rfl).1
      | function line n params body => cases hd; exact (ht.1 l rfl).1
      | _ => cases hd
    · unfold Layers.after at hts
      split at hts
      · exact fun hv => ih hts hs (List.mem_cons_of_mem _ hv)
      · exact ih hts hs

/-- In a scope that declares a variable no function has its name. -/
theorem Stmt.AllScoped.keeps (h : Stmt.AllScoped Q (l :: ls) body)
    (hx : x ∈ l.visible ∨ Stmt.DeclareVar x body) (depth : Nat) : ∀ s ∈ body, s.Keeps x depth := by
  rintro s hs - line params fbody rfl
  obtain hv | ⟨vline, initializer, hvar⟩ := hx
  · exact h.not_visible hs rfl hv
  · induction body generalizing l with
    | nil => cases hs
    | cons t ts ih =>
      have hrest := h.2
      rcases List.mem_cons.mp hs with rfl | hfun
      · rcases List.mem_cons.mp hvar with hvar | hvar
        · cases hvar
        · have hd : (Stmt.var vline x initializer).declares? = some x := rfl
          exact hrest.not_visible hvar hd List.mem_cons_self
      · rcases List.mem_cons.mp hvar with rfl | hvar
        · have hd : (Stmt.function line x params fbody).declares? = some x := rfl
          exact hrest.not_visible hfun hd List.mem_cons_self
        · unfold Layers.after at hrest
          split at hrest
          · exact ih hrest hfun hvar
          · exact ih hrest hfun hvar

end Unique

section Renamed
variable {Q : Layers → Name → NodeId → Prop}

mutual

/-- A tree with a renamed variable is like the tree itself. -/
theorem Stmt.Renamed.alike {s s' : Stmt} (h : Stmt.Renamed T x y s s') (hy : y ∉ s.names)
    {ls : Layers} (hpl : s.Placed) (hs : s.Scoped Q ls) : Stmt.Alike T x y .none s s' := by
  cases h with
  | @block line body hx =>
    refine .block line true ?_
    rw [Marks.push_true_none]
    exact Stmt.allAlike_renameAt body hpl (hs.keeps (.inr hx) 0) hy
  | @function line name params body hx =>
    obtain ⟨hnp, hb⟩ := not_mem_append_iff.mp hy
    have hparams : params.map (renamedDeclaration x y 0) = params.map (exchange x y true) :=
      List.map_congr_left fun n hn => renamedDeclaration_eq_exchange fun he =>
        hnp (he ▸ List.mem_cons_of_mem _ hn)
    rw [hparams]
    refine .function line true name params rfl ?_
    rw [Marks.push_true_none]
    exact Stmt.allAlike_renameAt body hpl (hs.2.2.keeps hx 0) hb
  | inBlock line hbody =>
    refine .block line false ?_
    rw [Marks.push_false_none]
    exact hbody.alike hy hpl hs
  | inThen line condition elseBranch ht =>
    cases elseBranch with
    | none =>
      have := Stmt.Alike.ifThen line condition
        (ht.alike (not_mem_append_iff.mp hy).2 hpl.2 hs.2.2)
      rwa [mapNames_none] at this
    | some e =>
      have := Stmt.Alike.ifElse line condition
        (ht.alike (not_mem_append_iff.mp (not_mem_append_iff.mp hy).1).2 hpl.1.2 hs.2.1.2)
        e.alike_self
      rwa [mapNames_none] at this
  | inElse line condition thenBranch he =>
    have := Stmt.Alike.ifElse line condition thenBranch.alike_self
      (he.alike (not_mem_append_iff.mp hy).2 hpl.2.2 hs.2.2.2)
    rwa [mapNames_none] at this
  | inLoop line condition hbody =>
    have := Stmt.Alike.loop line condition
      (hbody.alike (not_mem_append_iff.mp hy).2 hpl.2 hs.2.2)
    rwa [mapNames_none] at this
  | @inFunction line name params body body' hbody =>
    have hb : Stmt.AllAlike T x y (Marks.none.push false) body body' := by
      rw [Marks.push_false_none]
      exact hbody.alike (not_mem_append_iff.mp hy).2 hpl hs.2.2
    have := Stmt.Alike.function line false name params rfl hb
    rwa [map_exchange_false] at this

theorem Stmt.AllRenamed.alike {ss ss' : List Stmt} (h : Stmt.AllRenamed T x y ss ss')
    (hy : y ∉ Stmt.allNames ss) {ls : Layers} (hpl : Stmt.AllPlaced ss) (hs : Stmt.AllScoped Q ls ss) :
    Stmt.AllAlike T x y .none ss ss' := by
  cases h with
  | head ss h => exact .cons (h.alike (not_mem_append_iff.mp hy).1 hpl.1 hs.1) (Stmt.allAlike_self ss)
  | tail s h => exact .cons s.alike_self (h.alike (not_mem_append_iff.mp hy).2 hpl.2 hs.2)

end

end Renamed

end
end LoxLang
