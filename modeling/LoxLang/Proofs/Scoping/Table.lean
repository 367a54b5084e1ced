import LoxLang.Scoping
import LoxLang.Proofs.Scoping.Layers

/-!
The table of distances is that of the layers: each node of an accepted program has the distance of
the innermost scope that shows its name, and no entry if there is none.
-/
namespace LoxLang

def Bound (T : Distances) (ls : Layers) (name : Name) (id : NodeId) : Prop :=
  T[id]? = ls.distance? name

namespace Scoping

section Frame

theorem getElem?_insert (T : Distances) (id i : NodeId) (d : Nat) :
    (T.insert id d)[i]? = if id = i then some d else T[i]? := by
  simp [Std.TreeMap.getElem?_insert]

@[simp] theorem Pass.bind_scopes (p : Pass) (name : Name) (id : NodeId) :
    (p.bind name id).scopes = p.scopes := by
  unfold Pass.bind; split <;> rfl

@[simp] theorem Pass.bind_faults (p : Pass) (name : Name) (id : NodeId) :
    (p.bind name id).faults = p.faults := by
  unfold Pass.bind; split <;> rfl

theorem Pass.bind_distances (p : Pass) (name : Name) (id i : NodeId) :
    (p.bind name id).distances[i]? =
      if id = i then (p.distance? name).or p.distances[i]? else p.distances[i]? := by
  unfold Pass.bind
  split
  · next d hd => simp only [getElem?_insert, hd, Option.some_or]
  · next hd => simp [hd]

mutual

/-- An expression declares nothing. -/
theorem expr_scopes : (e : Expr) → (p : Pass) → (expr e p).scopes = p.scopes
  | .literal _ _, _ => rfl
  | .grouping _ inner, p => expr_scopes inner p
  | .unary _ _ operand, p => expr_scopes operand p
  | .binary _ _ left right, p | .logical _ _ left right, p =>
    (expr_scopes right _).trans (expr_scopes left p)
  | .reference _ name id, p => p.bind_scopes name id
  | .assign _ name id value, p => ((expr value p).bind_scopes name id).trans (expr_scopes value p)
  | .call _ callee arguments, p => (exprs_scopes arguments _).trans (expr_scopes callee p)

theorem exprs_scopes : (es : List Expr) → (p : Pass) → (exprs es p).scopes = p.scopes
  | [], _ => rfl
  | e :: es, p => (exprs_scopes es _).trans (expr_scopes e p)

end

mutual

/-- An expression has no faults. -/
theorem expr_faults : (e : Expr) → (p : Pass) → (expr e p).faults = p.faults
  | .literal _ _, _ => rfl
  | .grouping _ inner, p => expr_faults inner p
  | .unary _ _ operand, p => expr_faults operand p
  | .binary _ _ left right, p | .logical _ _ left right, p =>
    (expr_faults right _).trans (expr_faults left p)
  | .reference _ name id, p => p.bind_faults name id
  | .assign _ name id value, p => ((expr value p).bind_faults name id).trans (expr_faults value p)
  | .call _ callee arguments, p => (exprs_faults arguments _).trans (expr_faults callee p)

theorem exprs_faults : (es : List Expr) → (p : Pass) → (exprs es p).faults = p.faults
  | [], _ => rfl
  | e :: es, p => (exprs_faults es _).trans (expr_faults e p)

end

mutual

/-- Only the ids of an expression get an entry from it. -/
theorem expr_distances : (e : Expr) → (p : Pass) → {id : NodeId} → id ∉ e.ids →
    (expr e p).distances[id]? = p.distances[id]?
  | .literal _ _, _, _, _ => rfl
  | .grouping _ inner, p, _, h => expr_distances inner p h
  | .unary _ _ operand, p, _, h => expr_distances operand p h
  | .binary _ _ left right, p, _, h | .logical _ _ left right, p, _, h =>
    (expr_distances right _ fun hi => h (List.mem_append_right _ hi)).trans
      (expr_distances left p fun hi => h (List.mem_append_left _ hi))
  | .reference _ name id, p, i, h => by
    rw [expr, p.bind_distances, if_neg (Ne.symm (List.ne_of_not_mem_cons h))]
  | .assign _ name id value, p, i, h => by
    rw [expr, Pass.bind_distances, if_neg (Ne.symm (List.ne_of_not_mem_cons h))]
    exact expr_distances value p (List.not_mem_of_not_mem_cons h)
  | .call _ callee arguments, p, _, h =>
    (exprs_distances arguments _ fun hi => h (List.mem_append_right _ hi)).trans
      (expr_distances callee p fun hi => h (List.mem_append_left _ hi))

theorem exprs_distances : (es : List Expr) → (p : Pass) → {id : NodeId} → id ∉ Expr.allIds es →
    (exprs es p).distances[id]? = p.distances[id]?
  | [], _, _, _ => rfl
  | e :: es, p, _, h =>
    (exprs_distances es _ fun hi => h (List.mem_append_right _ hi)).trans
      (expr_distances e p fun hi => h (List.mem_append_left _ hi))

end

end Frame

def Pass.Sees (p : Pass) (ls : Layers) : Prop := ∀ name, p.distance? name = ls.distance? name

theorem Pass.Sees.expr {p : Pass} {ls : Layers} (h : p.Sees ls) (e : Expr) :
    (Scoping.expr e p).Sees ls := by
  intro name
  rw [Pass.distance?, expr_scopes]
  exact h name

def Pass.Lacks (p : Pass) (ids : List NodeId) : Prop := ∀ id ∈ ids, p.distances[id]? = none

theorem bound_of_distances {T U : Distances} {ids : List NodeId}
    (h : ∀ id ∈ ids, U[id]? = T[id]?) (ls : Layers) (name : Name) (id : NodeId) (hid : id ∈ ids)
    (hb : Bound T ls name id) : Bound U ls name id :=
  (h id hid).trans hb

structure Pass.Splits (p : Pass) (first second : List NodeId) : Prop where
  nodup_first : first.Nodup
  nodup_second : second.Nodup
  not_mem : ∀ id ∈ first, id ∉ second
  lacks_first : p.Lacks first
  lacks_second : ∀ q : Pass, (∀ {id}, id ∉ first → q.distances[id]? = p.distances[id]?) →
    q.Lacks second

theorem Pass.splits {p : Pass} {first second : List NodeId} (hn : (first ++ second).Nodup)
    (hl : p.Lacks (first ++ second)) : p.Splits first second := by
  obtain ⟨h1, h2, hd⟩ := List.nodup_append.mp hn
  refine ⟨h1, h2, fun id hi hi' => hd id hi id hi' rfl,
    fun id hi => hl id (List.mem_append_left _ hi), fun q hq id hi => ?_⟩
  rw [hq fun hi' => hd id hi' id hi rfl]
  exact hl id (List.mem_append_right _ hi)

mutual

theorem expr_scoped : (e : Expr) → {p : Pass} → {ls : Layers} → p.Sees ls → e.ids.Nodup →
    p.Lacks e.ids → e.Scoped (Bound (expr e p).distances) ls
  | .literal _ _, _, _, _, _, _ => trivial
  | .grouping _ inner, _, _, hp, hn, hl => expr_scoped inner hp hn hl
  | .unary _ _ operand, _, _, hp, hn, hl => expr_scoped operand hp hn hl
  | .binary _ _ left right, p, ls, hp, hn, hl | .logical _ _ left right, p, ls, hp, hn, hl => by
    have hs := Pass.splits hn hl
    refine ⟨(expr_scoped left hp hs.nodup_first hs.lacks_first).imp left
      (bound_of_distances (fun id hi => expr_distances right _ (hs.not_mem id hi)) ls), ?_⟩
    exact expr_scoped right (hp.expr left) hs.nodup_second
      (hs.lacks_second _ (expr_distances left p))
  | .reference _ name id, p, ls, hp, hn, hl => by
    have hid : p.distances[id]? = none := hl id (List.mem_singleton_self id)
    simp only [Expr.Scoped, Bound, expr, p.bind_distances, if_true, hp name, hid, Option.or_none]
  | .assign _ name id value, p, ls, hp, hn, hl => by
    obtain ⟨hid, hnv⟩ := List.nodup_cons.mp hn
    have hv : p.Lacks value.ids := fun i hi => hl i (List.mem_cons_of_mem _ hi)
    have hnone : (expr value p).distances[id]? = none :=
      (expr_distances value p hid).trans (hl id List.mem_cons_self)
    refine ⟨(expr_scoped value hp hnv hv).imp value (bound_of_distances (fun i hi => ?_) ls), ?_⟩
    · rw [expr, Pass.bind_distances, if_neg]
      rintro rfl
      exact hid hi
    · simp only [Bound, expr, Pass.bind_distances, if_true, hp.expr value name, hnone,
        Option.or_none]
  | .call _ callee arguments, p, ls, hp, hn, hl => by
    have hs := Pass.splits hn hl
    refine ⟨(expr_scoped callee hp hs.nodup_first hs.lacks_first).imp callee
      (bound_of_distances (fun id hi => exprs_distances arguments _ (hs.not_mem id hi)) ls), ?_⟩
    exact exprs_scoped arguments (hp.expr callee) hs.nodup_second
      (hs.lacks_second _ (expr_distances callee p))

theorem exprs_scoped : (es : List Expr) → {p : Pass} → {ls : Layers} → p.Sees ls →
    (Expr.allIds es).Nodup → p.Lacks (Expr.allIds es) →
    Expr.AllScoped (Bound (exprs es p).distances) ls es
  | [], _, _, _, _, _ => trivial
  | e :: es, p, ls, hp, hn, hl => by
    have hs := Pass.splits hn hl
    refine ⟨(expr_scoped e hp hs.nodup_first hs.lacks_first).imp e
      (bound_of_distances (fun id hi => exprs_distances es _ (hs.not_mem id hi)) ls), ?_⟩
    exact exprs_scoped es (hp.expr e) hs.nodup_second (hs.lacks_second _ (expr_distances e p))

end

section Statements

@[simp] theorem Pass.mark_faults (p : Pass) (name : Name) (complete : Bool) :
    (p.mark name complete).faults = p.faults := by
  unfold mark; split <;> rfl

@[simp] theorem Pass.mark_distances (p : Pass) (name : Name) (complete : Bool) :
    (p.mark name complete).distances = p.distances := by
  unfold mark; split <;> rfl

@[simp] theorem Pass.complete_faults (p : Pass) (name : Name) :
    (p.complete name).faults = p.faults := p.mark_faults name true

@[simp] theorem Pass.complete_distances (p : Pass) (name : Name) :
    (p.complete name).distances = p.distances := p.mark_distances name true

@[simp] theorem Pass.declare_distances (p : Pass) (name : Name) (line : Nat) :
    (p.declare name line).distances = p.distances := by
  simp only [declare, mark_distances]; split <;> rfl

theorem Pass.declare_scopes (p : Pass) (name : Name) (line : Nat) :
    (p.declare name line).scopes = (p.mark name false).scopes := by
  unfold declare
  split
  · simp only [mark, fault]; split <;> rfl
  · rfl

theorem Pass.le_faults_declare (p : Pass) (name : Name) (line : Nat) :
    p.faults.size ≤ (p.declare name line).faults.size := by
  simp only [declare, mark_faults]
  split
  · simp [fault]
  · exact Nat.le_refl _

theorem Pass.parameters_distances (params : List Name) (line : Nat) (p : Pass) :
    (p.parameters line params).distances = p.distances := by
  induction params generalizing p with
  | nil => rfl
  | cons name names ih => simp [parameters, ih]

theorem Pass.le_faults_parameters (params : List Name) (line : Nat) (p : Pass) :
    p.faults.size ≤ (p.parameters line params).faults.size := by
  induction params generalizing p with
  | nil => exact Nat.le_refl _
  | cons name names ih =>
    refine Nat.le_trans ?_ (ih _)
    simpa using p.le_faults_declare name line

theorem initializer_distances (line : Nat) (name : Name) (e : Expr) (p : Pass) {id : NodeId}
    (h : id ∉ e.ids) : (initializer line name e p).distances[id]? = p.distances[id]? := by
  rw [initializer, expr_distances e _ h]
  split <;> rfl

theorem le_faults_initializer (line : Nat) (name : Name) (e : Expr) (p : Pass) :
    p.faults.size ≤ (initializer line name e p).faults.size := by
  rw [initializer, expr_faults]
  split
  · simp [Pass.fault]
  · exact Nat.le_refl _

mutual

theorem le_faults_stmt : (s : Stmt) → (p : Pass) → p.faults.size ≤ (stmt s p).faults.size
  | .expression _ e, p | .print _ e, p => Nat.le_of_eq (congrArg Array.size (expr_faults e p).symm)
  | .var line name none, p => by simpa [stmt] using p.le_faults_declare name line
  | .var line name (some e), p => by
    simp only [stmt, Pass.complete_faults]
    exact Nat.le_trans (p.le_faults_declare name line) (le_faults_initializer _ _ _ _)
  | .block _ body, p => le_faults_stmts body p.opened
  | .branch _ condition thenBranch none, p => by
    have := le_faults_stmt thenBranch (expr condition p)
    rwa [expr_faults] at this
  | .branch _ condition thenBranch (some elseBranch), p => by
    have := le_faults_stmt thenBranch (expr condition p)
    rw [expr_faults] at this
    exact Nat.le_trans this (le_faults_stmt elseBranch _)
  | .loop _ condition body, p => by
    have := le_faults_stmt body (expr condition p)
    rwa [expr_faults] at this
  | .function line name params body, p => by
    refine Nat.le_trans ?_ (le_faults_stmts body _)
    refine Nat.le_trans ?_ (Pass.le_faults_parameters params line _)
    simpa [Pass.enterFunction, Pass.opened] using p.le_faults_declare name line
  | .result line value, p => by
    have : p.faults.size ≤
        (if p.functionDepth = 0 then p.fault line "return" .topLevelReturn else p).faults.size := by
      split <;> simp [Pass.fault]
    cases value with
    | none => exact this
    | some e => simpa only [stmt, expr_faults] using this

theorem le_faults_stmts : (ss : List Stmt) → (p : Pass) →
    p.faults.size ≤ (stmts ss p).faults.size
  | [], _ => Nat.le_refl _
  | s :: ss, p => Nat.le_trans (le_faults_stmt s p) (le_faults_stmts ss _)

end

mutual

/-- Only the ids of a statement get an entry from it. -/
theorem stmt_distances : (s : Stmt) → (p : Pass) → {id : NodeId} → id ∉ s.ids →
    (stmt s p).distances[id]? = p.distances[id]?
  | .expression _ e, p, _, h | .print _ e, p, _, h => expr_distances e p h
  | .var line name none, p, _, _ => by simp [stmt]
  | .var line name (some e), p, id, h => by
    simp only [stmt, Pass.complete_distances]
    rw [initializer_distances _ _ _ _ h, Pass.declare_distances]
  | .block _ body, p, _, h => stmts_distances body p.opened h
  | .branch _ condition thenBranch none, p, _, h =>
    (stmt_distances thenBranch _ fun hi => h (List.mem_append_right _ hi)).trans
      (expr_distances condition p fun hi => h (List.mem_append_left _ hi))
  | .branch _ condition thenBranch (some elseBranch), p, id, h => by
    simp only [Stmt.ids, List.mem_append, not_or] at h
    rw [stmt, stmt_distances elseBranch _ h.2, stmt_distances thenBranch _ h.1.2,
      expr_distances condition p h.1.1]
  | .loop _ condition body, p, _, h =>
    (stmt_distances body _ fun hi => h (List.mem_append_right _ hi)).trans
      (expr_distances condition p fun hi => h (List.mem_append_left _ hi))
  | .function line name params body, p, id, h => by
    refine (stmts_distances body _ h).trans ?_
    simp [Pass.parameters_distances, Pass.enterFunction, Pass.opened]
  | .result line value, p, id, h => by
    have hp : (if p.functionDepth = 0 then p.fault line "return" .topLevelReturn else p).distances =
        p.distances := by split <;> rfl
    cases value with
    | none => simp only [stmt, hp]
    | some e => simp only [stmt, expr_distances e _ h, hp]

theorem stmts_distances : (ss : List Stmt) → (p : Pass) → {id : NodeId} → id ∉ Stmt.allIds ss →
    (stmts ss p).distances[id]? = p.distances[id]?
  | [], _, _, _ => rfl
  | s :: ss, p, _, h =>
    (stmts_distances ss _ fun hi => h (List.mem_append_right _ hi)).trans
      (stmt_distances s p fun hi => h (List.mem_append_left _ hi))

end

def Shows (names : Names) (l : Layer) : Prop :=
  ∀ n, names.lookup n = if n ∈ l.visible then some true else none

def Pass.Agrees (p : Pass) (ls : Layers) : Prop := List.Forall₂ Shows p.scopes ls

theorem shows_nil (declared : List Name) : Shows [] ⟨[], declared⟩ := fun _ => rfl

/-- A declaration that is not complete hides nothing but itself. -/
theorem Shows.lookup_cons_false {names : Names} {l : Layer} (h : Shows names l) {name : Name}
    (hname : name ∉ l.visible) (n : Name) :
    List.lookup n ((name, false) :: names) = some true ↔ n ∈ l.visible := by
  by_cases hn : n = name
  · simp [hn, hname]
  · have : (n == name) = false := by simp [hn]
    simp [List.lookup_cons, this, h n]

theorem Shows.cons_cons {names : Names} {l : Layer} (h : Shows names l) (name : Name) :
    Shows ((name, true) :: (name, false) :: names) { l with visible := name :: l.visible } := by
  intro n
  by_cases hn : n = name
  · simp [hn]
  · have : (n == name) = false := by simp [hn]
    simp [List.lookup_cons, this, hn, h n]

theorem findIdx?_of_forall₂ {names : List Names} {ls : Layers} (h : List.Forall₂ Shows names ls)
    (name : Name) : names.findIdx? (·.lookup name = some true) = Layers.distance? ls name := by
  induction h with
  | nil => rfl
  | cons hs _ ih =>
    rw [List.findIdx?_cons, Layers.distance?, List.findIdx?_cons, ih, hs name]
    split <;> simp_all [Layers.distance?]

theorem Pass.Agrees.sees {p : Pass} {ls : Layers} (h : p.Agrees ls) : p.Sees ls :=
  findIdx?_of_forall₂ h

/-- After a declaration is complete the innermost scope shows its name. -/
theorem Pass.Agrees.reveal {p : Pass} {ls : Layers} (h : p.Agrees ls) (name : Name) (line : Nat) :
    ((p.declare name line).complete name).Agrees (ls.reveal name) := by
  unfold Agrees at *
  rw [complete, mark, declare_scopes, mark]
  cases hp : p.scopes with
  | nil =>
    rw [hp, List.forall₂_nil_left_iff] at h
    simp [declare_scopes, mark, hp, h, Layers.reveal]
  | cons names outer =>
    rw [hp] at h
    cases h with
    | cons hs hss => exact .cons (hs.cons_cons name) hss

/-- An initializer is looked up as if its own declaration were not there. -/
theorem Pass.Agrees.sees_declare {p : Pass} {ls : Layers} (h : p.Agrees ls) {name : Name}
    (hname : ∀ l ∈ ls.head?, name ∉ l.visible) (line : Nat) : (p.declare name line).Sees ls := by
  intro n
  unfold distance?
  rw [declare_scopes, mark]
  unfold Agrees at h
  cases hp : p.scopes with
  | nil =>
    rw [hp] at h
    simpa [hp] using findIdx?_of_forall₂ h n
  | cons names outer =>
    rw [hp] at h
    cases h with
    | @cons _ l _ ls hs hss =>
      simp only [List.findIdx?_cons, Layers.distance?, hs.lookup_cons_false (hname l rfl) n]
      rw [findIdx?_of_forall₂ hss n]
      rfl

/-- No fault means that the name was not declared before. -/
theorem Pass.Agrees.not_visible {p : Pass} {ls : Layers} (h : p.Agrees ls) {name : Name}
    {line : Nat} (hf : (p.declare name line).faults.size = 0) :
    ∀ l ∈ ls.head?, name ∉ l.visible := by
  intro l hl hv
  unfold Agrees at h
  cases ls with
  | nil => cases hl
  | cons l' ls =>
    cases hl
    cases hp : p.scopes with
    | nil => rw [hp] at h; cases h
    | cons names outer =>
      rw [hp] at h
      cases h with
      | cons hs hss => simp [declare, declares, hp, hs name, hv, fault] at hf

theorem Pass.Agrees.expr {p : Pass} {ls : Layers} (h : p.Agrees ls) (e : Expr) :
    (Scoping.expr e p).Agrees ls := by
  unfold Agrees
  rwa [expr_scopes]

theorem Pass.Agrees.opened {p : Pass} {ls : Layers} (h : p.Agrees ls) (declared : List Name) :
    p.opened.Agrees (⟨[], declared⟩ :: ls) :=
  .cons (shows_nil declared) h

theorem Pass.Agrees.closed {p : Pass} {ls : Layers} (h : p.Agrees ls) : p.closed.Agrees ls.tail := by
  unfold Agrees Pass.closed at *
  generalize p.scopes = scopes at h
  cases h with
  | nil => exact .nil
  | cons _ h => exact h

theorem Shows.congr {names : Names} {l l' : Layer} (h : Shows names l)
    (hl : ∀ n, n ∈ l.visible ↔ n ∈ l'.visible) : Shows names l' := by
  intro n
  simp only [h n, hl n]

theorem Pass.Agrees.parameters {p : Pass} {l : Layer} {ls : Layers} (h : p.Agrees (l :: ls))
    (line : Nat) (params : List Name) :
    (p.parameters line params).Agrees ({ l with visible := params.reverse ++ l.visible } :: ls) := by
  induction params generalizing p l with
  | nil => exact h
  | cons name names ih => simpa [Pass.parameters] using ih (h.reveal name line)

/-- No fault means that no parameter repeats a name. -/
theorem Pass.Agrees.nodup_parameters {params : List Name} {p : Pass} {l : Layer} {ls : Layers}
    (h : p.Agrees (l :: ls)) {line : Nat} (hf : (p.parameters line params).faults.size = 0) :
    params.Nodup ∧ ∀ name ∈ params, name ∉ l.visible := by
  induction params generalizing p l with
  | nil => simp
  | cons name names ih =>
    have hle := Pass.le_faults_parameters names line ((p.declare name line).complete name)
    have hfirst : (p.declare name line).faults.size = 0 := by
      simp only [Pass.parameters, Pass.complete_faults] at hf hle
      omega
    have hname := h.not_visible hfirst l rfl
    obtain ⟨hn, hv⟩ := ih (h.reveal name line) hf
    refine ⟨List.nodup_cons.mpr ⟨fun hmem => hv name hmem List.mem_cons_self, hn⟩, ?_⟩
    intro m hm
    rcases List.mem_cons.mp hm with rfl | hm
    · exact hname
    · exact fun hmem => hv m hm (List.mem_cons_of_mem _ hmem)

theorem exists_afterAll (l : Layer) (ls : Layers) (ss : List Stmt) :
    ∃ l', Layers.afterAll (l :: ls) ss = l' :: ls ∧ l'.declared = l.declared := by
  induction ss generalizing l with
  | nil => exact ⟨l, rfl, rfl⟩
  | cons s ss ih =>
    unfold Layers.afterAll Layers.after
    split
    · exact ih _
    · exact ih _

theorem initializer_scopes (line : Nat) (name : Name) (e : Expr) (p : Pass) :
    (initializer line name e p).scopes = p.scopes := by
  rw [initializer, expr_scopes]
  split <;> rfl

theorem complete_scopes_congr {p q : Pass} (h : p.scopes = q.scopes) (name : Name) :
    (p.complete name).scopes = (q.complete name).scopes := by
  unfold Pass.complete Pass.mark
  rw [h]
  split <;> simp [h]

theorem Pass.Agrees.initializer {p : Pass} {ls : Layers} (h : p.Agrees ls) (line line' : Nat)
    (name : Name) (e : Expr) :
    ((Scoping.initializer line name e (p.declare name line')).complete name).Agrees
      (ls.reveal name) := by
  have := h.reveal name line'
  unfold Agrees at this ⊢
  rwa [complete_scopes_congr (initializer_scopes line name e _)]

/-- A function's parameters are all that its scope shows before its body. -/
theorem Pass.Agrees.enterFunction {p : Pass} {ls : Layers} (h : p.Agrees ls) (line : Nat)
    (params : List Name) (body : List Stmt) :
    (p.enterFunction.parameters line params).Agrees (.ofFunction params body :: ls) := by
  have ho : p.enterFunction.Agrees (⟨[], params ++ Stmt.declaredNames body⟩ :: ls) := h.opened _
  have hp := ho.parameters line params
  unfold Agrees at hp ⊢
  generalize (p.enterFunction.parameters line params).scopes = scopes at hp
  cases hp with
  | cons h hs => exact .cons (h.congr fun n => by simp [Layer.ofFunction]) hs

/-- What was declared inside a scope is gone after it. -/
theorem Pass.Agrees.closed_afterAll {p : Pass} {l : Layer} {ls : Layers} {ss : List Stmt}
    (h : p.Agrees (Layers.afterAll (l :: ls) ss)) : p.closed.Agrees ls := by
  obtain ⟨l', hl', -⟩ := exists_afterAll l ls ss
  have := h.closed
  rwa [hl'] at this

mutual

theorem stmt_agrees : (s : Stmt) → {p : Pass} → {ls : Layers} → s.Placed → p.Agrees ls →
    (stmt s p).Agrees (ls.after s)
  | .expression _ e, _, _, _, h | .print _ e, _, _, _, h => h.expr e
  | .var line name none, _, _, _, h => h.reveal name line
  | .var line name (some e), _, _, _, h => h.initializer line line name e
  | .block _ body, _, _, hpl, h =>
    Pass.Agrees.closed_afterAll (stmts_agrees body hpl (h.opened (Stmt.declaredNames body)))
  | .branch _ condition thenBranch none, p, ls, hpl, h => by
    have ht := stmt_agrees thenBranch hpl.2 (h.expr condition)
    rwa [Layers.after_of_declares?_eq_none ls hpl.1] at ht
  | .branch _ condition thenBranch (some elseBranch), p, ls, hpl, h => by
    have ht := stmt_agrees thenBranch hpl.1.2 (h.expr condition)
    rw [Layers.after_of_declares?_eq_none ls hpl.1.1] at ht
    have he := stmt_agrees elseBranch hpl.2.2 ht
    rwa [Layers.after_of_declares?_eq_none ls hpl.2.1] at he
  | .loop _ condition body, p, ls, hpl, h => by
    have hb := stmt_agrees body hpl.2 (h.expr condition)
    rwa [Layers.after_of_declares?_eq_none ls hpl.1] at hb
  | .function line name params body, _, _, hpl, h =>
    Pass.Agrees.closed_afterAll
      (stmts_agrees body hpl ((h.reveal name line).enterFunction line params body))
  | .result line none, p, ls, _, h => by
    rw [stmt]
    split <;> exact h
  | .result line (some e), p, ls, _, h => by
    rw [stmt]
    refine Pass.Agrees.expr ?_ e
    split <;> exact h

theorem stmts_agrees : (ss : List Stmt) → {p : Pass} → {ls : Layers} → Stmt.AllPlaced ss →
    p.Agrees ls → (stmts ss p).Agrees (ls.afterAll ss)
  | [], _, _, _, h => h
  | s :: ss, _, _, hpl, h => stmts_agrees ss hpl.2 (stmt_agrees s hpl.1 h)

end

def Declares (ls : Layers) (names : List Name) : Prop :=
  ∀ l ∈ ls.head?, ∀ n ∈ names, n ∈ l.declared

theorem Declares.after {ls : Layers} {names : List Name} (h : Declares ls names) (s : Stmt) :
    Declares (ls.after s) names := by
  intro l hl
  unfold Layers.after at hl
  split at hl
  · cases ls with
    | nil => cases hl
    | cons l' ls => cases hl; exact h l' rfl
  · exact h l hl

theorem declaredNames_cons (s : Stmt) (ss : List Stmt) :
    Stmt.declaredNames (s :: ss) = s.declares?.toList ++ Stmt.declaredNames ss := by
  unfold Stmt.declaredNames
  rw [List.filterMap_cons]
  split <;> simp_all

structure Pass.Ready (p : Pass) (ls : Layers) (names : List Name) (ids : List NodeId) : Prop where
  agrees : p.Agrees ls
  declares : Declares ls names
  nodup : ids.Nodup
  lacks : p.Lacks ids

theorem Pass.Agrees.admits {p : Pass} {ls : Layers} {name : Name} {line : Nat} (h : p.Agrees ls)
    (hd : Declares ls [name]) (hf : (p.declare name line).faults.size = 0) : ls.Admits name :=
  fun l hl => ⟨h.not_visible hf l hl, hd l hl name (List.mem_singleton_self name)⟩

theorem initializer_scoped {line : Nat} {name : Name} {e : Expr} {p : Pass} {ls : Layers}
    (hs : p.Sees ls) (hn : e.ids.Nodup) (hl : p.Lacks e.ids) :
    e.Scoped (Bound (initializer line name e p).distances) ls := by
  unfold initializer
  refine expr_scoped e ?_ hn ?_
  · split <;> exact hs
  · split <;> exact hl

mutual

theorem stmt_scoped : (s : Stmt) → (p : Pass) → (ls : Layers) → s.Placed →
    p.Ready ls s.declares?.toList s.ids → (stmt s p).faults.size = 0 →
    s.Scoped (Bound (stmt s p).distances) ls
  | .expression _ e, p, ls, _, hr, _ | .print _ e, p, ls, _, hr, _ =>
    expr_scoped e hr.agrees.sees hr.nodup hr.lacks
  | .var line name none, p, ls, _, hr, hf => by
    have hf : (p.declare name line).faults.size = 0 := by simpa [stmt] using hf
    exact ⟨hr.agrees.admits hr.declares hf, by simp⟩
  | .var line name (some e), p, ls, _, hr, hf => by
    have hle := le_faults_initializer line name e (p.declare name line)
    have hf : (p.declare name line).faults.size = 0 := by
      simp only [stmt, Pass.complete_faults] at hf; omega
    have hv := hr.agrees.not_visible hf
    have he : e.Scoped (Bound (initializer line name e (p.declare name line)).distances) ls :=
      initializer_scoped (hr.agrees.sees_declare hv line) hr.nodup fun id hi => by
        simpa using hr.lacks id hi
    refine ⟨hr.agrees.admits hr.declares hf, ?_⟩
    rintro _ ⟨⟩
    simpa [stmt] using he
  | .block _ body, p, ls, hpl, hr, hf =>
    stmts_scoped body p.opened (.ofBlock body :: ls) hpl
      ⟨hr.agrees.opened _, fun l hl n hn => by cases hl; exact hn, hr.nodup, hr.lacks⟩ hf
  | .branch _ condition thenBranch none, p, ls, hpl, hr, hf => by
    have hs := Pass.splits hr.nodup hr.lacks
    have ht := stmt_scoped thenBranch (expr condition p) ls hpl.2
      ⟨hr.agrees.expr condition, by simp [Declares, hpl.1], hs.nodup_second,
        hs.lacks_second _ (expr_distances condition p)⟩ hf
    refine ⟨?_, hpl.1, ht⟩
    exact (expr_scoped condition hr.agrees.sees hs.nodup_first hs.lacks_first).imp condition
      (bound_of_distances (fun id hi => stmt_distances thenBranch _ (hs.not_mem id hi)) ls)
  | .branch _ condition thenBranch (some elseBranch), p, ls, hpl, hr, hf => by
    have hs := Pass.splits hr.nodup hr.lacks
    have hs' := Pass.splits hs.nodup_first hs.lacks_first
    have hnot id hi := hs.not_mem id (List.mem_append_left thenBranch.ids hi)
    have hnot' id hi := hs.not_mem id (List.mem_append_right condition.ids hi)
    have hle := le_faults_stmt elseBranch (stmt thenBranch (expr condition p))
    have ht := stmt_scoped thenBranch (expr condition p) ls hpl.1.2
      ⟨hr.agrees.expr condition, by simp [Declares, hpl.1.1], hs'.nodup_second,
        hs'.lacks_second _ (expr_distances condition p)⟩ (by rw [stmt] at hf; omega)
    have ha := stmt_agrees thenBranch hpl.1.2 (hr.agrees.expr condition)
    rw [Layers.after_of_declares?_eq_none ls hpl.1.1] at ha
    have he := stmt_scoped elseBranch (stmt thenBranch (expr condition p)) ls hpl.2.2
      ⟨ha, by simp [Declares, hpl.2.1], hs.nodup_second, hs.lacks_second _ fun hi => by
        simp only [List.mem_append, not_or] at hi
        rw [stmt_distances thenBranch _ hi.2, expr_distances condition p hi.1]⟩ hf
    refine ⟨?_, ⟨hpl.1.1, ?_⟩, hpl.2.1, he⟩
    · refine (expr_scoped condition hr.agrees.sees hs'.nodup_first hs'.lacks_first).imp condition
        (bound_of_distances (fun id hi => ?_) ls)
      exact (stmt_distances elseBranch _ (hnot id hi)).trans
        (stmt_distances thenBranch _ (hs'.not_mem id hi))
    · exact ht.imp thenBranch fun ls =>
        bound_of_distances (fun id hi => stmt_distances elseBranch _ (hnot' id hi)) ls
  | .loop _ condition body, p, ls, hpl, hr, hf => by
    have hs := Pass.splits hr.nodup hr.lacks
    have hb := stmt_scoped body (expr condition p) ls hpl.2
      ⟨hr.agrees.expr condition, by simp [Declares, hpl.1], hs.nodup_second,
        hs.lacks_second _ (expr_distances condition p)⟩ hf
    refine ⟨?_, hpl.1, hb⟩
    exact (expr_scoped condition hr.agrees.sees hs.nodup_first hs.lacks_first).imp condition
      (bound_of_distances (fun id hi => stmt_distances body _ (hs.not_mem id hi)) ls)
  | .function line name params body, p, ls, hpl, hr, hf => by
    let entered := ((p.declare name line).complete name).enterFunction
    have hlb := le_faults_stmts body (entered.parameters line params)
    have hlp := Pass.le_faults_parameters params line entered
    have hf : (stmts body (entered.parameters line params)).faults.size = 0 := hf
    have he : entered.faults = (p.declare name line).faults := Pass.complete_faults _ name
    have hfd : (p.declare name line).faults.size = 0 := by rw [he] at hlp; omega
    have ha : entered.Agrees (⟨[], params ++ Stmt.declaredNames body⟩ :: ls.reveal name) :=
      (hr.agrees.reveal name line).opened _
    refine ⟨hr.agrees.admits hr.declares hfd, ?_, ?_⟩
    · exact (ha.nodup_parameters (show (entered.parameters line params).faults.size = 0 by omega)).1
    · refine stmts_scoped body (entered.parameters line params)
        (.ofFunction params body :: ls.reveal name) hpl
        ⟨(hr.agrees.reveal name line).enterFunction line params body, ?_, hr.nodup, fun id hi => by
          simpa [Pass.parameters_distances, entered, Pass.enterFunction, Pass.opened]
            using hr.lacks id hi⟩ hf
      intro l hl n hn
      cases hl
      exact List.mem_append_right _ hn
  | .result line none, p, ls, _, hr, _ => nofun
  | .result line (some e), p, ls, _, hr, _ => by
    have hp : ∀ q : Pass, q.scopes = p.scopes → q.distances = p.distances →
        e.Scoped (Bound (expr e q).distances) ls := by
      intro q hq hd
      have ha : q.Agrees ls := by unfold Pass.Agrees; rw [hq]; exact hr.agrees
      refine expr_scoped e ha.sees hr.nodup ?_
      intro id hi
      rw [hd]
      exact hr.lacks id hi
    rintro _ ⟨⟩
    exact hp (if p.functionDepth = 0 then p.fault line "return" .topLevelReturn else p)
      (by split <;> rfl) (by split <;> rfl)

theorem stmts_scoped : (ss : List Stmt) → (p : Pass) → (ls : Layers) → Stmt.AllPlaced ss →
    p.Ready ls (Stmt.declaredNames ss) (Stmt.allIds ss) → (stmts ss p).faults.size = 0 →
    Stmt.AllScoped (Bound (stmts ss p).distances) ls ss
  | [], _, _, _, _, _ => trivial
  | s :: ss, p, ls, hpl, hr, hf => by
    have hs := Pass.splits hr.nodup hr.lacks
    have hd := hr.declares
    rw [declaredNames_cons] at hd
    have hf' : (stmt s p).faults.size = 0 := by
      have := le_faults_stmts ss (stmt s p)
      rw [stmts] at hf
      omega
    have h := stmt_scoped s p ls hpl.1 ⟨hr.agrees,
      fun l hl n hn => hd l hl n (List.mem_append_left _ hn), hs.nodup_first, hs.lacks_first⟩ hf'
    have h' := stmts_scoped ss (stmt s p) (ls.after s) hpl.2 ⟨stmt_agrees s hpl.1 hr.agrees,
      Declares.after (fun l hl n hn => hd l hl n (List.mem_append_right _ hn)) s, hs.nodup_second,
      hs.lacks_second _ (stmt_distances s p)⟩ hf
    refine ⟨h.imp s fun ls => bound_of_distances (fun id hi => ?_) ls, h'⟩
    exact stmts_distances ss _ (hs.not_mem id hi)

end

end Statements

/-- The table of an accepted program is that of its layers. -/
theorem scoped_of_distances {program : List Stmt} {T : Distances} (hpl : Stmt.AllPlaced program)
    (hn : (Stmt.allIds program).Nodup) (h : distances program = .ok T) :
    Stmt.AllScoped (Bound T) [] program := by
  unfold distances at h
  dsimp only at h
  split at h
  · next hf =>
    cases h
    refine stmts_scoped program .start [] hpl ⟨.nil, nofun, hn, ?_⟩ ?_
    · intro id _
      simp [Pass.start]
    · simpa using hf
  · cases h

/-- All entries of the table belong to nodes of the program. -/
theorem mem_allIds_of_distances {program : List Stmt} {T : Distances}
    (h : distances program = .ok T) {id : NodeId} (hid : id ∉ Stmt.allIds program) :
    T[id]? = none := by
  unfold distances at h
  dsimp only at h
  split at h
  · cases h
    rw [stmts_distances program _ hid]
    simp [Pass.start]
  · cases h

end Scoping
end LoxLang
