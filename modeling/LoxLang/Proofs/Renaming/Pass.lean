import LoxLang.Proofs.Scoping.Table
import LoxLang.Proofs.Renaming.Alike

/-!
The scope pass goes through trees that are alike in the same way: whatever it finds in one, it finds at
the same distance in the other.
-/
namespace LoxLang
namespace Scoping

variable {T : Distances} {x y : Name} {marks : Marks}

def NamesAlike (x y : Name) (b : Bool) (names names' : Names) : Prop :=
  names.lookup y = none ∧ ∀ n, names'.lookup (exchange x y b n) = names.lookup n

def ScopesAlike (x y : Name) : Marks → List Names → List Names → Prop
  | _, [], [] => True
  | marks, names :: outer, names' :: outer' =>
    NamesAlike x y (marks 0) names names' ∧ ScopesAlike x y (fun d => marks (d + 1)) outer outer'
  | _, _, _ => False

structure Pass.Alike (x y : Name) (marks : Marks) (p p' : Pass) : Prop where
  scopes : ScopesAlike x y marks p.scopes p'.scopes
  functionDepth : p'.functionDepth = p.functionDepth
  distances : p'.distances = p.distances
  faults : p.faults.size = 0 → p'.faults.size = 0

/-- No name is captured: a scope that has it under its new name has it under the old one. -/
theorem NamesAlike.lookup_of_exchange {b c : Bool} {names names' : Names}
    (h : NamesAlike x y b names names') {name : Name} (hy : name ≠ y)
    (hl : names'.lookup (exchange x y c name) = some true) : names.lookup name = some true := by
  obtain ⟨hfresh, hlookup⟩ := h
  have hn : exchange x y c name = exchange x y b (exchange x y b (exchange x y c name)) :=
    (exchange_involutive x y b _).symm
  rw [hn, hlookup] at hl
  by_cases hbc : c = b
  · rwa [hbc, exchange_involutive x y b name] at hl
  · have hswap : exchange x y b (exchange x y c name) = exchange x y true name := by
      cases b <;> cases c <;> first | rfl | exact absurd rfl hbc
    rw [hswap, exchange_true hy] at hl
    split at hl
    · rw [hfresh] at hl
      cases hl
    · exact hl

theorem ScopesAlike.findIdx?_eq_some {scopes scopes' : List Names} {name : Name} {d : Nat}
    (h : ScopesAlike x y marks scopes scopes') (hy : name ≠ y)
    (hd : scopes.findIdx? (fun names => names.lookup name = some true) = some d) :
    scopes'.findIdx? (fun names => names.lookup (exchange x y (marks d) name) = some true) = some d := by
  induction scopes generalizing scopes' marks d with
  | nil => cases hd
  | cons names outer ih =>
    cases scopes' with
    | nil => cases h
    | cons names' outer' =>
      obtain ⟨hn, ho⟩ := h
      rw [List.findIdx?_cons] at hd ⊢
      split at hd
      · next hl =>
        cases hd
        rw [if_pos (by simpa [hn.2 name] using hl)]
      · next hl =>
        obtain ⟨d, hd', rfl⟩ := Option.map_eq_some_iff.mp hd
        rw [if_neg fun hl' => hl (by simpa using hn.lookup_of_exchange hy (by simpa using hl')),
          ih ho hd']
        rfl

theorem ScopesAlike.findIdx?_eq_none {scopes scopes' : List Names} {name : Name}
    (h : ScopesAlike x y marks scopes scopes') (hy : name ≠ y)
    (hd : scopes.findIdx? (fun names => names.lookup name = some true) = none) :
    scopes'.findIdx? (fun names => names.lookup name = some true) = none := by
  induction scopes generalizing scopes' marks with
  | nil =>
    cases scopes' with
    | nil => rfl
    | cons names' outer' => cases h
  | cons names outer ih =>
    cases scopes' with
    | nil => cases h
    | cons names' outer' =>
      obtain ⟨hn, ho⟩ := h
      rw [List.findIdx?_cons] at hd ⊢
      split at hd
      · cases hd
      · next hl =>
        have hl' : ¬ names'.lookup name = some true := fun hl' =>
          hl (by simpa using hn.lookup_of_exchange (c := false) hy hl')
        rw [if_neg (by simpa using hl'), ih ho (Option.map_eq_none_iff.mp hd)]
        rfl

namespace Pass.Alike

variable {p p' : Pass}

/-- A node is found at the same distance under its new name. -/
theorem distance? (h : p.Alike x y marks p') {name : Name} {id : NodeId} (hy : name ≠ y)
    (hT : T[id]? = p.distance? name) :
    p'.distance? (exchangeNode T x y marks name id) = p.distance? name := by
  cases hd : p.distance? name with
  | some d =>
    rw [exchangeNode_of_some (hT.trans hd)]
    exact h.scopes.findIdx?_eq_some hy hd
  | none =>
    rw [exchangeNode_of_none (hT.trans hd)]
    exact h.scopes.findIdx?_eq_none hy hd

theorem bind (h : p.Alike x y marks p') {name : Name} {id : NodeId} (hy : name ≠ y)
    (hT : T[id]? = p.distance? name) :
    (p.bind name id).Alike x y marks (p'.bind (exchangeNode T x y marks name id) id) := by
  unfold Pass.bind
  rw [h.distance? hy hT]
  split
  · exact ⟨h.scopes, h.functionDepth, by rw [h.distances], h.faults⟩
  · exact h

theorem fault (h : p.Alike x y marks p') (line : Nat) (lexeme : String) (cause : Cause) (q : Pass)
    (hq : q.scopes = p'.scopes ∧ q.functionDepth = p'.functionDepth ∧ q.distances = p'.distances) :
    (p.fault line lexeme cause).Alike x y marks q where
  scopes := by rw [hq.1]; exact h.scopes
  functionDepth := hq.2.1.trans h.functionDepth
  distances := hq.2.2.trans h.distances
  faults hf := by simp [Pass.fault] at hf

theorem opened (h : p.Alike x y marks p') (b : Bool) :
    p.opened.Alike x y (marks.push b) p'.opened :=
  ⟨⟨⟨rfl, fun _ => rfl⟩, h.scopes⟩, h.functionDepth, h.distances, h.faults⟩

theorem closed {b : Bool} (h : p.Alike x y (marks.push b) p') :
    p.closed.Alike x y marks p'.closed := by
  refine ⟨?_, h.functionDepth, h.distances, h.faults⟩
  have hs := h.scopes
  unfold Pass.closed
  dsimp only
  cases hp : p.scopes with
  | nil =>
    cases hp' : p'.scopes with
    | nil => trivial
    | cons names' outer' => rw [hp, hp'] at hs; cases hs
  | cons names outer =>
    cases hp' : p'.scopes with
    | nil => rw [hp, hp'] at hs; cases hs
    | cons names' outer' => rw [hp, hp'] at hs; exact hs.2

theorem isEmpty (h : p.Alike x y marks p') : p'.scopes.isEmpty = p.scopes.isEmpty := by
  have hs := h.scopes
  cases hp : p.scopes <;> cases hp' : p'.scopes <;> first | rfl | (rw [hp, hp'] at hs; cases hs)

theorem declares (h : p.Alike x y marks p') (name : Name) :
    p'.declares (exchange x y (marks 0) name) = p.declares name := by
  have hs := h.scopes
  unfold Pass.declares
  cases hp : p.scopes with
  | nil =>
    cases hp' : p'.scopes with
    | nil => rfl
    | cons names' outer' => rw [hp, hp'] at hs; cases hs
  | cons names outer =>
    cases hp' : p'.scopes with
    | nil => rw [hp, hp'] at hs; cases hs
    | cons names' outer' =>
      rw [hp, hp'] at hs
      exact congrArg Option.isSome (hs.1.2 name)

theorem mark (h : p.Alike x y marks p') {name : Name} (hy : name ≠ y) (complete : Bool) :
    (p.mark name complete).Alike x y marks (p'.mark (exchange x y (marks 0) name) complete) := by
  have hs := h.scopes
  unfold Pass.mark
  split
  · next hp =>
    rw [hp] at hs
    split
    · exact h
    · next hp' => rw [hp'] at hs; cases hs
  · next names outer hp =>
    rw [hp] at hs
    split
    · next hp' => rw [hp'] at hs; cases hs
    · next names' outer' hp' =>
      rw [hp'] at hs
      obtain ⟨⟨hfresh, hlookup⟩, ho⟩ := hs
      refine ⟨⟨⟨?_, fun n => ?_⟩, ho⟩, h.functionDepth, h.distances, h.faults⟩
      · have hne : (y == name) = false := by simpa using Ne.symm hy
        rw [List.lookup_cons, hne, hfresh]
      · have heq : (exchange x y (marks 0) n == exchange x y (marks 0) name) = (n == name) := by
          exact (exchange_injective x y (marks 0)).beq_eq
        rw [List.lookup_cons, List.lookup_cons, hlookup, heq]

theorem declare (h : p.Alike x y marks p') {name : Name} (hy : name ≠ y) (line : Nat) :
    (p.declare name line).Alike x y marks (p'.declare (exchange x y (marks 0) name) line) := by
  unfold Pass.declare
  rw [h.declares]
  refine mark ?_ hy false
  split
  · exact h.fault line name _ _ ⟨rfl, rfl, rfl⟩
  · exact h

theorem complete (h : p.Alike x y marks p') {name : Name} (hy : name ≠ y) :
    (p.complete name).Alike x y marks (p'.complete (exchange x y (marks 0) name)) :=
  h.mark hy true

theorem parameters {params : List Name} (h : p.Alike x y marks p') (hy : y ∉ params) (line : Nat) :
    (p.parameters line params).Alike x y marks
      (p'.parameters line (params.map (exchange x y (marks 0)))) := by
  induction params generalizing p p' with
  | nil => exact h
  | cons name names ih =>
    obtain ⟨hname, hnames⟩ := List.ne_and_not_mem_of_not_mem_cons hy
    exact ih ((h.declare (Ne.symm hname) line).complete (Ne.symm hname)) hnames

end Pass.Alike

mutual

theorem expr_alike : (e : Expr) → {p p' : Pass} → {ls : Layers} → p.Sees ls →
    e.Scoped (Bound T) ls → y ∉ e.names → p.Alike x y marks p' →
    (Scoping.expr e p).Alike x y marks (Scoping.expr (e.mapNames (exchangeNode T x y marks)) p')
  | .literal _ _, _, _, _, _, _, _, h => h
  | .grouping _ inner, _, _, _, hp, he, hy, h => expr_alike inner hp he hy h
  | .unary _ _ operand, _, _, _, hp, he, hy, h => expr_alike operand hp he hy h
  | .binary _ _ left right, _, _, _, hp, he, hy, h
  | .logical _ _ left right, _, _, _, hp, he, hy, h => by
    obtain ⟨hl, hr⟩ := not_mem_map_append.mp hy
    exact expr_alike right (hp.expr left) he.2 hr (expr_alike left hp he.1 hl h)
  | .reference _ name id, _, _, _, hp, he, hy, h =>
    h.bind (fun hn => hy (hn ▸ List.mem_singleton_self _)) (he.trans (hp name).symm)
  | .assign _ name id value, p, _, _, hp, he, hy, h => by
    obtain ⟨hname, hv⟩ := List.ne_and_not_mem_of_not_mem_cons hy
    exact (expr_alike value hp he.1 hv h).bind (Ne.symm hname)
      (he.2.trans (hp.expr value name).symm)
  | .call _ callee arguments, _, _, _, hp, he, hy, h => by
    obtain ⟨hc, ha⟩ := not_mem_map_append.mp hy
    exact exprs_alike arguments (hp.expr callee) he.2 ha (expr_alike callee hp he.1 hc h)

theorem exprs_alike : (es : List Expr) → {p p' : Pass} → {ls : Layers} → p.Sees ls →
    Expr.AllScoped (Bound T) ls es → y ∉ (Expr.allNodes es).map Prod.fst → p.Alike x y marks p' →
    (Scoping.exprs es p).Alike x y marks
      (Scoping.exprs (Expr.mapAllNames (exchangeNode T x y marks) es) p')
  | [], _, _, _, _, _, _, h => h
  | e :: es, _, _, _, hp, he, hy, h => by
    obtain ⟨hfirst, hrest⟩ := not_mem_map_append.mp hy
    exact exprs_alike es (hp.expr e) he.2 hrest (expr_alike e hp he.1 hfirst h)

end

/-- A declaration that refers only to itself under its new name does so under the old one. -/
theorem refersOnlyTo_of_exchange {b : Bool} {name : Name} (hname : name ≠ y) : {e : Expr} →
    y ∉ e.names → refersOnlyTo (exchange x y b name) (e.mapNames (exchangeNode T x y marks)) →
      refersOnlyTo name e
  | .grouping _ inner, hy, h => refersOnlyTo_of_exchange (e := inner) hname hy h
  | .reference _ n id, hy, h => by
    have hn : n ≠ y := fun hn => hy (hn ▸ List.mem_singleton_self _)
    obtain ⟨c, hc⟩ := exists_exchangeNode T x y marks n id
    have hread : exchangeNode T x y marks n id = exchange x y b name := of_decide_eq_true h
    exact decide_eq_true (exchange_inj hn hname (hc.symm.trans hread))
  | .literal _ _, _, h | .unary _ _ _, _, h | .binary _ _ _ _, _, h | .logical _ _ _ _, _, h
  | .assign _ _ _ _, _, h | .call _ _ _, _, h => nomatch h

section Statements
variable {p p' : Pass} {ls : Layers}

theorem Pass.Alike.initializer {name : Name} {e : Expr} (h : p.Alike x y marks p') (hp : p.Sees ls)
    (he : e.Scoped (Bound T) ls) (hname : name ≠ y) (hy : y ∉ e.names) (line : Nat) :
    (Scoping.initializer line name e p).Alike x y marks (Scoping.initializer line
      (exchange x y (marks 0) name) (e.mapNames (exchangeNode T x y marks)) p') := by
  unfold Scoping.initializer
  rw [h.isEmpty]
  refine expr_alike e ?_ he hy ?_
  · split <;> exact hp
  · split
    · refine h.fault line name _ _ ?_
      split <;> exact ⟨rfl, rfl, rfl⟩
    · next hown =>
      rw [if_neg]
      · exact h
      · rw [Bool.and_eq_true] at hown ⊢
        exact fun hown' => hown ⟨hown'.1, refersOnlyTo_of_exchange hname hy hown'.2⟩

mutual

/-- The pass over one statement and over one like it. -/
theorem stmt_alike {s s' : Stmt} {marks : Marks} (hs : Stmt.Alike T x y marks s s') {p p' : Pass}
    {ls : Layers} (hpl : s.Placed) (hsc : s.Scoped (Bound T) ls) (ha : p.Agrees ls)
    (hy : y ∉ s.names) (h : p.Alike x y marks p') : (stmt s p).Alike x y marks (stmt s' p') := by
  cases hs with
  | expression _ _ e | print _ _ e => exact expr_alike e ha.sees hsc hy h
  | var _ line name initializer =>
    obtain ⟨hname, he⟩ := List.ne_and_not_mem_of_not_mem_cons hy
    have hd := h.declare (Ne.symm hname) line
    cases initializer with
    | none => exact hd.complete (Ne.symm hname)
    | some e =>
      have hsees := ha.sees_declare (fun l hl => (hsc.1 l hl).1) line
      exact (hd.initializer hsees (hsc.2 e rfl) (Ne.symm hname) he line).complete (Ne.symm hname)
  | @block _ line b body body' hbody =>
    exact (stmts_alike hbody hpl hsc (ha.opened (Stmt.declaredNames body)) hy (h.opened b)).closed
  | ifThen line condition ht =>
    obtain ⟨hc, hyt⟩ := not_mem_append_iff.mp hy
    exact stmt_alike ht hpl.2 hsc.2.2 (ha.expr condition) hyt (expr_alike condition ha.sees hsc.1 hc h)
  | @ifElse _ line condition t t' e e' ht he =>
    obtain ⟨hct, hye⟩ := not_mem_append_iff.mp hy
    obtain ⟨hc, hyt⟩ := not_mem_append_iff.mp hct
    have hthen := stmt_alike ht hpl.1.2 hsc.2.1.2 (ha.expr condition) hyt
      (expr_alike condition ha.sees hsc.1 hc h)
    have hagrees := stmt_agrees t hpl.1.2 (ha.expr condition)
    rw [Layers.after_of_declares?_eq_none ls hpl.1.1] at hagrees
    exact stmt_alike he hpl.2.2 hsc.2.2.2 hagrees hye hthen
  | loop line condition hbody =>
    obtain ⟨hc, hyb⟩ := not_mem_append_iff.mp hy
    exact stmt_alike hbody hpl.2 hsc.2.2 (ha.expr condition) hyb
      (expr_alike condition ha.sees hsc.1 hc h)
  | @function _ line b name params body body' hkept hbody =>
    obtain ⟨hnp, hyb⟩ := not_mem_append_iff.mp hy
    obtain ⟨hname, hparams⟩ := List.ne_and_not_mem_of_not_mem_cons hnp
    have hd := (h.declare (Ne.symm hname) line).complete (Ne.symm hname)
    rw [hkept] at hd
    have ho := hd.opened b
    have he : ((p.declare name line).complete name).enterFunction.Alike x y (marks.push b)
        ((p'.declare name line).complete name).enterFunction :=
      ⟨ho.scopes, congrArg (· + 1) ho.functionDepth, ho.distances, ho.faults⟩
    have hb := stmts_alike hbody hpl hsc.2.2 ((ha.reveal name line).enterFunction line params body) hyb
      (he.parameters hparams line)
    exact ⟨hb.closed.scopes, congrArg (· - 1) hb.functionDepth, hb.distances, hb.faults⟩
  | result _ line value =>
    have hr : (if p.functionDepth = 0 then p.fault line "return" .topLevelReturn else p).Alike x y marks
        (if p'.functionDepth = 0 then p'.fault line "return" .topLevelReturn else p') := by
      rw [h.functionDepth]
      split
      · exact h.fault line _ _ _ ⟨rfl, rfl, rfl⟩
      · exact h
    cases value with
    | none => exact hr
    | some e =>
      refine expr_alike e ?_ (hsc e rfl) hy hr
      split <;> exact ha.sees

theorem stmts_alike {ss ss' : List Stmt} {marks : Marks} (hs : Stmt.AllAlike T x y marks ss ss')
    {p p' : Pass} {ls : Layers} (hpl : Stmt.AllPlaced ss) (hsc : Stmt.AllScoped (Bound T) ls ss)
    (ha : p.Agrees ls) (hy : y ∉ Stmt.allNames ss) (h : p.Alike x y marks p') :
    (stmts ss p).Alike x y marks (stmts ss' p') := by
  cases hs with
  | nil => exact h
  | @cons _ s s' ss ss' hfirst hrest =>
    obtain ⟨hys, hyss⟩ := not_mem_append_iff.mp hy
    exact stmts_alike hrest hpl.2 hsc.2 (stmt_agrees s hpl.1 ha) hyss
      (stmt_alike hfirst hpl.1 hsc.1 ha hys h)

end

end Statements

/-- Renaming one local variable to a name that occurs nowhere keeps a program accepted, with the same
table. -/
theorem distances_of_renamed {program program' : List Stmt} (hpl : Stmt.AllPlaced program)
    (hn : (Stmt.allIds program).Nodup) (hT : distances program = .ok T)
    (hr : Stmt.AllRenamed T x y program program') (hy : y ∉ Stmt.allNames program) :
    distances program' = .ok T := by
  have hsc := scoped_of_distances hpl hn hT
  have hstart : Pass.start.Alike x y .none Pass.start := ⟨trivial, rfl, rfl, id⟩
  have hagrees : Pass.start.Agrees [] := .nil
  have h := stmts_alike (hr.alike hy hpl hsc) hpl hsc hagrees hy hstart
  unfold distances at hT ⊢
  dsimp only at hT ⊢
  split at hT
  · next hf =>
    cases hT
    have hf' : (stmts program' .start).faults.isEmpty := by
      simpa using h.faults (by simpa using hf)
    rw [if_pos hf', h.distances]
  · cases hT

end Scoping
end LoxLang
