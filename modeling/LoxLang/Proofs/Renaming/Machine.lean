import LoxLang.Proofs.Machine.Lookup
import LoxLang.Proofs.Renaming.Store

/-!
Configurations that are alike but for two names that are exchanged in some scopes: the same frames wait
for parts of a program that are alike, and the machines differ only in their stores.
-/
namespace LoxLang

section Definitions
variable (T : Distances) (x y : Name)

section
variable (st : Store) (M : Exchanging)

inductive Signal.Alike : Signal → Signal → Prop where
  | value {v v' : Value} : Value.Alike T x y st M v v' → Signal.Alike (.value v) (.value v')
  | normal : Signal.Alike .normal .normal
  | returned {v v' : Value} : Value.Alike T x y st M v v' → Signal.Alike (.returned v) (.returned v')
  | failed (e : RuntimeError) : Signal.Alike (.failed e) (.failed e)

inductive Frame.Alike (marks : Marks) : Frame → Frame → Prop where
  | unary (line : Nat) (op : UnaryOp) : Frame.Alike marks (.unary line op) (.unary line op)
  | left (line : Nat) (op : BinaryOp) (e : Expr) :
    Frame.Alike marks (.left line op e) (.left line op (e.mapNames (exchangeNode T x y marks)))
  | right (line : Nat) (op : BinaryOp) {v v' : Value} :
    Value.Alike T x y st M v v' → Frame.Alike marks (.right line op v) (.right line op v')
  | logical (op : LogicalOp) (e : Expr) :
    Frame.Alike marks (.logical op e) (.logical op (e.mapNames (exchangeNode T x y marks)))
  | assign (line : Nat) (name : Name) (id : NodeId) :
    Frame.Alike marks (.assign line name id) (.assign line (exchangeNode T x y marks name id) id)
  | callee (line : Nat) (args : List Expr) :
    Frame.Alike marks (.callee line args)
      (.callee line (Expr.mapAllNames (exchangeNode T x y marks) args))
  | argument (line : Nat) {v v' : Value} {vs vs' : List Value} (rest : List Expr) :
    Value.Alike T x y st M v v' → List.Forall₂ (Value.Alike T x y st M) vs vs' →
      Frame.Alike marks (.argument line v vs rest)
        (.argument line v' vs' (Expr.mapAllNames (exchangeNode T x y marks) rest))
  | discard : Frame.Alike marks .discard .discard
  | print (line : Nat) : Frame.Alike marks (.print line) (.print line)
  | var (name : Name) : Frame.Alike marks (.var name) (.var (exchange x y (marks 0) name))
  | result : Frame.Alike marks .result .result
  | branch {s s' : Stmt} {e? e?' : Option Stmt} :
    Stmt.Alike T x y marks s s' → Option.Rel (Stmt.Alike T x y marks) e? e?' →
      Frame.Alike marks (.branch s e?) (.branch s' e?')
  | test (condition : Expr) {body body' : Stmt} :
    Stmt.Alike T x y marks body body' → Frame.Alike marks (.test condition body)
      (.test (condition.mapNames (exchangeNode T x y marks)) body')
  | again (condition : Expr) {body body' : Stmt} :
    Stmt.Alike T x y marks body body' → Frame.Alike marks (.again condition body)
      (.again (condition.mapNames (exchangeNode T x y marks)) body')
  | sequence {ss ss' : List Stmt} :
    Stmt.AllAlike T x y marks ss ss' → Frame.Alike marks (.sequence ss) (.sequence ss')
  | program {ss ss' : List Stmt} :
    Stmt.AllAlike T x y marks ss ss' → Frame.Alike marks (.program ss) (.program ss')

inductive Frame.AllAlike : Marks → List Frame → List Frame → Prop where
  | nil (marks : Marks) : Frame.AllAlike marks [] []
  | cons {marks : Marks} {f f' : Frame} {fs fs' : List Frame} :
    Frame.Alike T x y st M marks f f' → Frame.AllAlike marks fs fs' →
      Frame.AllAlike marks (f :: fs) (f' :: fs')
  | block (marks : Marks) {outer : ScopeId} {marks' : Marks} {fs fs' : List Frame} :
    st.Marked M outer marks' → Frame.AllAlike marks' fs fs' →
      Frame.AllAlike marks (.block outer :: fs) (.block outer :: fs')
  | call (marks : Marks) {caller : ScopeId} {marks' : Marks} {fs fs' : List Frame} :
    st.Marked M caller marks' → Frame.AllAlike marks' fs fs' →
      Frame.AllAlike marks (.call caller :: fs) (.call caller :: fs')

inductive Control.Alike (marks : Marks) : Control → Control → Prop where
  | eval (e : Expr) :
    Control.Alike marks (.eval e) (.eval (e.mapNames (exchangeNode T x y marks)))
  | exec {s s' : Stmt} : Stmt.Alike T x y marks s s' → Control.Alike marks (.exec s) (.exec s')
  | execAll {ss ss' : List Stmt} :
    Stmt.AllAlike T x y marks ss ss' → Control.Alike marks (.execAll ss) (.execAll ss')
  | program {ss ss' : List Stmt} :
    Stmt.AllAlike T x y marks ss ss' → Control.Alike marks (.program ss) (.program ss')
  | call {f f' : Function} {args args' : List Value} (line : Nat) :
    Value.Alike T x y st M (.function f) (.function f') →
      List.Forall₂ (Value.Alike T x y st M) args args' →
      Control.Alike marks (.call f args line) (.call f' args' line)
  | done {s s' : Signal} : Signal.Alike T x y st M s s' → Control.Alike marks (.done s) (.done s')

end

structure Machine.Alike (M : Exchanging) (marks : Marks) (m : Machine) (st' : Store)
    (frames frames' : List Frame) : Prop where
  table : m.distances = T
  store : Store.Alike T x y M m.store st'
  marked : m.store.Marked M m.current marks
  frames : Frame.AllAlike T x y m.store M marks frames frames'

def Machine.withStore (m : Machine) (st : Store) : Machine := { m with store := st }

inductive Config.Alike : Config → Config → Prop where
  | intro {M : Exchanging} {marks : Marks} {control control' : Control} {frames frames' : List Frame}
      {m : Machine} {st' : Store} :
    m.Alike T x y M marks st' frames frames' →
      Control.Alike T x y m.store M marks control control' →
      Config.Alike ⟨control, frames, m⟩ ⟨control', frames', m.withStore st'⟩

end Definitions

section Keep
variable {T : Distances} {x y : Name} {st st₂ : Store} {M M₂ : Exchanging} {marks : Marks}

theorem forall₂_keep {vs vs' : List Value} (h : List.Forall₂ (Value.Alike T x y st M) vs vs')
    (hk : st.Keeps M st₂ M₂) : List.Forall₂ (Value.Alike T x y st₂ M₂) vs vs' :=
  h.imp fun _ _ hv => hv.keep hk

theorem Frame.Alike.keep {f f' : Frame} (h : Frame.Alike T x y st M marks f f')
    (hk : st.Keeps M st₂ M₂) : Frame.Alike T x y st₂ M₂ marks f f' := by
  cases h with
  | right line op hv => exact .right line op (hv.keep hk)
  | argument line rest hv hvs => exact .argument line rest (hv.keep hk) (forall₂_keep hvs hk)
  | branch hs he => exact .branch hs he
  | test condition hb => exact .test condition hb
  | again condition hb => exact .again condition hb
  | sequence hs => exact .sequence hs
  | program hs => exact .program hs
  | _ => constructor

theorem Frame.AllAlike.keep {fs fs' : List Frame} (h : Frame.AllAlike T x y st M marks fs fs')
    (hk : st.Keeps M st₂ M₂) : Frame.AllAlike T x y st₂ M₂ marks fs fs' := by
  induction h with
  | nil marks => exact .nil marks
  | cons hf _ ih => exact .cons (hf.keep hk) ih
  | block marks hm _ ih => exact .block marks (hk _ _ hm) ih
  | call marks hm _ ih => exact .call marks (hk _ _ hm) ih

end Keep

namespace Machine.Alike

variable {T : Distances} {x y : Name} {M : Exchanging} {marks : Marks} {m : Machine} {st' : Store}
  {frames frames' : List Frame}

theorem nonempty (h : m.Alike T x y M marks st' frames frames') : 0 < m.store.next :=
  Nat.zero_lt_of_lt (h.marked 0 m.current rfl).1

theorem push {f f' : Frame} (h : m.Alike T x y M marks st' frames frames')
    (hf : Frame.Alike T x y m.store M marks f f') :
    m.Alike T x y M marks st' (f :: frames) (f' :: frames') :=
  ⟨h.table, h.store, h.marked, .cons hf h.frames⟩

/-- A declaration binds its name as the current scope knows it. -/
theorem define {v v' : Value} (h : m.Alike T x y M marks st' frames frames') (name : Name)
    (hv : Value.Alike T x y m.store M v v') :
    (m.define name v).Alike T x y M marks (st'.define m.current (exchange x y (marks 0) name) v')
      frames frames' := by
  have hk := m.store.keeps_define M m.current name v
  have hm : M m.current = marks 0 := (h.marked 0 m.current rfl).2
  refine ⟨h.table, ?_, hk _ _ h.marked, h.frames.keep hk⟩
  rw [← hm]
  exact h.store.define m.current name hv

theorem openScope_withStore (h : m.Alike T x y M marks st' frames frames') (outer : ScopeId) :
    (m.withStore st').openScope outer = (m.openScope outer).withStore (st'.alloc (some outer)) := by
  have hnext : st'.next = m.store.next := h.store.next
  unfold Machine.openScope withStore
  dsimp only
  rw [hnext]

theorem openScope {outer : ScopeId} {marks' : Marks} (h : m.Alike T x y M marks st' frames frames')
    (b : Bool) (ho : m.store.Marked M outer marks') {fs fs' : List Frame}
    (hf : Frame.AllAlike T x y m.store M (marks'.push b) fs fs') :
    (m.openScope outer).Alike T x y (Function.update M m.store.next b) (marks'.push b)
      (st'.alloc (some outer)) fs fs' where
  table := h.table
  store := h.store.alloc h.nonempty (some outer) b
  marked := ho.alloc b
  frames := hf.keep (m.store.keeps_alloc M (some outer) b)

theorem bindParams {args args' : List Value} (h : m.Alike T x y M marks st' frames frames')
    (params : List Name)
    (hargs : List.Forall₂ (Value.Alike T x y m.store M) args args') :
    ∃ st₂, Machine.bindParams (params.map (exchange x y (marks 0))) args' (m.withStore st') =
        (Machine.bindParams params args m).withStore st₂ ∧
      (Machine.bindParams params args m).Alike T x y M marks st₂ frames frames' := by
  induction params generalizing m st' args args' with
  | nil => exact ⟨st', rfl, h⟩
  | cons name names ih =>
    cases hargs with
    | nil => exact ⟨st', rfl, h⟩
    | cons hv hvs =>
      exact ih (h.define name hv) (forall₂_keep hvs (m.store.keeps_define M m.current name _))

end Machine.Alike
end LoxLang
