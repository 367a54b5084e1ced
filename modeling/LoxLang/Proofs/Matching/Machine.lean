import Mathlib.Data.List.Forall2
import LoxLang.Machine.Run
import LoxLang.Proofs.Machine.Outline
import LoxLang.Proofs.Machine.Stands
import LoxLang.Proofs.Matching.Tree

/-!
Configurations that match: the same frames wait for trees that match, and the stores are the same but for
the bodies of functions. The second configuration may have more statements to run after its program.
-/
namespace LoxLang

section Definitions
variable (L : Nat → Nat → Prop) (N : NodeId → NodeId → Prop)

inductive Value.Matches : Value → Value → Prop where
  | same (v : Value) : (∀ f, v ≠ .function f) → Value.Matches v v
  | function (identity : Nat) (name : Name) (params : List Name) {body body' : List Stmt}
      (closure : ScopeId) :
    Stmt.AllMatch L N body body' →
      Value.Matches (.function ⟨identity, name, params, body, closure⟩)
        (.function ⟨identity, name, params, body', closure⟩)

structure Store.Matches (st st' : Store) : Prop where
  next : st'.next = st.next
  enclosing : ∀ id, st'.enclosing? id = st.enclosing? id
  read : ∀ id n, Option.Rel (Value.Matches L N) (st.read? id n) (st'.read? id n)

inductive Signal.Matches : Signal → Signal → Prop where
  | value {v v' : Value} : v.Matches L N v' → Signal.Matches (.value v) (.value v')
  | normal : Signal.Matches .normal .normal
  | returned {v v' : Value} : v.Matches L N v' → Signal.Matches (.returned v) (.returned v')
  | failed (cause : Mishap) {l l' : Nat} :
    L l l' → Signal.Matches (.failed ⟨cause, l⟩) (.failed ⟨cause, l'⟩)

section
variable (rest : List Stmt)

inductive Frame.Matches : Frame → Frame → Prop where
  | unary {l l' : Nat} (op : UnaryOp) : L l l' → Frame.Matches (.unary l op) (.unary l' op)
  | left {l l' : Nat} (op : BinaryOp) {e e' : Expr} :
    L l l' → e.Matches L N e' → Frame.Matches (.left l op e) (.left l' op e')
  | right {l l' : Nat} (op : BinaryOp) {v v' : Value} :
    L l l' → v.Matches L N v' → Frame.Matches (.right l op v) (.right l' op v')
  | logical (op : LogicalOp) {e e' : Expr} :
    e.Matches L N e' → Frame.Matches (.logical op e) (.logical op e')
  | assign {l l' : Nat} (name : Name) {id id' : NodeId} :
    L l l' → N id id' → Frame.Matches (.assign l name id) (.assign l' name id')
  | callee {l l' : Nat} {args args' : List Expr} :
    L l l' → Expr.AllMatch L N args args' → Frame.Matches (.callee l args) (.callee l' args')
  | argument {l l' : Nat} {v v' : Value} {vs vs' : List Value} {es es' : List Expr} :
    L l l' → v.Matches L N v' → List.Forall₂ (Value.Matches L N) vs vs' →
      Expr.AllMatch L N es es' → Frame.Matches (.argument l v vs es) (.argument l' v' vs' es')
  | discard : Frame.Matches .discard .discard
  | print {l l' : Nat} : L l l' → Frame.Matches (.print l) (.print l')
  | var (name : Name) : Frame.Matches (.var name) (.var name)
  | result : Frame.Matches .result .result
  | branch {s s' : Stmt} {t? t?' : Option Stmt} :
    s.Matches L N s' → Option.Rel (Stmt.Matches L N) t? t?' →
      Frame.Matches (.branch s t?) (.branch s' t?')
  | test {condition condition' : Expr} {body body' : Stmt} :
    condition.Matches L N condition' → body.Matches L N body' →
      Frame.Matches (.test condition body) (.test condition' body')
  | again {condition condition' : Expr} {body body' : Stmt} :
    condition.Matches L N condition' → body.Matches L N body' →
      Frame.Matches (.again condition body) (.again condition' body')
  | sequence {ss ss' : List Stmt} :
    Stmt.AllMatch L N ss ss' → Frame.Matches (.sequence ss) (.sequence ss')
  | program {ss ss' : List Stmt} :
    Stmt.AllMatch L N ss ss' → Frame.Matches (.program ss) (.program (ss' ++ rest))
  | block (outer : ScopeId) : Frame.Matches (.block outer) (.block outer)
  | call (caller : ScopeId) : Frame.Matches (.call caller) (.call caller)

inductive Control.Matches : Control → Control → Prop where
  | eval {e e' : Expr} : e.Matches L N e' → Control.Matches (.eval e) (.eval e')
  | exec {s s' : Stmt} : s.Matches L N s' → Control.Matches (.exec s) (.exec s')
  | execAll {ss ss' : List Stmt} :
    Stmt.AllMatch L N ss ss' → Control.Matches (.execAll ss) (.execAll ss')
  | program {ss ss' : List Stmt} :
    Stmt.AllMatch L N ss ss' → Control.Matches (.program ss) (.program (ss' ++ rest))
  | call {l l' : Nat} {f f' : Function} {args args' : List Value} :
    L l l' → Value.Matches L N (.function f) (.function f') →
      List.Forall₂ (Value.Matches L N) args args' →
        Control.Matches (.call f args l) (.call f' args' l')
  | done {s s' : Signal} : s.Matches L N s' → Control.Matches (.done s) (.done s')

end

structure Machine.Matches (m : Machine) (st' : Store) (T' : Distances) : Prop where
  store : m.store.Matches L N st'
  table : ∀ id id', N id id' → T'[id']? = m.distances[id]?

def Machine.beside (m : Machine) (st' : Store) (T' : Distances) : Machine :=
  { m with store := st', distances := T' }

@[simp] theorem Machine.beside_store (m : Machine) (st' : Store) (T' : Distances) :
    (m.beside st' T').store = st' := rfl

inductive Config.Matches (rest : List Stmt) : Config → Config → Prop where
  | intro {control control' : Control} {frames frames' : List Frame} {m : Machine} {st' : Store}
      {T' : Distances} :
    m.Matches L N st' T' → List.Forall₂ (Frame.Matches L N rest) frames frames' →
      Control.Matches L N rest control control' →
        Config.Matches rest ⟨control, frames, m⟩ ⟨control', frames', m.beside st' T'⟩

end Definitions

section
variable {L : Nat → Nat → Prop} {N N' : NodeId → NodeId → Prop}

theorem Value.Matches.imp {v v' : Value} (hN : ∀ id id', N id id' → N' id id')
    (h : v.Matches L N v') : v.Matches L N' v' := by
  cases h with
  | same v hv => exact .same v hv
  | function identity name params closure hb => exact .function identity name params closure (hb.imp hN)

theorem Value.matches_ofLiteral (l : Literal) : (Value.ofLiteral l).Matches L N (.ofLiteral l) :=
  .same _ (Value.ofLiteral_ne_function l)

theorem Value.matches_nil : Value.nil.Matches L N .nil := Value.matches_ofLiteral .nil

theorem Value.Matches.outline {v v' : Value} (h : v.Matches L N v') : v'.outline = v.outline := by
  cases h <;> rfl

namespace Store.Matches

variable {st st' : Store}

theorem imp (hN : ∀ id id', N id id' → N' id id') (h : st.Matches L N st') : st.Matches L N' st' where
  next := h.next
  enclosing := h.enclosing
  read id n := rel_imp (h.read id n) fun _ _ hv => hv.imp hN

theorem define {v v' : Value} (h : st.Matches L N st') (id : ScopeId) (name : Name)
    (hv : v.Matches L N v') : (st.define id name v).Matches L N (st'.define id name v') where
  next := by simpa using h.next
  enclosing i := by simpa using h.enclosing i
  read i n := by
    rw [read?_define, read?_define, h.next]
    split
    · exact .some hv
    · exact h.read i n

theorem alloc (h : st.Matches L N st') (e : Option ScopeId) :
    (st.alloc e).Matches L N (st'.alloc e) where
  next := by simpa using h.next
  enclosing i := by rw [enclosing?_alloc, enclosing?_alloc, h.next, h.enclosing i]
  read i n := by
    rw [read?_alloc, read?_alloc]
    exact h.read i n

theorem read?_isSome (h : st.Matches L N st') (id : ScopeId) (n : Name) :
    (st'.read? id n).isSome = (st.read? id n).isSome :=
  isSome_eq_of_rel (h.read id n)

theorem ancestor? (h : st.Matches L N st') (id : ScopeId) (d : Nat) :
    st'.ancestor? id d = st.ancestor? id d := by
  induction d generalizing id with
  | zero => rfl
  | succ d ih =>
    rw [Store.ancestor?, Store.ancestor?, h.enclosing id]
    cases st.enclosing? id with
    | none => rfl
    | some outer => exact ih outer

theorem holderAt? (h : st.Matches L N st') (id : ScopeId) (d : Nat) (name : Name) :
    st'.holderAt? id d name = st.holderAt? id d name := by
  simp only [Store.holderAt?, h.ancestor?, h.read?_isSome]

theorem holderWithin? (h : st.Matches L N st') (name : Name) (n : Nat) (id : ScopeId) :
    st'.holderWithin? name n id = st.holderWithin? name n id := by
  induction n generalizing id with
  | zero => rfl
  | succ n ih =>
    rw [Store.holderWithin?, Store.holderWithin?, h.read?_isSome, h.enclosing]
    cases st.enclosing? id with
    | none => rfl
    | some outer => rw [Option.bind_some, Option.bind_some, ih outer]

theorem holder? (h : st.Matches L N st') (id : ScopeId) (name : Name) :
    st'.holder? id name = st.holder? id name := by
  have hsize : st'.scopes.size = st.scopes.size := h.next
  rw [Store.holder?, Store.holder?, hsize, h.holderWithin?]

end Store.Matches

namespace Machine.Matches

variable {m : Machine} {st' : Store} {T' : Distances}

/-- Nodes that correspond find the same scope. -/
theorem byDistance (h : m.Matches L N st' T') {name : Name} {id id' : NodeId} (hid : N id id') :
    Locator.byDistance (m.beside st' T') name id' = Locator.byDistance m name id := by
  have htable : (m.beside st' T').distances[id']? = m.distances[id]? := h.table id id' hid
  unfold Locator.byDistance
  rw [htable]
  cases m.distances[id]? with
  | some d => exact h.store.holderAt? m.current d name
  | none => exact h.store.holder? globals name

theorem define {v v' : Value} (h : m.Matches L N st' T') (id : ScopeId) (name : Name)
    (hv : v.Matches L N v') :
    Machine.Matches L N { m with store := m.store.define id name v } (st'.define id name v') T' :=
  ⟨h.store.define id name hv, h.table⟩

theorem openScope_beside (h : m.Matches L N st' T') (outer : ScopeId) :
    (m.beside st' T').openScope outer = (m.openScope outer).beside (st'.alloc (some outer)) T' := by
  have hnext : st'.next = m.store.next := h.store.next
  unfold Machine.openScope beside
  dsimp only
  rw [hnext]

theorem openScope (h : m.Matches L N st' T') (outer : ScopeId) :
    (m.openScope outer).Matches L N (st'.alloc (some outer)) T' :=
  ⟨h.store.alloc (some outer), h.table⟩

theorem bindParams {args args' : List Value} (h : m.Matches L N st' T') (params : List Name)
    (hargs : List.Forall₂ (Value.Matches L N) args args') :
    ∃ st₂, Machine.bindParams params args' (m.beside st' T') =
        (Machine.bindParams params args m).beside st₂ T' ∧
      (Machine.bindParams params args m).Matches L N st₂ T' := by
  induction params generalizing m st' args args' with
  | nil => exact ⟨st', rfl, h⟩
  | cons name names ih =>
    cases hargs with
    | nil => exact ⟨st', rfl, h⟩
    | cons hv hvs => exact ih (h.define m.current name hv) hvs

/-- A call of functions that match opens scopes that match. -/
theorem enterCall {args args' : List Value} (h : m.Matches L N st' T') (f f' : Function)
    (hparams : f'.params = f.params) (hclosure : f'.closure = f.closure)
    (hargs : List.Forall₂ (Value.Matches L N) args args') :
    ∃ st₂, (m.beside st' T').enterCall f' args' = (m.enterCall f args).beside st₂ T' ∧
      (m.enterCall f args).Matches L N st₂ T' := by
  let deeper := { m with depth := m.depth + 1 }
  have hdeeper : deeper.Matches L N st' T' := ⟨h.store, h.table⟩
  obtain ⟨st₂, hbind, hm⟩ := (hdeeper.openScope f.closure).bindParams f.params hargs
  rw [← hdeeper.openScope_beside] at hbind
  refine ⟨st₂, ?_, hm⟩
  rw [Machine.enterCall, hparams, hclosure]
  exact hbind

end Machine.Matches
end
end LoxLang
