import LoxLang.Proofs.Parse.Fuel
import LoxLang.Proofs.Parse.Grammar

/-!
Completeness: where the grammar derives a tree from the tokens ahead, and no other rule could go on
with what comes after them, the parser builds this tree unless its fuel runs out.
-/
namespace LoxLang

namespace Grammar

def primaryStarts : List Kind :=
  [.kwFalse, .kwTrue, .kwNil, .number, .string, .identifier, .leftParen]

def expressionStarts : List Kind := .minus :: .bang :: primaryStarts

def statementStarts : List Kind :=
  expressionStarts ++ [.kwPrint, .kwIf, .kwWhile, .kwFor, .kwReturn, .leftBrace]

def declarationStarts : List Kind := .kwFun :: .kwVar :: statementStarts

def StartsWith (kinds : List Kind) (ts : List Token) : Prop := ∃ t us, ts = t :: us ∧ t.kind ∈ kinds

theorem StartsWith.append {kinds : List Kind} {ts : List Token} (h : StartsWith kinds ts)
    (us : List Token) : StartsWith kinds (ts ++ us) := by
  obtain ⟨t, vs, rfl, hk⟩ := h
  exact ⟨t, vs ++ us, rfl, hk⟩

theorem StartsWith.mono {kinds kinds' : List Kind} {ts : List Token} (h : StartsWith kinds ts)
    (hle : kinds ⊆ kinds') : StartsWith kinds' ts := by
  obtain ⟨t, vs, rfl, hk⟩ := h
  exact ⟨t, vs, rfl, hle hk⟩

/-- Nothing that takes other kinds goes on here. -/
theorem StartsWith.head {kinds : List Kind} {ts : List Token} (h : StartsWith kinds ts) {k : Kind}
    (hk : k ∉ kinds) : ∀ t ∈ ts.head?, t.kind ≠ k := by
  obtain ⟨t, vs, rfl, hmem⟩ := h
  rintro _ ⟨⟩ rfl
  exact hk hmem

theorem Constant.start {t : Token} {value : Literal} (h : Constant t value) :
    t.kind ∈ primaryStarts := by
  cases h with
  | _ hk => rw [hk]; decide

theorem Primary.start {ts : List Token} {e : Expr} (h : Primary ts e) :
    StartsWith primaryStarts ts := by
  cases h with
  | constant h => exact ⟨_, _, rfl, h.start⟩
  | identifier hk => exact ⟨_, _, rfl, by rw [hk]; decide⟩
  | grouping hk _ _ => exact ⟨_, _, rfl, by rw [hk]; decide⟩

theorem Call.start : {ts : List Token} → {e : Expr} → Call ts e → StartsWith primaryStarts ts
  | _, _, .primary h => h.start
  | _, _, .call _ _ _ h _ => (Call.start h).append _

theorem Sign.start {k : Kind} {op : UnaryOp} (h : Sign k op) : k ∈ expressionStarts := by
  cases h <;> decide

theorem Operand.start : {level : Level} → {ts : List Token} → {e : Expr} → Operand level ts e →
    StartsWith expressionStarts ts
  | _, _, _, .tighter _ h => Operand.start h
  | _, _, _, .join _ _ h _ => (Operand.start h).append _
  | _, _, _, .sign hs _ => ⟨_, _, rfl, hs.start⟩
  | _, _, _, .call h => h.start.mono (by decide)

theorem Expression.start {ts : List Token} {e : Expr} (h : Expression ts e) :
    StartsWith expressionStarts ts := by
  cases h with
  | assign hk _ _ => exact ⟨_, _, rfl, by rw [hk]; decide⟩
  | operand h => exact h.start

theorem Items.start {ts : List Token} {es : List Expr} (h : Items ts es) :
    StartsWith expressionStarts ts := by
  cases h with
  | last h => exact h.start
  | comma _ h _ => exact h.start.append _

theorem ExpressionStatement.start {ts : List Token} {s : Stmt} (h : ExpressionStatement ts s) :
    StartsWith expressionStarts ts := by
  obtain ⟨_, he⟩ := h
  exact he.start.append _

section
variable {nearest : Prop}

theorem Statement.start {isOpen : Bool} {ts : List Token} {s : Stmt}
    (h : Statement nearest isOpen ts s) : StartsWith statementStarts ts := by
  cases h with
  | expression h => exact h.start.mono (List.subset_append_left _ _)
  | print hk | branch hk | branchElse hk | loop hk | forLoop hk | result hk | block hk =>
    exact ⟨_, _, rfl, by rw [hk]; decide⟩

theorem Declaration.start {ts : List Token} {s : Stmt} (h : Declaration nearest ts s) :
    StartsWith declarationStarts ts := by
  cases h with
  | function hk | var hk => exact ⟨_, _, rfl, by rw [hk]; decide⟩
  | statement h => exact h.start.mono (by decide)

theorem Declarations.start {ts : List Token} {ss : List Stmt} (h : Declarations nearest ts ss) :
    ts = [] ∨ StartsWith declarationStarts ts := by
  cases h with
  | nil => exact .inl rfl
  | cons hs _ => exact .inr (hs.start.append _)

/-- No declaration begins with `else`. -/
theorem Declarations.not_else {ts rest : List Token} {ss : List Stmt}
    (h : Declarations nearest ts ss) (hrest : ∀ t ∈ rest.head?, t.kind ≠ .kwElse) :
    ∀ t ∈ (ts ++ rest).head?, t.kind ≠ .kwElse := by
  obtain rfl | hstart := h.start
  · exact hrest
  · exact (hstart.append rest).head (by decide)

end

theorem join?_of_operator {left right e : Expr} {level : Level} {t : Token}
    (h : Operator left right level t.kind e) :
    ∃ join, level.join? t = some join ∧
      ∀ a b, a.bare = left → b.bare = right → (join a b).bare = e := by
  unfold Level.join?
  generalize t.kind = k at h
  cases h <;> exact ⟨_, rfl, fun a b ha hb => by simp [Expr.bare, ha, hb]⟩

/-- An operator belongs to one level. -/
theorem Operator.join?_eq_none {left right e : Expr} {level l : Level} {t : Token}
    (h : Operator left right level t.kind e) (hl : l ≠ level) : l.join? t = none := by
  unfold Level.join?
  generalize t.kind = k at h
  cases h <;> cases l <;> first | rfl | exact absurd rfl hl

theorem unaryNode?_of_sign {t : Token} {op : UnaryOp} (h : Sign t.kind op) :
    Parser.unaryNode? t = some (.unary t.line op) := by
  unfold Parser.unaryNode?
  generalize t.kind = k at h
  cases h <;> rfl

theorem unaryNode?_eq_none {t : Token} (h : t.kind ∈ primaryStarts) : Parser.unaryNode? t = none := by
  unfold Parser.unaryNode?
  generalize t.kind = k at h
  cases k <;> first | rfl | exact absurd h (by decide)

theorem ofConstant?_of_constant {t : Token} {value : Literal} (h : Constant t value) :
    Expr.ofConstant? t = some (.literal t.line value) := by
  cases h with
  | _ hk => simp [Expr.ofConstant?, hk]

theorem ofConstant?_eq_none {t : Token} (h : t.kind = .identifier ∨ t.kind = .leftParen) :
    Expr.ofConstant? t = none := by
  rcases h with hk | hk <;> simp [Expr.ofConstant?, hk]

theorem Tightens.eq_tighter {level next : Level} (h : Tightens level next) :
    next = level.tighter ∧ level ≠ .unary := by
  cases h <;> exact ⟨rfl, nofun⟩

def Stops (level : Level) (ts : List Token) : Prop :=
  ∀ t ∈ ts.head?, t.kind ≠ .leftParen ∧
    ∀ l, Parser.depth l < Parser.depth level → l.join? t = none

def expressionEnds : List Kind := [.semicolon, .comma, .rightParen]

theorem stops_of_ends {t : Token} (h : t.kind ∈ expressionEnds) (level : Level) (ts : List Token) :
    Stops level (t :: ts) ∧ level.join? t = none ∧ t.kind ≠ .equal := by
  have hjoin (l : Level) : l.join? t = none := by
    unfold Level.join?
    generalize t.kind = k at h
    cases k <;> first | rfl | exact absurd h (by decide)
  refine ⟨?_, hjoin level, ?_⟩
  · rintro _ ⟨⟩
    refine ⟨?_, fun l _ => hjoin l⟩
    rintro hk
    rw [hk] at h
    exact absurd h (by decide)
  · rintro hk
    rw [hk] at h
    exact absurd h (by decide)

theorem Stops.join?_tighter {level next : Level} {ts : List Token} (h : Stops level ts)
    (ht : Tightens level next) : ∀ t ∈ ts.head?, next.join? t = none := by
  obtain ⟨rfl, hl⟩ := ht.eq_tighter
  exact fun t hmem => (h t hmem).2 _ (by have := Parser.depth_tighter hl; omega)

theorem Stops.tighter {level next : Level} {ts : List Token} (h : Stops level ts)
    (ht : Tightens level next) : Stops next ts := by
  obtain ⟨rfl, hl⟩ := ht.eq_tighter
  refine fun t hmem => ⟨(h t hmem).1, fun l hlt => (h t hmem).2 l ?_⟩
  have := Parser.depth_tighter hl
  omega

/-- An operator ends the operand before it. -/
theorem stops_of_operator {left right e : Expr} {level : Level} {op : Token}
    (h : Operator left right level op.kind e) (ts : List Token) : Stops level (op :: ts) := by
  rintro _ ⟨⟩
  refine ⟨?_, fun l hl => h.join?_eq_none ?_⟩
  · rintro hk
    rw [hk] at h
    cases h
  · rintro rfl
    exact Nat.lt_irrefl _ hl

end Grammar

namespace Parser

open Grammar

/-- From the tokens `ahead` on, `p` reads up to `rest`, builds something with the property and has
no new fault, unless it runs out of fuel. -/
def Builds (ahead rest : List Token) (p : Parser α) (P : α → Prop) : Prop :=
  ∀ c, c.rest = ahead → p c = .outOfFuel ∨
    ∃ a c', p c = .done a c' ∧ P a ∧ c'.rest = rest ∧ c'.faults = c.faults

section Rules
variable {α β : Type} {ahead mid rest : List Token} {P : α → Prop} {R : β → Prop}

theorem Builds.outOfFuel : Builds ahead rest (outOfFuel : Parser α) P := fun _ _ => .inl rfl

theorem Builds.pure {a : α} (h : P a) : Builds rest rest (Pure.pure a) P :=
  fun c hc => .inr ⟨a, c, rfl, h, hc, rfl⟩

theorem Builds.bind {p : Parser α} {f : α → Parser β} (hp : Builds ahead mid p P)
    (hf : ∀ a, P a → Builds mid rest (f a) R) : Builds ahead rest (p >>= f) R := by
  intro c hc
  simp only [Bind.bind, Parser.bind]
  obtain hout | ⟨a, c', ha, hP, hrest, hfaults⟩ := hp c hc
  · simp [hout]
  · simp only [ha]
    obtain hout | ⟨b, c'', hb, hR, hrest', hfaults'⟩ := hf a hP c' hrest
    · exact .inl hout
    · exact .inr ⟨b, c'', hb, hR, hrest', hfaults'.trans hfaults⟩

theorem Builds.map {p : Parser α} {f : α → β} (hp : Builds ahead rest p P)
    (hf : ∀ a, P a → R (f a)) : Builds ahead rest (f <$> p) R :=
  hp.bind fun a ha => .pure (hf a ha)

theorem Builds.recovering {p : Parser α} (hp : Builds ahead rest p P) :
    Builds ahead rest (recovering p) fun a? => ∃ a, a? = some a ∧ P a := by
  intro c hc
  unfold Parser.recovering
  obtain hout | ⟨a, c', ha, hP, hrest⟩ := hp c hc
  · simp [hout]
  · exact .inr ⟨some a, c', by rw [ha], ⟨a, rfl, hP⟩, hrest⟩

theorem builds_take?_some {f : Token → Option α} {g : Option α → Parser β} {t : Token} {a : α}
    (ht : f t = some a) (h : Builds ahead rest (g (some a)) R) :
    Builds (t :: ahead) rest (take? f >>= g) R := by
  intro c hc
  have hstep : take? f c = .done (some a) { c with rest := ahead, line := t.line } := by
    simp [take?, hc, ht]
  simp only [Bind.bind, Parser.bind, hstep]
  exact h _ rfl

theorem builds_take?_none {f : Token → Option α} {g : Option α → Parser β}
    (ht : ∀ t ∈ ahead.head?, f t = none) (h : Builds ahead rest (g none) R) :
    Builds ahead rest (take? f >>= g) R := by
  intro c hc
  have hstep : take? f c = .done none c := by
    unfold take?
    cases ahead with
    | nil => simp [hc]
    | cons t ts => simp [hc, ht t rfl]
  simp only [Bind.bind, Parser.bind, hstep]
  exact h c hc

theorem builds_accept?_some {kind : Kind} {g : Option Token → Parser β} {t : Token}
    (ht : t.kind = kind) (h : Builds ahead rest (g (some t)) R) :
    Builds (t :: ahead) rest (accept? kind >>= g) R :=
  builds_take?_some (by simp [ht]) h

theorem builds_accept?_none {kind : Kind} {g : Option Token → Parser β}
    (ht : ∀ t ∈ ahead.head?, t.kind ≠ kind) (h : Builds ahead rest (g none) R) :
    Builds ahead rest (accept? kind >>= g) R :=
  builds_take?_none (fun t hmem => by simp [ht t hmem]) h

theorem builds_expect {kind : Kind} {what : Expectation} {g : Token → Parser β} {t : Token}
    (ht : t.kind = kind) (h : Builds ahead rest (g t) R) :
    Builds (t :: ahead) rest (expect kind what >>= g) R := by
  unfold expect
  rw [bind_assoc]
  refine builds_accept?_some ht ?_
  simpa only [pure_bind] using h

theorem builds_nextIs_true {kind : Kind} {g : Bool → Parser β} {t : Token} (ht : t.kind = kind)
    (h : Builds (t :: ahead) rest (g true) R) : Builds (t :: ahead) rest (nextIs kind >>= g) R := by
  intro c hc
  have hstep : nextIs kind c = .done true c := by simp [nextIs, hc, ht]
  simp only [Bind.bind, Parser.bind, hstep]
  exact h c hc

theorem builds_nextIs_false {kind : Kind} {g : Bool → Parser β}
    (ht : ∀ t ∈ ahead.head?, t.kind ≠ kind) (h : Builds ahead rest (g false) R) :
    Builds ahead rest (nextIs kind >>= g) R := by
  intro c hc
  have hstep : nextIs kind c = .done false c := by
    cases ahead with
    | nil => simp [nextIs, hc]
    | cons t ts => simpa [nextIs, hc] using ht t rfl
  simp only [Bind.bind, Parser.bind, hstep]
  exact h c hc

theorem builds_limitCount {count : Nat} {cause : Cause} {g : Unit → Parser β} (hcount : count < 255)
    (h : Builds ahead rest (g ()) R) : Builds ahead rest (limitCount count cause >>= g) R := by
  intro c hc
  have hstep : limitCount count cause c = .done () c := by
    simp [limitCount, maxArguments, Nat.ne_of_lt hcount]
  simp only [Bind.bind, Parser.bind, hstep]
  exact h c hc

theorem builds_freshId {g : NodeId → Parser β} (h : ∀ id, Builds ahead rest (g id) R) :
    Builds ahead rest (freshId >>= g) R :=
  fun c hc => h c.nextId { c with nextId := c.nextId + 1 } hc

end Rules

/-- Operators end where none is ahead. -/
theorem builds_operators {ahead : List Token} {level : Level} {a e : Expr}
    (hstop : ∀ t ∈ ahead.head?, level.join? t = none) (ha : a.bare = e) (n : Nat) :
    Builds ahead ahead (operators n level a) fun a => a.bare = e := by
  cases n with
  | zero => rw [operators]; exact .outOfFuel
  | succ n =>
    rw [operators]
    exact builds_take?_none hstop (.pure ha)

theorem builds_calls_end {ahead : List Token} {a e : Expr}
    (hstop : ∀ t ∈ ahead.head?, t.kind ≠ .leftParen) (ha : a.bare = e) (n : Nat) :
    Builds ahead ahead (calls n a) fun a => a.bare = e := by
  cases n with
  | zero => rw [calls]; exact .outOfFuel
  | succ n =>
    rw [calls]
    exact builds_accept?_none hstop (.pure ha)

theorem join?_unary (t : Token) : Level.unary.join? t = none := by
  unfold Level.join?
  cases t.kind <;> rfl

/-- A name is an operand of any level where an assignment goes on. -/
theorem builds_name {name equals : Token} {ahead : List Token} (hname : name.kind = .identifier)
    (hequals : equals.kind = .equal) (level : Level) (n : Nat) :
    Builds (name :: equals :: ahead) (equals :: ahead) (operands n level) fun a =>
      a.bare = .reference 0 name.lexeme 0 := by
  have hjoin (l : Level) : ∀ t ∈ (equals :: ahead).head?, l.join? t = none := by
    rintro _ ⟨⟩
    simp [Level.join?, hequals, LogicalOp.ofKind?, BinaryOp.ofKind?]
  have hcall : ∀ t ∈ (equals :: ahead).head?, t.kind ≠ .leftParen := by
    rintro _ ⟨⟩
    simp [hequals]
  induction n generalizing level with
  | zero => rw [operands]; exact .outOfFuel
  | succ n ih =>
    by_cases hl : level = .unary
    · subst hl
      rw [operands]
      refine builds_take?_none ?_ (.bind ?_ fun a ha => builds_calls_end hcall ha n)
      · rintro _ ⟨⟩
        simp [unaryNode?, UnaryOp.ofKind?, hname]
      · cases n with
        | zero => rw [primary]; exact .outOfFuel
        | succ n =>
          rw [primary]
          refine builds_take?_none ?_ (builds_accept?_some hname (builds_freshId fun id => ?_))
          · rintro _ ⟨⟩
            exact ofConstant?_eq_none (.inl hname)
          · exact .pure rfl
    · rw [operands.eq_3 _ _ hl]
      exact (ih _).bind fun a ha => builds_operators (hjoin level) ha n

/-- There are no operators between unary operands. -/
theorem builds_operators_unary {ahead rest : List Token} {P : Expr → Prop} {e a : Expr}
    (hnext : ∀ m a, a.bare = e → Builds ahead rest (operators m .unary a) P) (ha : a.bare = e) :
    Builds ahead rest (Pure.pure a) P := by
  have h := hnext 1 a ha
  rw [operators] at h
  intro c hc
  have hstep : take? Level.unary.join? c = .done none c := by
    unfold take?
    split
    · rfl
    · rw [join?_unary]
  have h := h c hc
  simpa only [Bind.bind, Parser.bind, hstep] using h

mutual

theorem builds_expression : {ts : List Token} → {e : Expr} → Expression ts e → {t : Token} →
    {ahead : List Token} → t.kind ∈ expressionEnds → (n : Nat) →
      Builds (ts ++ t :: ahead) (t :: ahead) (expression n) fun a => a.bare = e
  | _, _, h, t, ahead, ht, 0 => by rw [expression]; exact .outOfFuel
  | _, _, .assign hname hequals hvalue, t, ahead, ht, n + 1 => by
    rw [expression]
    refine (builds_name hname hequals .or n).bind fun target htarget => ?_
    refine builds_accept?_some hequals ((builds_expression hvalue ht n).bind fun value hv => ?_)
    cases target with
    | reference line x id =>
      cases htarget
      exact .pure (by rw [Expr.bare, hv])
    | _ => cases htarget
  | _, e, .operand h, t, ahead, ht, n + 1 => by
    obtain ⟨hstops, hjoin, hne⟩ := stops_of_ends ht .or ahead
    have hhead : ∀ u ∈ (t :: ahead).head?, Level.or.join? u = none := by
      rintro _ ⟨⟩
      exact hjoin
    have hend (m : Nat) (a : Expr) (ha : a.bare = e) :
        Builds (t :: ahead) (t :: ahead) (operators m .or a) fun a => a.bare = e :=
      builds_operators hhead ha m
    rw [expression]
    refine (builds_operands h hstops hend n).bind fun a ha => builds_accept?_none ?_ (.pure ha)
    rintro _ ⟨⟩
    exact hne

/-- The operators that follow an operand join what comes next to it. -/
theorem builds_operands : {level : Level} → {ts : List Token} → {e : Expr} → Operand level ts e →
    {ahead rest : List Token} → {P : Expr → Prop} → Stops level ahead →
      (∀ m a, a.bare = e → Builds ahead rest (operators m level a) P) → (n : Nat) →
        Builds (ts ++ ahead) rest (operands n level) P
  | _, _, _, h, ahead, rest, P, hstops, hnext, 0 => by rw [operands]; exact .outOfFuel
  | level, _, e, @Operand.tighter _ next _ _ ht h, ahead, rest, P, hstops, hnext, n + 1 => by
    have hend (m : Nat) (a : Expr) (ha : a.bare = e) :
        Builds ahead ahead (operators m next a) fun a => a.bare = e :=
      builds_operators (hstops.join?_tighter ht) ha m
    have hoperand := builds_operands h (hstops.tighter ht) hend n
    obtain ⟨rfl, hl⟩ := ht.eq_tighter
    rw [operands.eq_3 _ _ hl]
    exact hoperand.bind fun a ha => hnext n a ha
  | level, _, e, @Operand.join _ next ts us op left right _ ht hop hleft hright, ahead, rest, P,
      hstops, hnext, n + 1 => by
    have hend (m : Nat) (a : Expr) (ha : a.bare = right) :
        Builds ahead ahead (operators m next a) fun a => a.bare = right :=
      builds_operators (hstops.join?_tighter ht) ha m
    have hoperand (m : Nat) := builds_operands hright (hstops.tighter ht) hend m
    obtain ⟨join, hjoin, hbare⟩ := join?_of_operator hop
    obtain ⟨rfl, -⟩ := ht.eq_tighter
    rw [List.append_assoc]
    refine builds_operands hleft (stops_of_operator hop _) (fun m a ha => ?_) (n + 1)
    cases m with
    | zero => rw [operators]; exact .outOfFuel
    | succ m =>
      rw [operators]
      refine builds_take?_some hjoin ((hoperand m).bind fun b hb => ?_)
      exact hnext m (join a b) (hbare a b ha hb)
  | _, _, _, @Operand.sign t op ts e hs h, ahead, rest, P, hstops, hnext, n + 1 => by
    have hend (m : Nat) (a : Expr) (ha : a.bare = e) :
        Builds ahead ahead (operators m .unary a) fun a => a.bare = e :=
      builds_operators (fun t _ => join?_unary t) ha m
    rw [operands]
    refine builds_take?_some (unaryNode?_of_sign hs) ?_
    refine (builds_operands h hstops hend n).bind fun a ha => ?_
    exact builds_operators_unary hnext (by rw [Expr.bare, ha])
  | _, _, e, .call h, ahead, rest, P, hstops, hnext, n + 1 => by
    have hend (m : Nat) (a : Expr) (ha : a.bare = e) : Builds ahead rest (calls m a) P := by
      cases m with
      | zero => rw [calls]; exact .outOfFuel
      | succ m =>
        rw [calls]
        exact builds_accept?_none (fun t hmem => (hstops t hmem).1) (builds_operators_unary hnext ha)
    rw [operands]
    refine builds_take?_none ?_ (builds_calls h hend n)
    obtain ⟨t, vs, rfl, hk⟩ := h.start
    rintro _ ⟨⟩
    exact unaryNode?_eq_none hk

/-- The argument lists that follow a callee call it. -/
theorem builds_calls : {ts : List Token} → {e : Expr} → Call ts e → {ahead rest : List Token} →
    {P : Expr → Prop} → (∀ m a, a.bare = e → Builds ahead rest (calls m a) P) → (n : Nat) →
      Builds (ts ++ ahead) rest (primary n >>= fun a => calls n a) P
  | _, _, .primary h, ahead, rest, P, hnext, n => (builds_primary h n).bind fun a ha => hnext n a ha
  | _, _, @Call.call opening closing ts us callee arguments hopening hclosing hlen hcallee hargs,
      ahead, rest, P, hnext, n => by
    have hlist (m : Nat) : Builds (us ++ closing :: ahead) (closing :: ahead) (argumentList m)
        fun as => Expr.allBare as = arguments := builds_argumentList hargs hclosing hlen m
    have heq : ts ++ opening :: (us ++ [closing]) ++ ahead =
        ts ++ (opening :: (us ++ closing :: ahead)) := by simp
    rw [heq]
    refine builds_calls hcallee (fun m a ha => ?_) n
    cases m with
    | zero => rw [calls]; exact .outOfFuel
    | succ m =>
      rw [calls]
      refine builds_accept?_some hopening ((hlist m).bind fun args hargs => builds_expect hclosing ?_)
      exact hnext m _ (by rw [Expr.bare, ha, hargs])

theorem builds_argumentList : {ts : List Token} → {es : List Expr} → Arguments ts es →
    {closing : Token} → {ahead : List Token} → closing.kind = .rightParen → es.length ≤ 255 →
      (n : Nat) → Builds (ts ++ closing :: ahead) (closing :: ahead) (argumentList n) fun as =>
        Expr.allBare as = es
  | _, _, h, closing, ahead, hclosing, hlen, 0 => by rw [argumentList]; exact .outOfFuel
  | _, _, .none, closing, ahead, hclosing, hlen, n + 1 => by
    rw [argumentList]
    exact builds_nextIs_true hclosing (.pure rfl)
  | _, _, .some h, closing, ahead, hclosing, hlen, n + 1 => by
    rw [argumentList]
    refine builds_nextIs_false ?_ (builds_arguments h hclosing 0 (by simpa using hlen) n)
    exact (h.start.append _).head (by decide)

theorem builds_arguments : {ts : List Token} → {es : List Expr} → Items ts es →
    {closing : Token} → {ahead : List Token} → closing.kind = .rightParen → (count : Nat) →
      count + es.length ≤ 255 → (n : Nat) →
        Builds (ts ++ closing :: ahead) (closing :: ahead) (arguments n count) fun as =>
          Expr.allBare as = es
  | _, _, h, closing, ahead, hclosing, count, hlen, 0 => by rw [arguments]; exact .outOfFuel
  | _, _, .last h, closing, ahead, hclosing, count, hlen, n + 1 => by
    have hends : closing.kind ∈ expressionEnds := by rw [hclosing]; decide
    rw [List.length_cons] at hlen
    rw [arguments]
    refine builds_limitCount (by omega) ((builds_expression h hends n).bind fun a ha => ?_)
    refine builds_accept?_none ?_ (.pure (by rw [Expr.allBare, Expr.allBare, ha]))
    rintro _ ⟨⟩
    simp [hclosing]
  | _, _, @Items.comma comma ts us e es hcomma he hes, closing, ahead, hclosing, count, hlen,
      n + 1 => by
    have hends : comma.kind ∈ expressionEnds := by rw [hcomma]; decide
    rw [List.length_cons] at hlen
    rw [arguments, List.append_assoc]
    refine builds_limitCount (by omega) ((builds_expression he hends n).bind fun a ha => ?_)
    refine builds_accept?_some hcomma ?_
    exact (builds_arguments hes hclosing (count + 1) (by omega) n).map fun as has => by
      rw [Expr.allBare, ha, has]

theorem builds_primary : {ts : List Token} → {e : Expr} → Primary ts e → {ahead : List Token} →
    (n : Nat) → Builds (ts ++ ahead) ahead (primary n) fun a => a.bare = e
  | _, _, h, ahead, 0 => by rw [primary]; exact .outOfFuel
  | _, _, .constant h, ahead, n + 1 => by
    rw [primary]
    exact builds_take?_some (ofConstant?_of_constant h) (.pure rfl)
  | _, _, .identifier hk, ahead, n + 1 => by
    rw [primary]
    refine builds_take?_none ?_ (builds_accept?_some hk (builds_freshId fun id => .pure rfl))
    rintro _ ⟨⟩
    exact ofConstant?_eq_none (.inl hk)
  | _, _, @Primary.grouping opening closing ts e hopening hclosing h, ahead, n + 1 => by
    have hends : closing.kind ∈ expressionEnds := by rw [hclosing]; decide
    rw [primary, List.cons_append, List.append_assoc]
    refine builds_take?_none ?_ (builds_accept?_none ?_ (builds_accept?_some hopening ?_))
    · rintro _ ⟨⟩
      exact ofConstant?_eq_none (.inr hopening)
    · rintro _ ⟨⟩
      simp [hopening]
    · refine (builds_expression h hends n).bind fun a ha => builds_expect hclosing (.pure ?_)
      rw [Expr.bare, ha]

end

theorem builds_initializer? {ts ahead : List Token} {e? : Option Expr} {t : Token}
    (h : Initializer ts e?) (ht : t.kind = .semicolon) (n : Nat) :
    Builds (ts ++ t :: ahead) (t :: ahead) (initializer? n) fun a? => a?.map Expr.bare = e? := by
  have hends : t.kind ∈ expressionEnds := by rw [ht]; decide
  cases h with
  | none =>
    refine builds_accept?_none ?_ (.pure rfl)
    rintro _ ⟨⟩
    simp [ht]
  | some hequals he =>
    exact builds_accept?_some hequals ((builds_expression he hends n).map fun a ha => congrArg some ha)

theorem builds_varDeclaration {ts ahead : List Token} {s : Stmt} (h : Variable ts s) (n : Nat) :
    Builds (ts ++ ahead) ahead (varDeclaration n) fun a => a.bare = s := by
  obtain ⟨hname, hsemicolon, hi⟩ := h
  rw [List.cons_append, List.append_assoc]
  refine builds_expect hname ((builds_initializer? hi hsemicolon n).bind fun a? ha => ?_)
  exact builds_expect hsemicolon (.pure (by rw [Stmt.bare, ha]))

theorem builds_expressionStatement {ts ahead : List Token} {s : Stmt} (h : ExpressionStatement ts s)
    (n : Nat) : Builds (ts ++ ahead) ahead (expressionStatement n) fun a => a.bare = s := by
  obtain ⟨hsemicolon, he⟩ := h
  rw [List.append_assoc]
  refine (builds_expression he (by rw [hsemicolon]; decide) n).bind fun a ha => ?_
  exact builds_expect hsemicolon (.pure (by rw [Stmt.ofExpr, Stmt.bare, ha]))

theorem builds_expressionBefore? {ts ahead : List Token} {e? : Option Expr} {t : Token}
    {closing : Kind} (h : Optional ts e?) (ht : t.kind = closing) (hends : closing ∈ expressionEnds)
    (hstart : closing ∉ expressionStarts) (n : Nat) :
    Builds (ts ++ t :: ahead) (t :: ahead) (expressionBefore? n closing) fun a? =>
      a?.map Expr.bare = e? := by
  cases h with
  | none => exact builds_nextIs_true ht (.pure rfl)
  | some he =>
    refine builds_nextIs_false ((he.start.append _).head hstart) ?_
    exact (builds_expression he (ht ▸ hends) n).map fun a ha => congrArg some ha

theorem builds_ifHead {cs ahead : List Token} {opening closing : Token} {e : Expr}
    (hopening : opening.kind = .leftParen) (hclosing : closing.kind = .rightParen)
    (he : Expression cs e) (n : Nat) :
    Builds (opening :: (cs ++ closing :: ahead)) ahead (ifHead n) fun a => a.bare = e :=
  builds_expect hopening ((builds_expression he (by rw [hclosing]; decide) n).bind fun _ ha =>
    builds_expect hclosing (.pure ha))

theorem builds_whileHead {cs ahead : List Token} {opening closing : Token} {e : Expr}
    (hopening : opening.kind = .leftParen) (hclosing : closing.kind = .rightParen)
    (he : Expression cs e) (n : Nat) :
    Builds (opening :: (cs ++ closing :: ahead)) ahead (whileHead n) fun a => a.bare = e :=
  builds_expect hopening ((builds_expression he (by rw [hclosing]; decide) n).bind fun _ ha =>
    builds_expect hclosing (.pure ha))

theorem builds_forInitializer? {ts ahead : List Token} {s? : Option Stmt} (h : ForInitializer ts s?)
    (n : Nat) : Builds (ts ++ ahead) ahead (forInitializer? n) fun a? => a?.map Stmt.bare = s? := by
  cases h with
  | none hsemicolon => exact builds_accept?_some hsemicolon (.pure rfl)
  | var hk hs =>
    refine builds_accept?_none ?_ (builds_accept?_some hk ?_)
    · rintro _ ⟨⟩
      simp [hk]
    · exact (builds_varDeclaration hs n).map fun a ha => congrArg some ha
  | expression hs =>
    have hstart := hs.start.append ahead
    refine builds_accept?_none (hstart.head (by decide))
      (builds_accept?_none (hstart.head (by decide)) ?_)
    exact (builds_expressionStatement hs n).map fun a ha => congrArg some ha

theorem builds_forHead {is cs ns ahead : List Token} {opening semicolon closing : Token}
    {initializer : Option Stmt} {condition increment : Option Expr}
    (hopening : opening.kind = .leftParen) (hsemicolon : semicolon.kind = .semicolon)
    (hclosing : closing.kind = .rightParen) (hi : ForInitializer is initializer)
    (hc : Optional cs condition) (hn : Optional ns increment) (n : Nat) :
    Builds (opening :: (is ++ (cs ++ semicolon :: (ns ++ closing :: ahead)))) ahead (forHead n)
      fun head => head.initializer.map Stmt.bare = initializer ∧
        head.condition.map Expr.bare = condition ∧ head.increment.map Expr.bare = increment := by
  refine builds_expect hopening ((builds_forInitializer? hi n).bind fun a ha => ?_)
  refine (builds_expressionBefore? hc hsemicolon (by decide) (by decide) n).bind fun b hb => ?_
  refine builds_expect hsemicolon ?_
  refine (builds_expressionBefore? hn hclosing (by decide) (by decide) n).bind fun d hd => ?_
  exact builds_expect hclosing (.pure ⟨ha, hb, hd⟩)

theorem builds_parameters {closing : Token} {ahead : List Token}
    (hclosing : closing.kind = .rightParen) :
    {ts : List Token} → {names : List Name} → Names ts names → (count : Nat) →
      count + names.length ≤ 255 → (n : Nat) →
        Builds (ts ++ closing :: ahead) (closing :: ahead) (parameters n count) fun as => as = names
  | _, _, h, count, hlen, 0 => .outOfFuel
  | _, _, .last hname, count, hlen, n + 1 => by
    rw [List.length_cons] at hlen
    refine builds_limitCount (by omega) (builds_expect hname (builds_accept?_none ?_ (.pure rfl)))
    rintro _ ⟨⟩
    rw [hclosing]
    decide
  | _, _, .comma hname hcomma h, count, hlen, n + 1 => by
    rw [List.length_cons] at hlen
    refine builds_limitCount (by omega) (builds_expect hname (builds_accept?_some hcomma ?_))
    exact (builds_parameters hclosing h (count + 1) (by omega) n).map fun as has => by rw [has]

theorem builds_parameterList {ts ahead : List Token} {names : List Name} {closing : Token}
    (h : Parameters ts names) (hclosing : closing.kind = .rightParen) (hlen : names.length ≤ 255)
    (n : Nat) : Builds (ts ++ closing :: ahead) (closing :: ahead) (parameterList n) fun as =>
      as = names := by
  cases h with
  | none => exact builds_nextIs_true hclosing (.pure rfl)
  | some h =>
    refine builds_nextIs_false ?_ (builds_parameters hclosing h 0 (by simpa using hlen) n)
    cases h <;> (rintro _ ⟨⟩; simp [*])

theorem builds_functionHead {ps ahead : List Token} {params : List Name}
    {name opening closing brace : Token} (hname : name.kind = .identifier)
    (hopening : opening.kind = .leftParen) (hclosing : closing.kind = .rightParen)
    (hbrace : brace.kind = .leftBrace) (hps : Parameters ps params) (hlen : params.length ≤ 255)
    (n : Nat) : Builds (name :: opening :: (ps ++ closing :: brace :: ahead)) ahead (functionHead n)
      fun head => head.name = name ∧ head.params = params := by
  refine builds_expect hname (builds_expect hopening ?_)
  refine (builds_parameterList hps hclosing hlen n).bind fun as has => ?_
  exact builds_expect hclosing (builds_expect hbrace (.pure ⟨rfl, has⟩))

theorem opening?_of_kind {t : Token} {opening : Opening} (h : Opening.ofKind? t.kind = some opening) :
    opening? t = some (opening, t.line) := by
  rw [opening?, h]
  rfl

theorem opening?_eq_none {t : Token} (h : t.kind ∈ expressionStarts) : opening? t = none := by
  unfold opening?
  generalize t.kind = k at h
  cases k <;> first | rfl | exact absurd h (by decide)

theorem builds_atEnd_true {β : Type} {R : β → Prop} {g : Bool → Parser β}
    (h : Builds [] [] (g true) R) : Builds [] [] (atEnd >>= g) R := by
  intro c hc
  have hstep : atEnd c = .done true c := by rw [atEnd, hc]; rfl
  simp only [Bind.bind, Parser.bind, hstep]
  exact h c hc

theorem builds_atEnd_false {β : Type} {ahead rest : List Token} {R : β → Prop} {g : Bool → Parser β}
    (hne : ahead ≠ []) (h : Builds ahead rest (g false) R) : Builds ahead rest (atEnd >>= g) R := by
  intro c hc
  have hstep : atEnd c = .done false c := by simpa [atEnd, hc] using hne
  simp only [Bind.bind, Parser.bind, hstep]
  exact h c hc

theorem builds_blockEnds_true {β : Type} {ahead rest : List Token} {R : β → Prop}
    {g : Bool → Parser β} {t : Token} (ht : t.kind = .rightBrace)
    (h : Builds (t :: ahead) rest (g true) R) : Builds (t :: ahead) rest (blockEnds >>= g) R := by
  unfold blockEnds
  rw [bind_assoc]
  exact builds_atEnd_false (by simp) (by simpa using builds_nextIs_true ht h)

theorem builds_blockEnds_false {β : Type} {ahead rest : List Token} {R : β → Prop}
    {g : Bool → Parser β} (hstart : StartsWith declarationStarts ahead)
    (h : Builds ahead rest (g false) R) : Builds ahead rest (blockEnds >>= g) R := by
  unfold blockEnds
  rw [bind_assoc]
  have hne : ahead ≠ [] := by
    obtain ⟨t, us, rfl, -⟩ := hstart
    simp
  exact builds_atEnd_false hne (by simpa using builds_nextIs_false (hstart.head (by decide)) h)

theorem builds_elseBranch?_none {ahead : List Token} (h : ∀ t ∈ ahead.head?, t.kind ≠ .kwElse)
    (n : Nat) : Builds ahead ahead (elseBranch? n) fun a? => a? = none := by
  cases n with
  | zero => rw [elseBranch?]; exact .outOfFuel
  | succ n =>
    rw [elseBranch?]
    exact builds_accept?_none h (.pure rfl)

theorem builds_elseBranch?_some {ahead rest : List Token} {P : Stmt → Prop} {keyword : Token}
    (hk : keyword.kind = .kwElse) (h : ∀ m, Builds ahead rest (statement m) P) (n : Nat) :
    Builds (keyword :: ahead) rest (elseBranch? n) fun a? => ∃ a, a? = some a ∧ P a := by
  cases n with
  | zero => rw [elseBranch?]; exact .outOfFuel
  | succ n =>
    rw [elseBranch?]
    exact builds_accept?_some hk ((h n).map fun a ha => ⟨a, rfl, ha⟩)

mutual

theorem builds_statement : {isOpen : Bool} → {ts : List Token} → {s : Stmt} →
    Statement True isOpen ts s → {ahead : List Token} →
      (isOpen = true → ∀ t ∈ ahead.head?, t.kind ≠ .kwElse) → (n : Nat) →
        Builds (ts ++ ahead) ahead (statement n) fun a => a.bare = s
  | _, _, _, h, ahead, hfollow, 0 => by rw [statement]; exact .outOfFuel
  | _, _, _, .expression h, ahead, hfollow, n + 1 => by
    rw [statement]
    refine builds_take?_none ?_ (builds_expressionStatement h n)
    obtain ⟨t, us, rfl, hk⟩ := h.start
    rintro _ ⟨⟩
    exact opening?_eq_none hk
  | _, _, _, .print hk hsemicolon he, ahead, hfollow, n + 1 => by
    rw [statement, List.cons_append, List.append_assoc]
    refine builds_take?_some (opening?_of_kind (by rw [hk]; rfl)) ?_
    refine (builds_expression he (by rw [hsemicolon]; decide) n).bind fun a ha => ?_
    exact builds_expect hsemicolon (.pure (by rw [Stmt.bare, ha]))
  | _, _, _, @Statement.branch _ keyword opening closing cs ts _ _ _ hk hopening hclosing hc hs, ahead,
      hfollow, n + 1 => by
    have heq : keyword :: opening :: (cs ++ closing :: ts) ++ ahead =
        keyword :: opening :: (cs ++ closing :: (ts ++ ahead)) := by simp
    rw [statement, heq]
    refine builds_take?_some (opening?_of_kind (by rw [hk]; rfl)) ?_
    refine (builds_ifHead hopening hclosing hc n).bind fun a ha => ?_
    refine (builds_statement hs (fun _ => hfollow rfl) n).bind fun b hb => ?_
    refine (builds_elseBranch?_none (hfollow rfl) n).bind fun o ho => .pure ?_
    rw [ho, Stmt.bare, ha, hb]
  | _, _, _, @Statement.branchElse _ keyword opening closing keywordElse cs ts us _ isOpen _ _ _ hk
      hopening hclosing hkelse hnearest hc hs hs', ahead, hfollow, n + 1 => by
    have heq : keyword :: opening :: (cs ++ closing :: (ts ++ keywordElse :: us)) ++ ahead =
        keyword :: opening :: (cs ++ closing :: (ts ++ keywordElse :: (us ++ ahead))) := by simp
    have hclosed : isOpen ≠ true := by simp [hnearest trivial]
    have helse := builds_elseBranch?_some hkelse (builds_statement hs' hfollow)
    rw [statement, heq]
    refine builds_take?_some (opening?_of_kind (by rw [hk]; rfl)) ?_
    refine (builds_ifHead hopening hclosing hc n).bind fun a ha => ?_
    refine (builds_statement hs (fun h => absurd h hclosed) n).bind fun b hb => ?_
    refine (helse n).bind fun o ho => .pure ?_
    obtain ⟨e, rfl, he⟩ := ho
    rw [Stmt.bare, ha, hb, he]
  | _, _, _, @Statement.loop _ keyword opening closing cs ts _ _ _ hk hopening hclosing hc hs, ahead,
      hfollow, n + 1 => by
    have heq : keyword :: opening :: (cs ++ closing :: ts) ++ ahead =
        keyword :: opening :: (cs ++ closing :: (ts ++ ahead)) := by simp
    rw [statement, heq]
    refine builds_take?_some (opening?_of_kind (by rw [hk]; rfl)) ?_
    refine (builds_whileHead hopening hclosing hc n).bind fun a ha => ?_
    exact (builds_statement hs hfollow n).bind fun b hb => .pure (by rw [Stmt.bare, ha, hb])
  | _, _, _, @Statement.forLoop _ keyword opening semicolon closing is cs ns ts _ _ _ _ _ hk hopening
      hsemicolon hclosing hi hc hn hs, ahead, hfollow, n + 1 => by
    have heq : keyword :: opening :: (is ++ (cs ++ semicolon :: (ns ++ closing :: ts))) ++ ahead =
        keyword :: opening :: (is ++ (cs ++ semicolon :: (ns ++ closing :: (ts ++ ahead)))) := by simp
    rw [statement, heq]
    refine builds_take?_some (opening?_of_kind (by rw [hk]; rfl)) ?_
    refine (builds_forHead hopening hsemicolon hclosing hi hc hn n).bind fun head hhead => ?_
    refine (builds_statement hs hfollow n).bind fun b hb => .pure ?_
    rw [bare_forLoop, hhead.1, hhead.2.1, hhead.2.2, hb]
  | _, _, _, .result hk hsemicolon he, ahead, hfollow, n + 1 => by
    rw [statement, List.cons_append, List.append_assoc]
    refine builds_take?_some (opening?_of_kind (by rw [hk]; rfl)) ?_
    refine (builds_expressionBefore? he hsemicolon (by decide) (by decide) n).bind fun a ha => ?_
    exact builds_expect hsemicolon (.pure (by rw [Stmt.bare, ha]))
  | _, _, _, .block hopening hclosing hss, ahead, hfollow, n + 1 => by
    rw [statement, List.cons_append, List.append_assoc]
    refine builds_take?_some (opening?_of_kind (by rw [hopening]; rfl)) ?_
    exact (builds_block hss hclosing n).bind fun a ha => .pure (by rw [Stmt.bare, ha])

theorem builds_declaration : {ts : List Token} → {s : Stmt} → Declaration True ts s →
    {ahead : List Token} → (∀ t ∈ ahead.head?, t.kind ≠ .kwElse) → (n : Nat) →
      Builds (ts ++ ahead) ahead (declaration n) fun a? => ∃ a, a? = some a ∧ a.bare = s
  | _, _, h, ahead, hfollow, 0 => by rw [declaration]; exact .outOfFuel
  | _, _, @Declaration.function _ keyword name opening closing brace closingBrace ps ts _ _ hk hname
      hopening hclosing hbrace hclosingBrace hps hlen hss, ahead, hfollow, n + 1 => by
    have heq : keyword :: name :: opening ::
        (ps ++ closing :: brace :: (ts ++ [closingBrace])) ++ ahead =
        keyword :: name :: opening :: (ps ++ closing :: brace :: (ts ++ closingBrace :: ahead)) := by
      simp
    rw [declaration, heq]
    refine Builds.recovering (builds_accept?_some hk ?_)
    refine (builds_functionHead hname hopening hclosing hbrace hps hlen n).bind fun head hhead => ?_
    refine (builds_block hss hclosingBrace n).bind fun a ha => .pure ?_
    rw [Stmt.bare, hhead.1, hhead.2, ha]
  | _, _, .var hk h, ahead, hfollow, n + 1 => by
    rw [declaration]
    refine Builds.recovering (builds_accept?_none ?_ (builds_accept?_some hk ?_))
    · rintro _ ⟨⟩
      simp [hk]
    · exact builds_varDeclaration h n
  | _, _, .statement h, ahead, hfollow, n + 1 => by
    have hstart := h.start.append ahead
    rw [declaration]
    refine Builds.recovering (builds_accept?_none (hstart.head (by decide)) ?_)
    refine builds_accept?_none (hstart.head (by decide)) ?_
    exact builds_statement h (fun _ => hfollow) n

theorem builds_block : {ts : List Token} → {ss : List Stmt} → Declarations True ts ss →
    {closing : Token} → {ahead : List Token} → closing.kind = .rightBrace → (n : Nat) →
      Builds (ts ++ closing :: ahead) ahead (block n) fun as => Stmt.allBare as = ss
  | _, _, h, closing, ahead, hclosing, 0 => by rw [block]; exact .outOfFuel
  | _, _, .nil, closing, ahead, hclosing, n + 1 => by
    rw [block]
    exact builds_blockEnds_true hclosing (builds_expect hclosing (.pure rfl))
  | _, _, .cons hs hss, closing, ahead, hclosing, n + 1 => by
    have hfollow : ∀ t ∈ (_ ++ closing :: ahead).head?, t.kind ≠ .kwElse :=
      hss.not_else (by simp [hclosing])
    rw [block, List.append_assoc]
    refine builds_blockEnds_false (hs.start.append _) ?_
    refine (builds_declaration hs hfollow n).bind fun a? ha => ?_
    obtain ⟨a, rfl, ha⟩ := ha
    exact (builds_block hss hclosing n).map fun as has => by
      rw [Option.toList_some, List.singleton_append, Stmt.allBare, ha, has]

end

theorem builds_program : {ts : List Token} → {ss : List Stmt} → Declarations True ts ss → (n : Nat) →
    Builds ts [] (program n) fun as => Stmt.allBare as = ss
  | _, _, h, 0 => .outOfFuel
  | _, _, .nil, n + 1 => builds_atEnd_true (.pure rfl)
  | _, _, @Declarations.cons _ ts us s ss hs hss, n + 1 => by
    have hne : ts ++ us ≠ [] := by
      obtain ⟨t, vs, rfl, -⟩ := hs.start
      exact List.cons_ne_nil _ _
    have hfollow : ∀ t ∈ us.head?, t.kind ≠ .kwElse := by
      rcases hss.start with rfl | hstart
      · intro t ht
        cases ht
      · exact hstart.head (by decide)
    refine builds_atEnd_false hne ((builds_declaration hs hfollow n).bind fun a? ha => ?_)
    obtain ⟨a, rfl, ha⟩ := ha
    exact (builds_program hss n).map fun as has => by
      rw [Option.toList_some, List.singleton_append, Stmt.allBare, ha, has]

end Parser
end LoxLang
