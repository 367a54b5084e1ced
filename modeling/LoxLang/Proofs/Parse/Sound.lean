import LoxLang.Proofs.Parse.Numbering
import LoxLang.Proofs.Parse.Grammar

/-!
Soundness: what a parser reads without a new fault is derived by the grammar, and the tree of the
derivation is the one that it builds.
-/
namespace LoxLang

namespace Grammar

theorem operator_logical {k : Kind} {op : LogicalOp} (h : LogicalOp.ofKind? k = some op)
    (left right : Expr) : Operator left right op.level k (.logical 0 op left right) := by
  cases k <;> cases h <;> constructor

theorem operator_binary {k : Kind} {op : BinaryOp} (h : BinaryOp.ofKind? k = some op)
    (left right : Expr) : Operator left right op.level k (.binary 0 op left right) := by
  cases k <;> cases h <;> constructor

theorem operator_of_join? {level : Level} {t : Token} {join : Expr → Expr → Expr}
    (h : level.join? t = some join) (left right : Expr) :
    Operator left.bare right.bare level t.kind (join left right).bare := by
  rcases Level.join?_eq_some h with ⟨op, hop, rfl, rfl⟩ | ⟨op, hop, rfl, rfl⟩
  · exact operator_logical hop _ _
  · exact operator_binary hop _ _

theorem Operator.tightens {left right e : Expr} {level : Level} {k : Kind}
    (h : Operator left right level k e) : Tightens level level.tighter := by
  cases h <;> constructor

theorem tightens_tighter {level : Level} (h : level ≠ .unary) : Tightens level level.tighter := by
  cases level <;> first | exact absurd rfl h | constructor

theorem sign_of_unaryNode? {t : Token} {node : Expr → Expr}
    (h : Parser.unaryNode? t = some node) :
    ∃ op, Sign t.kind op ∧ ∀ e, (node e).bare = .unary 0 op e.bare := by
  obtain ⟨op, hop, rfl⟩ := Option.map_eq_some_iff.mp h
  refine ⟨op, ?_, fun _ => rfl⟩
  generalize t.kind = k at hop
  cases k <;> cases hop <;> constructor

theorem constant_of_ofConstant? {t : Token} {e : Expr} (h : Expr.ofConstant? t = some e) :
    ∃ value, Constant t value ∧ e.bare = .literal 0 value := by
  unfold Expr.ofConstant? at h
  split at h
  · next hk => cases h; exact ⟨_, .false hk, rfl⟩
  · next hk => cases h; exact ⟨_, .true hk, rfl⟩
  · next hk => cases h; exact ⟨_, .nil hk, rfl⟩
  · next hk => cases h; exact ⟨_, .number hk, rfl⟩
  · next hk => cases h; exact ⟨_, .string hk, rfl⟩
  · cases h

theorem Operator.ne_reference {left right e : Expr} {level : Level} {k : Kind}
    (h : Operator left right level k e) (name : Name) : e ≠ .reference 0 name 0 := by
  cases h <;> nofun

theorem Call.of_reference {ts : List Token} {e : Expr} {name : Name} (h : Call ts e)
    (he : e = .reference 0 name 0) : ∃ t, ts = [t] ∧ t.kind = .identifier ∧ t.lexeme = name := by
  cases h with
  | call => cases he
  | primary h =>
    cases h with
    | constant | grouping => cases he
    | identifier hk => cases he; exact ⟨_, rfl, hk, rfl⟩

/-- A bare name is derived from a single identifier. -/
theorem Operand.of_reference {name : Name} : {level : Level} → {ts : List Token} → {e : Expr} →
    Operand level ts e → e = .reference 0 name 0 →
      ∃ t, ts = [t] ∧ t.kind = .identifier ∧ t.lexeme = name
  | _, _, _, .tighter _ h, he => Operand.of_reference h he
  | _, _, _, .join _ hop _ _, he => absurd he (hop.ne_reference name)
  | _, _, _, .sign _ _, he => nomatch he
  | _, _, _, .call h, he => h.of_reference he

end Grammar

namespace Parser

open Grammar

/-- What `p` reads from `c` on without a fault has the property, together with what it builds and
what is still ahead; and no fault is lost. -/
def ReadsFrom (c : Cursor) (p : Parser α) (G : List Token → α → List Token → Prop) : Prop :=
  match p c with
  | .outOfFuel => True
  | .fault _ c' => c.faults.size ≤ c'.faults.size
  | .done a c' => c.faults.size ≤ c'.faults.size ∧
    (c'.faults.size = c.faults.size → ∃ ts, c.rest = ts ++ c'.rest ∧ G ts a c'.rest)

def Reads (p : Parser α) (G : List Token → α → List Token → Prop) : Prop := ∀ c, ReadsFrom c p G

section Rules
variable {α β : Type} {G : List Token → α → List Token → Prop}
  {H : List Token → β → List Token → Prop}

theorem ReadsFrom.of_done {p : Parser α} {a : α} {c c' : Cursor} (hp : p c = .done a c')
    (hle : c.faults.size ≤ c'.faults.size)
    (hG : c'.faults.size = c.faults.size → ∃ ts, c.rest = ts ++ c'.rest ∧ G ts a c'.rest) :
    ReadsFrom c p G := by
  rw [ReadsFrom, hp]
  exact ⟨hle, hG⟩

/-- What comes after a part that is done. -/
theorem ReadsFrom.bind_done {p : Parser α} {f : α → Parser β} {c c' : Cursor} {a : α}
    (us : List Token) (hp : p c = .done a c') (hle : c.faults.size ≤ c'.faults.size)
    (hrest : c'.faults.size = c.faults.size → c.rest = us ++ c'.rest)
    (hf : ReadsFrom c' (f a) fun vs b rest =>
      c'.faults.size = c.faults.size → c'.rest = vs ++ rest → H (us ++ vs) b rest) :
    ReadsFrom c (p >>= f) H := by
  simp only [ReadsFrom, Bind.bind, Parser.bind, hp] at hf ⊢
  cases h : f a c' with
  | outOfFuel => trivial
  | fault d c'' => rw [h] at hf; exact Nat.le_trans hle hf
  | done b c'' =>
    rw [h] at hf
    obtain ⟨hle', hvs⟩ := hf
    refine ⟨Nat.le_trans hle hle', fun hclean => ?_⟩
    have hc' : c'.faults.size = c.faults.size := by omega
    obtain ⟨vs, hrest', hH⟩ := hvs (by omega)
    exact ⟨us ++ vs, by rw [hrest hc', hrest', List.append_assoc], hH hc' hrest'⟩

theorem ReadsFrom.mono {p : Parser α} {K : List Token → α → List Token → Prop} {c : Cursor}
    (h : ReadsFrom c p G) (hGK : ∀ ts a rest, G ts a rest → K ts a rest) : ReadsFrom c p K := by
  unfold ReadsFrom at *
  cases hp : p c with
  | outOfFuel => trivial
  | fault d c' => simpa [hp] using h
  | done a c' =>
    rw [hp] at h
    refine ⟨h.1, fun hclean => ?_⟩
    obtain ⟨ts, hts, hG⟩ := h.2 hclean
    exact ⟨ts, hts, hGK ts a c'.rest hG⟩

theorem Reads.mono {p : Parser α} {K : List Token → α → List Token → Prop} (h : Reads p G)
    (hGK : ∀ ts a rest, G ts a rest → K ts a rest) : Reads p K :=
  fun c => (h c).mono hGK

theorem Reads.outOfFuel : Reads (outOfFuel : Parser α) G := fun _ => trivial

theorem Reads.fail (cause : Cause) : Reads (fail cause : Parser α) G := fun _ => Nat.le_refl _

theorem Reads.pure {a : α} (h : ∀ rest, G [] a rest) : Reads (Pure.pure a) G :=
  fun c => .of_done rfl (Nat.le_refl _) fun _ => ⟨[], rfl, h c.rest⟩

theorem Reads.bind {p : Parser α} {f : α → Parser β} (hp : Reads p G)
    (hf : ∀ us a, Reads (f a) fun vs b rest => G us a (vs ++ rest) → H (us ++ vs) b rest) :
    Reads (p >>= f) H := by
  intro c
  have hp := hp c
  cases h : p c with
  | outOfFuel => simp [ReadsFrom, Bind.bind, Parser.bind, h]
  | fault d c' => simpa [ReadsFrom, Bind.bind, Parser.bind, h] using hp
  | done a c' =>
    rw [ReadsFrom, h] at hp
    obtain ⟨hle, hus⟩ := hp
    by_cases hclean : c'.faults.size = c.faults.size
    · obtain ⟨us, hrest, hG⟩ := hus hclean
      refine .bind_done us h hle (fun _ => hrest) ((hf us a c').mono fun vs b rest hH _ hvs => ?_)
      exact hH (hvs ▸ hG)
    · refine .bind_done [] h hle (fun hc => absurd hc hclean) ((hf [] a c').mono ?_)
      exact fun vs b rest _ hc => absurd hc hclean

theorem Reads.map {p : Parser α} {f : α → β} (hp : Reads p G)
    (hf : ∀ ts a rest, G ts a rest → H ts (f a) rest) : Reads (f <$> p) H :=
  hp.bind fun us a => .pure fun rest hG => by
    rw [List.append_nil]
    exact hf us a rest (by simpa using hG)

/-- Reading on after a fault is not reading without one. -/
theorem Reads.recovering {p : Parser α} (h : Reads p G) :
    Reads (recovering p) fun ts a? rest => ∃ a, a? = some a ∧ G ts a rest := by
  intro c
  have h := h c
  unfold ReadsFrom Parser.recovering at *
  cases hp : p c with
  | outOfFuel => trivial
  | fault d c' =>
    rw [hp] at h
    have hsize : (c'.record d).skipStatement.faults.size = c'.faults.size + 1 := Array.size_push ..
    exact ⟨by omega, fun hclean => by omega⟩
  | done a c' =>
    rw [hp] at h
    refine ⟨h.1, fun hclean => ?_⟩
    obtain ⟨ts, hts, hG⟩ := h.2 hclean
    exact ⟨ts, hts, a, rfl, hG⟩

theorem reads_take? {f : Token → Option α} {g : Option α → Parser β}
    (hsome : ∀ t a, f t = some a → Reads (g (some a)) fun vs b rest => H (t :: vs) b rest)
    (hnone : Reads (g none) fun vs b rest => (∀ t ∈ (vs ++ rest).head?, f t = none) → H vs b rest) :
    Reads (take? f >>= g) H := by
  intro c
  cases hrest : c.rest with
  | nil =>
    have hstay : take? f c = .done none c := by simp [take?, hrest]
    refine .bind_done [] hstay (Nat.le_refl _) (fun _ => rfl) ((hnone c).mono ?_)
    intro vs b rest hH _ hvs
    exact hH (by simp [← hvs, hrest])
  | cons t rest =>
    cases hf : f t with
    | none =>
      have hstay : take? f c = .done none c := by simp [take?, hrest, hf]
      refine .bind_done [] hstay (Nat.le_refl _) (fun _ => rfl) ((hnone c).mono ?_)
      intro vs b rest' hH _ hvs
      exact hH (by simp [← hvs, hrest, hf])
    | some a =>
      have hstep : take? f c = .done (some a) { c with rest, line := t.line } := by
        simp [take?, hrest, hf]
      refine .bind_done [t] hstep (Nat.le_refl _) (fun _ => hrest) ((hsome t a hf _).mono ?_)
      exact fun vs b rest' hH _ _ => hH

theorem reads_accept? {kind : Kind} {g : Option Token → Parser β}
    (hsome : ∀ t, t.kind = kind → Reads (g (some t)) fun vs b rest => H (t :: vs) b rest)
    (hnone : Reads (g none) fun vs b rest =>
      (∀ t ∈ (vs ++ rest).head?, t.kind ≠ kind) → H vs b rest) :
    Reads (accept? kind >>= g) H := by
  refine reads_take? (fun t a ha => ?_) (hnone.mono fun vs b rest hH hhead => hH fun t ht => ?_)
  · split at ha
    · next hk => cases ha; exact hsome t hk
    · cases ha
  · simpa using hhead t ht

theorem reads_expect {kind : Kind} {what : Expectation} {g : Token → Parser β}
    (h : ∀ t, t.kind = kind → Reads (g t) fun vs b rest => H (t :: vs) b rest) :
    Reads (expect kind what >>= g) H := by
  unfold expect
  rw [bind_assoc]
  refine reads_accept? (fun t hk => ?_) ?_
  · simpa only [pure_bind] using h t hk
  · exact fun c => Nat.le_refl _

theorem reads_nextIs {kind : Kind} {g : Bool → Parser β} (h : ∀ b, Reads (g b) H) :
    Reads (nextIs kind >>= g) H :=
  fun c => .bind_done [] rfl (Nat.le_refl _) (fun _ => rfl) ((h _ c).mono fun _ _ _ hH _ _ => hH)

theorem reads_limitCount {count : Nat} {cause : Cause} {g : Unit → Parser β}
    (h : Reads (g ()) fun vs b rest => count ≠ 255 → H vs b rest) :
    Reads (limitCount count cause >>= g) H := by
  intro c
  by_cases hcount : count = maxArguments
  · have hstep : limitCount count cause c = .done () (c.record (c.faultHere cause)) := by
      simp [limitCount, hcount]
    have hsize : (c.record (c.faultHere cause)).faults.size = c.faults.size + 1 := Array.size_push ..
    refine .bind_done [] hstep (by omega) (fun _ => rfl) ((h _).mono ?_)
    intro vs b rest _ hclean
    omega
  · have hstep : limitCount count cause c = .done () c := by simp [limitCount, hcount]
    exact .bind_done [] hstep (Nat.le_refl _) (fun _ => rfl)
      ((h _).mono fun vs b rest hH _ _ => hH hcount)

theorem reads_report {d : Diagnostic} {g : Unit → Parser β} (h : Reads (g ()) fun _ _ _ => True) :
    Reads (report d >>= g) H := by
  intro c
  have hsize : (c.record d).faults.size = c.faults.size + 1 := Array.size_push ..
  refine .bind_done [] rfl (by omega) (fun _ => rfl) ((h _).mono ?_)
  intro vs b rest _ hclean
  omega

theorem reads_freshId {g : NodeId → Parser β} (h : ∀ id, Reads (g id) H) :
    Reads (freshId >>= g) H :=
  fun _ => .bind_done [] rfl (Nat.le_refl _) (fun _ => rfl)
    ((h _ _).mono fun _ _ _ hH _ _ => hH)

theorem reads_atEnd {g : Bool → Parser β}
    (htrue : Reads (g true) fun vs b rest => vs ++ rest = [] → H vs b rest)
    (hfalse : Reads (g false) H) : Reads (atEnd >>= g) H := by
  intro c
  cases hrest : c.rest with
  | nil =>
    have h : atEnd c = .done true c := by simp [atEnd, hrest]
    refine .bind_done [] h (Nat.le_refl _) (fun _ => rfl) ((htrue c).mono fun vs b rest hH _ hvs => ?_)
    exact hH (by rw [← hvs, hrest])
  | cons t rest =>
    have h : atEnd c = .done false c := by simp [atEnd, hrest]
    exact .bind_done [] h (Nat.le_refl _) (fun _ => rfl) ((hfalse c).mono fun _ _ _ hH _ _ => hH)

theorem reads_blockEnds {g : Bool → Parser β} (h : ∀ b, Reads (g b) H) : Reads (blockEnds >>= g) H := by
  unfold blockEnds
  rw [bind_assoc]
  refine reads_atEnd ?_ ?_
  · simpa using (h true).mono fun vs b rest hH _ _ => hH
  · simpa using reads_nextIs h

end Rules

structure ReadsExpressions (n : Nat) : Prop where
  expression : Reads (expression n) fun ts e _ => Expression ts e.bare
  operands (level : Level) : Reads (operands n level) fun ts e _ => Operand level ts e.bare
  operators (level : Level) (left : Expr) : Reads (operators n level left) fun ts e _ =>
    ∀ us, Operand level us left.bare → Operand level (us ++ ts) e.bare
  calls (callee : Expr) : Reads (calls n callee) fun ts e _ =>
    ∀ us, Call us callee.bare → Call (us ++ ts) e.bare
  argumentList : Reads (argumentList n) fun ts es _ =>
    Arguments ts (Expr.allBare es) ∧ es.length ≤ 255
  arguments (count : Nat) : Reads (arguments n count) fun ts es _ =>
    Items ts (Expr.allBare es) ∧ (count ≤ 255 → count + es.length ≤ 255)
  primary : Reads (primary n) fun ts e _ => Primary ts e.bare

theorem reads_assignment {equals : Token} (hequals : equals.kind = .equal) (target value : Expr) :
    Reads (assignment equals target value) fun vs e _ => ∀ us ts, Operand .or us target.bare →
      Expression ts value.bare → Expression (us ++ equals :: (ts ++ vs)) e.bare := by
  unfold assignment
  split
  · refine .pure fun rest us ts htarget hvalue => ?_
    obtain ⟨t, rfl, hk, rfl⟩ := htarget.of_reference rfl
    simpa [Expr.bare] using Expression.assign hk hequals hvalue
  · exact reads_report (.pure fun _ => trivial)

theorem length_allBare (es : List Expr) : (Expr.allBare es).length = es.length := by
  induction es with
  | nil => rfl
  | cons e es ih => simpa [Expr.allBare] using ih

theorem readsExpressions (n : Nat) : ReadsExpressions n := by
  induction n with
  | zero =>
    constructor <;> intros <;> intro c
    all_goals (first | unfold expression | unfold operands | unfold operators | unfold calls
                     | unfold argumentList | unfold arguments | unfold primary)
    all_goals trivial
  | succ n ih =>
    constructor
    case expression =>
      rw [expression]
      refine (ih.operands .or).bind fun us target => reads_accept? (fun equals hk => ?_) ?_
      · refine ih.expression.bind fun ts value => (reads_assignment hk target value).mono ?_
        exact fun vs e rest h hvalue htarget => h us ts htarget hvalue
      · exact .pure fun rest _ htarget => by simpa using Expression.operand htarget
    case operands =>
      intro level
      by_cases hl : level = .unary
      · subst hl
        rw [operands]
        refine reads_take? (fun t node hnode => ?_) ?_
        · refine (ih.operands .unary).bind fun us e => .pure fun rest he => ?_
          obtain ⟨op, hop, hbare⟩ := sign_of_unaryNode? hnode
          rw [hbare, List.append_nil]
          exact .sign hop he
        · refine ih.primary.bind fun us e => (ih.calls e).mono fun ts e' rest h he _ => ?_
          exact .call (h us (.primary he))
      · rw [operands.eq_3 _ _ hl]
        refine (ih.operands _).bind fun us e => (ih.operators level e).mono ?_
        exact fun ts e' rest h he => h us (.tighter (tightens_tighter hl) he)
    case operators =>
      intro level left
      rw [operators]
      refine reads_take? (fun t join hjoin => ?_) ?_
      · refine (ih.operands _).bind fun vs right => (ih.operators level (join left right)).mono ?_
        intro ts e rest h hright us hleft
        have hop := operator_of_join? hjoin left right
        have := h _ (.join hop.tightens hop hleft hright)
        simpa using this
      · exact .pure fun rest _ us hleft => by simpa using hleft
    case calls =>
      intro callee
      rw [calls]
      refine reads_accept? (fun opening hopening => ?_) ?_
      · refine ih.argumentList.bind fun vs args => reads_expect fun closing hclosing => ?_
        refine (ih.calls (.call closing.line callee args)).mono ?_
        intro ts e rest h hargs us hcallee
        have := h _ (.call hopening hclosing (by rw [length_allBare]; exact hargs.2) hcallee hargs.1)
        simpa using this
      · exact .pure fun rest _ us hcallee => by simpa using hcallee
    case argumentList =>
      rw [argumentList]
      refine reads_nextIs fun closes => ?_
      split
      · exact .pure fun rest => ⟨.none, by decide⟩
      · exact (ih.arguments 0).mono fun ts es rest h => ⟨.some h.1, by simpa using h.2 (by decide)⟩
    case arguments =>
      intro count
      rw [arguments]
      refine reads_limitCount (ih.expression.bind fun us e => ?_)
      refine reads_accept? (fun comma hcomma => ?_) ?_
      · refine (ih.arguments (count + 1)).map fun ts es rest h he hcount => ?_
        refine ⟨.comma hcomma he h.1, fun hle => ?_⟩
        have := h.2 (by omega)
        rw [List.length_cons]
        omega
      · refine .pure fun rest _ he hcount => ⟨?_, fun hle => ?_⟩
        · simpa [Expr.allBare] using Items.last he
        · simp only [List.length_cons, List.length_nil]
          omega
    case primary =>
      rw [primary]
      refine reads_take? (fun t e he => .pure fun rest => ?_) (reads_accept? (fun t hk => ?_) ?_)
      · obtain ⟨value, hvalue, hbare⟩ := constant_of_ofConstant? he
        rw [hbare]
        exact .constant hvalue
      · exact reads_freshId fun id => .pure fun rest _ => .identifier hk
      · refine reads_accept? (fun opening hopening => ?_) (.fail _)
        refine ih.expression.bind fun ts e => reads_expect fun closing hclosing => ?_
        exact .pure fun rest he _ _ => .grouping hopening hclosing he

theorem reads_initializer? (n : Nat) :
    Reads (initializer? n) fun ts e? _ => Initializer ts (e?.map Expr.bare) :=
  reads_accept? (fun _ hk => (readsExpressions n).expression.map fun _ _ _ he => .some hk he)
    (.pure fun _ _ => .none)

theorem reads_varDeclaration (n : Nat) :
    Reads (varDeclaration n) fun ts s _ => Variable ts s.bare :=
  reads_expect fun _ hname => (reads_initializer? n).bind fun _ _ =>
    reads_expect fun _ hsemicolon => .pure fun _ hi => .mk hname hsemicolon hi

theorem reads_expressionStatement (n : Nat) :
    Reads (expressionStatement n) fun ts s _ => ExpressionStatement ts s.bare :=
  (readsExpressions n).expression.bind fun _ _ =>
    reads_expect fun _ hsemicolon => .pure fun _ he => .mk hsemicolon he

theorem reads_printStatement (n line : Nat) : Reads (printStatement n line) fun ts s _ =>
    ∀ keyword, keyword.kind = .kwPrint → Statement True false (keyword :: ts) s.bare :=
  (readsExpressions n).expression.bind fun _ _ =>
    reads_expect fun _ hsemicolon => .pure fun _ he _ hk => .print hk hsemicolon he

theorem reads_expressionBefore? (n : Nat) (closing : Kind) :
    Reads (expressionBefore? n closing) fun ts e? _ => Optional ts (e?.map Expr.bare) := by
  refine reads_nextIs fun closes => ?_
  split
  · exact .pure fun _ => .none
  · exact (readsExpressions n).expression.map fun _ _ _ he => .some he

theorem reads_returnStatement (n line : Nat) : Reads (returnStatement n line) fun ts s _ =>
    ∀ keyword, keyword.kind = .kwReturn → Statement True false (keyword :: ts) s.bare :=
  (reads_expressionBefore? n _).bind fun _ _ =>
    reads_expect fun _ hsemicolon => .pure fun _ he _ hk => .result hk hsemicolon he

def Enclosed (ts : List Token) (e : Expr) : Prop :=
  ∃ opening cs closing, ts = opening :: (cs ++ [closing]) ∧ opening.kind = .leftParen ∧
    closing.kind = .rightParen ∧ Expression cs e

theorem reads_ifHead (n : Nat) : Reads (ifHead n) fun ts e _ => Enclosed ts e.bare :=
  reads_expect fun _ hopening => (readsExpressions n).expression.bind fun _ _ =>
    reads_expect fun _ hclosing => .pure fun _ he => ⟨_, _, _, rfl, hopening, hclosing, he⟩

theorem reads_whileHead (n : Nat) : Reads (whileHead n) fun ts e _ => Enclosed ts e.bare :=
  reads_expect fun _ hopening => (readsExpressions n).expression.bind fun _ _ =>
    reads_expect fun _ hclosing => .pure fun _ he => ⟨_, _, _, rfl, hopening, hclosing, he⟩

theorem reads_forInitializer? (n : Nat) :
    Reads (forInitializer? n) fun ts s? _ => ForInitializer ts (s?.map Stmt.bare) :=
  reads_accept? (fun _ hk => .pure fun _ => .none hk)
    (reads_accept? (fun _ hk => (reads_varDeclaration n).map fun _ _ _ hs _ => .var hk hs)
      ((reads_expressionStatement n).map fun _ _ _ hs _ _ => .expression hs))

def Clauses (ts : List Token) (head : ForHead) : Prop :=
  ∃ opening is cs semicolon ns closing,
    ts = opening :: (is ++ (cs ++ semicolon :: (ns ++ [closing]))) ∧ opening.kind = .leftParen ∧
    semicolon.kind = .semicolon ∧ closing.kind = .rightParen ∧
    ForInitializer is (head.initializer.map Stmt.bare) ∧
    Optional cs (head.condition.map Expr.bare) ∧ Optional ns (head.increment.map Expr.bare)

theorem reads_forHead (n : Nat) : Reads (forHead n) fun ts head _ => Clauses ts head :=
  reads_expect fun _ hopening => (reads_forInitializer? n).bind fun _ _ =>
    (reads_expressionBefore? n _).bind fun _ _ => reads_expect fun _ hsemicolon =>
      (reads_expressionBefore? n _).bind fun _ _ => reads_expect fun _ hclosing =>
        .pure fun _ hn hc hi =>
          ⟨_, _, _, _, _, _, rfl, hopening, hsemicolon, hclosing, hi, hc, hn⟩

theorem reads_parameters (n count : Nat) : Reads (parameters n count) fun ts names _ =>
    Names ts names ∧ (count ≤ 255 → count + names.length ≤ 255) := by
  induction n generalizing count with
  | zero => exact .outOfFuel
  | succ n ih =>
    rw [parameters]
    refine reads_limitCount (reads_expect fun name hname => reads_accept? (fun comma hcomma => ?_) ?_)
    · refine (ih (count + 1)).map fun ts names rest h hcount => ⟨.comma hname hcomma h.1, fun hle => ?_⟩
      have := h.2 (by omega)
      rw [List.length_cons]
      omega
    · refine .pure fun rest _ hcount => ⟨.last hname, fun hle => ?_⟩
      simp only [List.length_cons, List.length_nil]
      omega

theorem reads_parameterList (n : Nat) : Reads (parameterList n) fun ts names _ =>
    Parameters ts names ∧ names.length ≤ 255 := by
  refine reads_nextIs fun closes => ?_
  split
  · exact .pure fun rest => ⟨.none, by decide⟩
  · exact (reads_parameters n 0).mono fun ts names rest h => ⟨.some h.1, by simpa using h.2 (by decide)⟩

def Signature (ts : List Token) (head : FunctionHead) : Prop :=
  ∃ opening ps closing brace, ts = head.name :: opening :: (ps ++ [closing, brace]) ∧
    head.name.kind = .identifier ∧ opening.kind = .leftParen ∧ closing.kind = .rightParen ∧
    brace.kind = .leftBrace ∧ Parameters ps head.params ∧ head.params.length ≤ 255

theorem reads_functionHead (n : Nat) : Reads (functionHead n) fun ts head _ => Signature ts head :=
  reads_expect fun _ hname => reads_expect fun _ hopening => (reads_parameterList n).bind fun _ _ =>
    reads_expect fun _ hclosing => reads_expect fun _ hbrace => .pure fun _ hps =>
      ⟨_, _, _, _, rfl, hname, hopening, hclosing, hbrace, hps⟩

def Closed (ts : List Token) (s : Stmt) (rest : List Token) : Prop :=
  ∃ isOpen, Statement True isOpen ts s.bare ∧ (isOpen = true → ∀ t ∈ rest.head?, t.kind ≠ .kwElse)

theorem closed_statement {ts rest : List Token} {s : Stmt} (h : Statement True false ts s.bare) :
    Closed ts s rest :=
  ⟨false, h, (absurd · Bool.false_ne_true)⟩

inductive ElseBranch : List Token → Option Stmt → List Token → Prop where
  | none {rest : List Token} : (∀ t ∈ rest.head?, t.kind ≠ .kwElse) → ElseBranch [] none rest
  | some {keyword : Token} {ts rest : List Token} {s : Stmt} :
    keyword.kind = .kwElse → Closed ts s rest → ElseBranch (keyword :: ts) (some s) rest

def Body (ts : List Token) (ss : List Stmt) : Prop :=
  ∃ us closing, ts = us ++ [closing] ∧ closing.kind = .rightBrace ∧
    Declarations True us (Stmt.allBare ss)

structure ReadsStatements (n : Nat) : Prop where
  declaration : Reads (declaration n) fun ts s? _ => ∃ s, s? = some s ∧ Declaration True ts s.bare
  statement : Reads (statement n) Closed
  elseBranch? : Reads (elseBranch? n) ElseBranch
  block : Reads (block n) fun ts ss _ => Body ts ss

/-- A branch takes the `else` that follows its statement. -/
theorem closed_branch {line : Nat} {keyword : Token} {cs ts us rest : List Token} {condition : Expr}
    {thenBranch : Stmt} {elseBranch : Option Stmt} (hk : keyword.kind = .kwIf)
    (hcondition : Enclosed cs condition.bare) (hthen : Closed ts thenBranch (us ++ rest))
    (helse : ElseBranch us elseBranch rest) :
    Closed (keyword :: (cs ++ (ts ++ us))) (.branch line condition thenBranch elseBranch) rest := by
  obtain ⟨opening, cs, closing, rfl, hopening, hclosing, hc⟩ := hcondition
  obtain ⟨isOpen, hs, hfollow⟩ := hthen
  cases helse with
  | none hrest =>
    refine ⟨true, ?_, fun _ => hrest⟩
    have := Statement.branch hk hopening hclosing hc hs
    simpa [Stmt.bare] using this
  | some hkelse helse =>
    obtain ⟨isOpenElse, hs', hfollow'⟩ := helse
    refine ⟨isOpenElse, ?_, hfollow'⟩
    have hclosed : isOpen = false := by
      cases isOpen with
      | false => rfl
      | true => exact absurd hkelse (hfollow rfl _ rfl)
    have := Statement.branchElse hk hopening hclosing hkelse (fun _ => hclosed) hc hs hs'
    simpa [Stmt.bare] using this

theorem closed_loop {line : Nat} {keyword : Token} {cs ts rest : List Token} {condition : Expr}
    {body : Stmt} (hk : keyword.kind = .kwWhile) (hcondition : Enclosed cs condition.bare)
    (hbody : Closed ts body rest) :
    Closed (keyword :: (cs ++ ts)) (.loop line condition body) rest := by
  obtain ⟨opening, cs, closing, rfl, hopening, hclosing, hc⟩ := hcondition
  obtain ⟨isOpen, hs, hfollow⟩ := hbody
  refine ⟨isOpen, ?_, hfollow⟩
  have := Statement.loop hk hopening hclosing hc hs
  simpa [Stmt.bare] using this

theorem closed_forLoop {line : Nat} {keyword : Token} {cs ts rest : List Token} {head : ForHead}
    {body : Stmt} (hk : keyword.kind = .kwFor) (hhead : Clauses cs head) (hbody : Closed ts body rest) :
    Closed (keyword :: (cs ++ ts))
      (.forLoop line head.initializer head.condition head.increment body) rest := by
  obtain ⟨opening, is, cs, semicolon, ns, closing, rfl, hopening, hsemicolon, hclosing, hi, hc, hn⟩ :=
    hhead
  obtain ⟨isOpen, hs, hfollow⟩ := hbody
  refine ⟨isOpen, ?_, hfollow⟩
  rw [bare_forLoop]
  have := Statement.forLoop hk hopening hsemicolon hclosing hi hc hn hs
  simpa using this

theorem declaration_function {line : Nat} {keyword : Token} {ts us : List Token} {head : FunctionHead}
    {body : List Stmt} (hk : keyword.kind = .kwFun) (hhead : Signature ts head) (hbody : Body us body) :
    Declaration True (keyword :: (ts ++ us))
      (Stmt.function line head.name.lexeme head.params body).bare := by
  obtain ⟨opening, ps, closing, brace, rfl, hname, hopening, hclosing, hbrace, hps, hlen⟩ := hhead
  obtain ⟨us, closingBrace, rfl, hclosingBrace, hss⟩ := hbody
  have := Declaration.function hk hname hopening hclosing hbrace hclosingBrace hps hlen hss
  simpa [Stmt.bare] using this

theorem opening_kind {t : Token} {opening : Opening} {line : Nat}
    (h : opening? t = some (opening, line)) : Opening.ofKind? t.kind = some opening := by
  obtain ⟨o, ho, hpair⟩ := Option.map_eq_some_iff.mp h
  cases hpair
  exact ho

theorem kind_of_opening {k : Kind} {opening : Opening} (h : Opening.ofKind? k = some opening) :
    k = match opening with
      | .print => .kwPrint
      | .branch => .kwIf
      | .loop => .kwWhile
      | .forLoop => .kwFor
      | .result => .kwReturn
      | .block => .leftBrace := by
  cases k <;> cases h <;> rfl

theorem declarations_cons {ts us : List Token} {s : Stmt} {ss : List Stmt}
    (hs : Declaration True ts s.bare) (hss : Declarations True us (Stmt.allBare ss)) :
    Declarations True (ts ++ us) (Stmt.allBare ((some s).toList ++ ss)) :=
  .cons hs hss

theorem readsStatements (n : Nat) : ReadsStatements n := by
  induction n with
  | zero =>
    constructor
    · rw [declaration]; exact .outOfFuel
    · rw [statement]; exact .outOfFuel
    · rw [elseBranch?]; exact .outOfFuel
    · rw [block]; exact .outOfFuel
  | succ n ih =>
    constructor
    case declaration =>
      rw [declaration]
      refine Reads.recovering (G := fun ts s _ => Declaration True ts (Stmt.bare s)) ?_
      refine reads_accept? (fun keyword hk => ?_) (reads_accept? (fun keyword hk => ?_) ?_)
      · refine (reads_functionHead n).bind fun ts head => ih.block.bind fun us body => ?_
        refine .pure fun rest hbody hhead => ?_
        simpa using declaration_function hk hhead hbody
      · exact (reads_varDeclaration n).mono fun ts s rest hs _ => .var hk hs
      · refine ih.statement.mono fun ts s rest hstatement _ _ => ?_
        obtain ⟨isOpen, hs, -⟩ := hstatement
        exact .statement hs
    case statement =>
      rw [statement]
      refine reads_take? (fun t opening hopening => ?_) ?_
      · obtain ⟨opening, line⟩ := opening
        have hk := kind_of_opening (opening_kind hopening)
        cases opening with
        | print =>
          exact (reads_printStatement n line).mono fun ts s rest h => closed_statement (h t hk)
        | branch =>
          refine (reads_ifHead n).bind fun cs condition => ih.statement.bind fun ts thenBranch => ?_
          refine ih.elseBranch?.bind fun us elseBranch => .pure fun rest helse hthen hc => ?_
          simpa using closed_branch hk hc (by simpa using hthen) (by simpa using helse)
        | loop =>
          refine (reads_whileHead n).bind fun cs condition => ih.statement.bind fun ts body => ?_
          exact .pure fun rest hbody hc => by simpa using closed_loop hk hc hbody
        | forLoop =>
          refine (reads_forHead n).bind fun cs head => ih.statement.bind fun ts body => ?_
          exact .pure fun rest hbody hc => by simpa using closed_forLoop hk hc hbody
        | result =>
          exact (reads_returnStatement n line).mono fun ts s rest h => closed_statement (h t hk)
        | block =>
          refine ih.block.bind fun ts body => .pure fun rest hbody => closed_statement ?_
          obtain ⟨us, closing, rfl, hclosing, hss⟩ := hbody
          simpa [Stmt.bare] using Statement.block hk hclosing hss
      · refine (reads_expressionStatement n).mono fun ts s rest hs _ => ?_
        exact closed_statement (.expression hs)
    case elseBranch? =>
      rw [elseBranch?]
      refine reads_accept? (fun keyword hk => ?_) ?_
      · exact ih.statement.map fun ts s rest hs => .some hk hs
      · exact .pure fun rest h => .none (by simpa using h)
    case block =>
      rw [block]
      refine reads_blockEnds fun ends => ?_
      split
      · exact reads_expect fun closing hclosing => .pure fun rest =>
          ⟨[], closing, rfl, hclosing, .nil⟩
      · refine ih.declaration.bind fun ts s? => ih.block.map fun us ss rest hss hs => ?_
        obtain ⟨s, rfl, hs⟩ := hs
        obtain ⟨us, closing, rfl, hclosing, hss⟩ := hss
        exact ⟨ts ++ us, closing, by simp, hclosing, declarations_cons hs hss⟩

theorem reads_program (n : Nat) : Reads (program n) fun ts ss rest =>
    rest = [] ∧ Declarations True ts (Stmt.allBare ss) := by
  induction n with
  | zero => exact .outOfFuel
  | succ n ih =>
    rw [program]
    refine reads_atEnd (.pure fun rest hrest => ⟨hrest, .nil⟩) ?_
    refine (readsStatements n).declaration.bind fun ts s? => ih.map fun us ss rest hss hs => ?_
    obtain ⟨s, rfl, hs⟩ := hs
    exact ⟨hss.1, declarations_cons hs hss.2⟩

end Parser
end LoxLang
