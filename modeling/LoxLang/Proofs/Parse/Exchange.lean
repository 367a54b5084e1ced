import LoxLang.Proofs.Parse.Accept
import LoxLang.Proofs.Parse.Composed
import LoxLang.Proofs.Token.Lines

/-!
Statements exchanged inside a program. Wherever the keyword `for` stands a loop begins, and any statement
with the same tree may stand in its place, if it is no more open to an `else` behind it.
-/
namespace LoxLang

namespace Grammar

open LoxLang.Parser

theorem Primary.expression {ts : List Token} {e : Expr} (h : Primary ts e) : Expression ts e :=
  .operand (.tighter .or (.tighter .and (.tighter .equality (.tighter .comparison (.tighter .term
    (.tighter .factor (.call (.primary h))))))))

/-- An expression holds no token that ends expressions. -/
theorem Expression.endsExpression {ts : List Token} {e : Expr} (h : Expression ts e) :
    ∀ t ∈ ts, t.kind.endsExpression = false := by
  let semicolon : Token := ⟨.semicolon, ";", 1, none⟩
  let c : Cursor := ⟨ts ++ [semicolon], 1, none, 0, #[]⟩
  let n := 16 * c.rest.length + 9
  have hends := (endsExpressions n).expression (Nat.le_refl _) c (Nat.le_refl _)
  have hbuilds := builds_expression h (by decide) n c rfl
  obtain hout | ⟨a, c', ha, -, hrest, -⟩ := hbuilds
  · rw [EndsFrom, hout] at hends
    exact hends.elim
  · obtain ⟨read, hread, hkinds⟩ := (composedExpressions n).expression.passesOver ha
    rw [hrest] at hread
    rw [List.append_cancel_right hread]
    exact hkinds

abbrev NoLoop (ts : List Token) : Prop := Lacks .kwFor ts

theorem Expression.noLoop {ts : List Token} {e : Expr} (h : Expression ts e) : NoLoop ts := by
  intro t ht hk
  have hends := h.endsExpression t ht
  rw [hk] at hends
  cases hends

theorem Optional.noLoop {ts : List Token} {e? : Option Expr} (h : Optional ts e?) : NoLoop ts := by
  cases h with
  | none => exact lacks_nil
  | some h => exact h.noLoop

theorem Variable.noLoop {ts : List Token} {s : Stmt} (h : Variable ts s) : NoLoop ts := by
  obtain ⟨hname, hsemicolon, hinitializer⟩ := h
  cases hinitializer with
  | none => simp [hname, hsemicolon]
  | some hequals h => simp [hname, hsemicolon, hequals, h.noLoop]

theorem ExpressionStatement.noLoop {ts : List Token} {s : Stmt} (h : ExpressionStatement ts s) :
    NoLoop ts := by
  obtain ⟨hsemicolon, h⟩ := h
  simp [hsemicolon, h.noLoop]

theorem ForInitializer.noLoop {ts : List Token} {s? : Option Stmt} (h : ForInitializer ts s?) :
    NoLoop ts := by
  cases h with
  | none hsemicolon => simp [hsemicolon]
  | var hk h => simp [hk, h.noLoop]
  | expression h => exact h.noLoop

theorem Names.noLoop {ts : List Token} {names : List Name} (h : Names ts names) : NoLoop ts := by
  induction h with
  | last hname => simp [hname]
  | comma hname hcomma _ ih => simp [hname, hcomma, ih]

theorem Parameters.noLoop {ts : List Token} {names : List Name} (h : Parameters ts names) :
    NoLoop ts := by
  cases h with
  | none => exact lacks_nil
  | some h => exact h.noLoop

section Split
variable {before behind front back ts : List Token} {keyword : Token}

/-- Tokens without a loop stand before the first one. -/
theorem NoLoop.split (hfront : NoLoop front) (hk : keyword.kind = .kwFor)
    (h : front ++ ts = before ++ keyword :: behind) :
    ∃ before', before = front ++ before' ∧ ts = before' ++ keyword :: behind := by
  induction front generalizing before with
  | nil => exact ⟨before, rfl, h⟩
  | cons t front ih =>
    obtain ⟨ht, hfront⟩ := lacks_cons.mp hfront
    cases before with
    | nil =>
      obtain ⟨rfl, -⟩ := List.cons.inj h
      exact absurd hk ht
    | cons u before =>
      obtain ⟨rfl, htail⟩ := List.cons.inj h
      obtain ⟨before', rfl, hts⟩ := ih hfront htail
      exact ⟨before', rfl, hts⟩

theorem NoLoop.not_begins (hts : NoLoop ts) (hk : keyword.kind = .kwFor)
    (h : ts = before ++ keyword :: behind) : False :=
  hts keyword (by simp [h]) hk

/-- A token of two lists one behind the other stands in the first or in the second. -/
theorem append_eq_append_cons (h : front ++ back = before ++ keyword :: behind) :
    (∃ behind', front = before ++ keyword :: behind' ∧ behind = behind' ++ back) ∨
      ∃ before', before = front ++ before' ∧ back = before' ++ keyword :: behind := by
  obtain ⟨us, rfl, hback⟩ | ⟨us, rfl, hus⟩ := List.append_eq_append_iff.mp h
  · exact .inr ⟨us, rfl, hback⟩
  · cases us with
    | nil => exact .inr ⟨[], by simp, hus.symm⟩
    | cons u us =>
      obtain ⟨rfl, hbehind⟩ := List.cons.inj hus
      exact .inl ⟨us, rfl, hbehind⟩

end Split

/-- At the keyword, behind `before`, a statement begins, and `after` stands behind it. Any statement with the
same tree may be written for it, if it is open only where this one is, and the whole is open only where it
was. -/
def Exchanges (before : List Token) (keyword : Token) (behind rest : List Token) (isOpen : Bool)
    (Whole : Bool → List Token → Prop) : Prop :=
  ∃ inner ts after s, behind = ts ++ after ∧ Statement True inner (keyword :: ts) s ∧
    (inner = true → ∀ t ∈ (after ++ rest).head?, t.kind ≠ .kwElse) ∧
    ∀ other us, Statement True other us s → (other = true → inner = true) →
      ∃ whole, (whole = true → isOpen = true) ∧ Whole whole (before ++ us ++ after)

namespace Exchanges
variable {before behind rest : List Token} {keyword : Token} {isOpen isOpen' : Bool}
  {Whole Whole' : Bool → List Token → Prop}

/-- With more tokens around it. -/
theorem surround (front back : List Token)
    (h : Exchanges before keyword behind (back ++ rest) isOpen Whole)
    (hwhole : ∀ o ts, (o = true → isOpen = true) → Whole o ts →
      ∃ o', (o' = true → isOpen' = true) ∧ Whole' o' (front ++ ts ++ back)) :
    Exchanges (front ++ before) keyword (behind ++ back) rest isOpen' Whole' := by
  obtain ⟨inner, ts, after, s, rfl, hs, hfollow, hexchange⟩ := h
  refine ⟨inner, ts, after ++ back, s, List.append_assoc _ _ _, hs, by rwa [List.append_assoc],
    fun other us hus hother => ?_⟩
  obtain ⟨o, ho, h⟩ := hexchange other us hus hother
  obtain ⟨o', ho', h'⟩ := hwhole o _ ho h
  exact ⟨o', ho', by simpa only [List.append_assoc] using h'⟩

/-- Behind tokens without a loop, the loop begins in the middle or behind it. -/
theorem within (front middle back : List Token) (hfront : NoLoop front) (hk : keyword.kind = .kwFor)
    (heq : front ++ (middle ++ back) = before ++ keyword :: behind)
    (hmiddle : ∀ before behind, middle = before ++ keyword :: behind →
      Exchanges before keyword behind (back ++ rest) isOpen Whole)
    (hwhole : ∀ o ts, (o = true → isOpen = true) → Whole o ts →
      ∃ o', (o' = true → isOpen' = true) ∧ Whole' o' (front ++ ts ++ back))
    (hback : ∀ before, back = before ++ keyword :: behind →
      Exchanges (front ++ middle ++ before) keyword behind rest isOpen' Whole') :
    Exchanges before keyword behind rest isOpen' Whole' := by
  obtain ⟨before, rfl, h⟩ := hfront.split hk heq
  obtain ⟨behind, hbegins, rfl⟩ | ⟨before, rfl, hbegins⟩ := append_eq_append_cons h
  · exact (hmiddle before behind hbegins).surround front back hwhole
  · rw [← List.append_assoc]
    exact hback before hbegins

/-- Between tokens without a loop, the loop begins in the middle. -/
theorem between (front middle back : List Token) (hfront : NoLoop front) (hback : NoLoop back)
    (hk : keyword.kind = .kwFor) (heq : front ++ (middle ++ back) = before ++ keyword :: behind)
    (hmiddle : ∀ before behind, middle = before ++ keyword :: behind →
      Exchanges before keyword behind (back ++ rest) isOpen Whole)
    (hwhole : ∀ o ts, (o = true → isOpen = true) → Whole o ts →
      ∃ o', (o' = true → isOpen' = true) ∧ Whole' o' (front ++ ts ++ back)) :
    Exchanges before keyword behind rest isOpen' Whole' :=
  within front middle back hfront hk heq hmiddle hwhole fun _ hbegins => (hback.not_begins hk hbegins).elim

end Exchanges

variable {keyword : Token}

mutual

/-- Wherever the keyword stands, a statement begins that can be exchanged. -/
theorem Statement.exchanges (hk : keyword.kind = .kwFor) : {isOpen : Bool} → {ts : List Token} →
    {s : Stmt} → Statement True isOpen ts s → {before behind : List Token} → (rest : List Token) →
    ts = before ++ keyword :: behind → (isOpen = true → ∀ t ∈ rest.head?, t.kind ≠ .kwElse) →
      Exchanges before keyword behind rest isOpen fun o us => Statement True o us s
  | _, _, _, .expression h, _, _, _, heq, _ => (h.noLoop.not_begins hk heq).elim
  | _, _, _, .print hprint hsemicolon he, _, _, _, heq, _ => by
    refine (NoLoop.not_begins ?_ hk heq).elim
    simp [hprint, hsemicolon, he.noLoop]
  | _, _, _, .result hresult hsemicolon hvalue, _, _, _, heq, _ => by
    refine (NoLoop.not_begins ?_ hk heq).elim
    simp [hresult, hsemicolon, hvalue.noLoop]
  | _, _, _, @Statement.branch _ keywordIf opening closing cs ts _ _ _ hif hopening hclosing hc hs, _, _,
    rest, heq, hrest => by
    have hfront : NoLoop (keywordIf :: opening :: (cs ++ [closing])) := by
      simp [hif, hopening, hclosing, hc.noLoop]
    refine .between _ ts [] hfront lacks_nil hk (by simpa using heq)
      (fun _ _ h => Statement.exchanges hk hs rest h fun _ => hrest rfl)
      fun o us _ hus => ⟨true, fun _ => rfl, ?_⟩
    simpa using Statement.branch hif hopening hclosing hc hus
  | _, _, _, @Statement.branchElse _ keywordIf opening closing keywordElse cs ts us _ isOpenThen _ _ _
    hif hopening hclosing helse hnearest hc hs hs', _, _, rest, heq, hrest => by
    have hfront : NoLoop (keywordIf :: opening :: (cs ++ [closing])) := by
      simp [hif, hopening, hclosing, hc.noLoop]
    -- The `else` behind the first branch is no hindrance, for that branch is not open.
    have hclosed : isOpenThen ≠ true := by simp [hnearest trivial]
    refine .within _ ts (keywordElse :: us) hfront hk (by simpa using heq)
      (fun _ _ h => Statement.exchanges hk hs _ h fun ho => absurd ho hclosed)
      (fun o ts ho hts => ⟨_, id, ?_⟩) fun before h => ?_
    · have ho : o = false := Bool.eq_false_iff.mpr fun ht => hclosed (ho ht)
      simpa using Statement.branchElse hif hopening hclosing helse (fun _ => ho) hc hts hs'
    · have hkeyword : NoLoop [keywordElse] := by simp [helse]
      obtain ⟨before, rfl, hbegins⟩ := hkeyword.split hk h
      have ih := Statement.exchanges hk hs' rest hbegins hrest
      let front := keywordIf :: opening :: (cs ++ closing :: (ts ++ [keywordElse]))
      simpa [front] using ih.surround front [] fun o us ho hus => ⟨o, ho, by
        simpa [front] using Statement.branchElse hif hopening hclosing helse hnearest hc hs hus⟩
  | _, _, _, @Statement.loop _ keywordWhile opening closing cs ts _ _ _ hwhile hopening hclosing hc hs, _,
    _, rest, heq, hrest => by
    have hfront : NoLoop (keywordWhile :: opening :: (cs ++ [closing])) := by
      simp [hwhile, hopening, hclosing, hc.noLoop]
    refine .between _ ts [] hfront lacks_nil hk (by simpa using heq)
      (fun _ _ h => Statement.exchanges hk hs rest h hrest) fun o us ho hus => ⟨o, ho, ?_⟩
    simpa using Statement.loop hwhile hopening hclosing hc hus
  | isOpen, _, _, @Statement.forLoop _ keywordFor opening semicolon closing is cs ns ts _ _ _ _ _ hfor
    hopening hsemicolon hclosing hi hc hn hs, [], behind, rest, heq, hrest => by
    -- The keyword is that of the loop itself.
    obtain ⟨rfl, rfl⟩ := List.cons.inj heq
    have h := Statement.forLoop hfor hopening hsemicolon hclosing hi hc hn hs
    exact ⟨isOpen, _, [], _, (List.append_nil _).symm, h, hrest, fun other us hus ho =>
      ⟨other, ho, by simpa using hus⟩⟩
  | _, _, _, @Statement.forLoop _ keywordFor opening semicolon closing is cs ns ts _ _ _ _ _ hfor
    hopening hsemicolon hclosing hi hc hn hs, token :: before, behind, rest, heq, hrest => by
    obtain ⟨rfl, htail⟩ := List.cons.inj heq
    have hfront : NoLoop (opening :: (is ++ (cs ++ semicolon :: (ns ++ [closing])))) := by
      simp [hopening, hsemicolon, hclosing, hi.noLoop, hc.noLoop, hn.noLoop]
    have h : Exchanges before keyword behind rest _ fun o us => Statement True o (keywordFor :: us) _ :=
      .between _ ts [] hfront lacks_nil hk (by simpa using htail)
        (fun _ _ h => Statement.exchanges hk hs rest h hrest) fun o us ho hus => ⟨o, ho, by
          simpa using Statement.forLoop hfor hopening hsemicolon hclosing hi hc hn hus⟩
    simpa using h.surround [keywordFor] [] fun o us ho hus => ⟨o, ho, by simpa using hus⟩
  | _, _, _, @Statement.block _ opening closing ts _ hopening hclosing hss, _, _, rest, heq, _ => by
    refine .between [opening] ts [closing] (by simp [hopening])
      (by simp [hclosing]) hk heq
      (fun _ _ h => Declarations.exchanges hk hss _ h (by simp [hclosing]))
      fun o us _ hus => ⟨false, nofun, ?_⟩
    exact Statement.block hopening hclosing hus

theorem Declaration.exchanges (hk : keyword.kind = .kwFor) : {ts : List Token} → {s : Stmt} →
    Declaration True ts s → {before behind : List Token} → (rest : List Token) →
    ts = before ++ keyword :: behind → (∀ t ∈ rest.head?, t.kind ≠ .kwElse) →
      Exchanges before keyword behind rest true fun _ us => Declaration True us s
  | _, _, @Declaration.function _ keywordFun name opening closing brace closingBrace ps ts _ _ hfun hname
    hopening hclosing hbrace hclosingBrace hps hlen hss, _, _, rest, heq, hrest => by
    have hfront : NoLoop (keywordFun :: name :: opening :: (ps ++ [closing, brace])) := by
      simp [hfun, hname, hopening, hclosing, hbrace, hps.noLoop]
    refine .between _ ts [closingBrace] hfront (by simp [hclosingBrace]) hk
      (by simpa using heq) (fun _ _ h => Declarations.exchanges hk hss _ h (by simp [hclosingBrace]))
      fun o us _ hus => ⟨true, fun _ => rfl, ?_⟩
    simpa using Declaration.function hfun hname hopening hclosing hbrace hclosingBrace hps hlen hus
  | _, _, .var hvar h, _, _, _, heq, _ => by
    refine (NoLoop.not_begins ?_ hk heq).elim
    simp [hvar, h.noLoop]
  | _, ts, .statement h, _, _, rest, heq, hrest => by
    refine .between [] _ [] lacks_nil lacks_nil hk (by simpa using heq)
      (fun _ _ hts => Statement.exchanges hk h rest hts fun _ => hrest)
      fun o us _ hus => ⟨true, fun _ => rfl, ?_⟩
    simpa using Declaration.statement hus

theorem Declarations.exchanges (hk : keyword.kind = .kwFor) : {ts : List Token} → {ss : List Stmt} →
    Declarations True ts ss → {before behind : List Token} → (rest : List Token) →
    ts = before ++ keyword :: behind → (∀ t ∈ rest.head?, t.kind ≠ .kwElse) →
      Exchanges before keyword behind rest true fun _ us => Declarations True us ss
  | _, _, .nil, before, _, _, heq, _ => by cases before <;> cases heq
  | _, _, .cons hs hss, before, behind, rest, heq, hrest => by
    refine .within [] _ _ lacks_nil hk heq (fun _ _ h => Declaration.exchanges hk hs _ h ?_)
      (fun o us _ hus => ⟨true, fun _ => rfl, .cons hus hss⟩) fun before h => ?_
    · exact hss.not_else hrest
    · have ih := Declarations.exchanges hk hss rest h hrest
      simpa using ih.surround _ [] fun o us _ hus => ⟨true, fun _ => rfl, by
        simpa using Declarations.cons hs hus⟩

end

section Unique
variable {isOpen isOpen' : Bool} {ts ts' : List Token} {s s' : Stmt}

/-- From where it begins a statement is read in one way only. -/
theorem Statement.unique (us us' : List Token) (h : Statement True isOpen ts s)
    (hus : isOpen = true → ∀ t ∈ us.head?, t.kind ≠ .kwElse) (h' : Statement True isOpen' ts' s')
    (hus' : isOpen' = true → ∀ t ∈ us'.head?, t.kind ≠ .kwElse) (heq : ts ++ us = ts' ++ us') :
    ts = ts' ∧ s = s' ∧ us = us' := by
  let c : Cursor := ⟨ts ++ us, 1, none, 0, #[]⟩
  let n := 16 * c.rest.length + 10
  have hends := (endsStatements n).statement (Nat.le_refl _) c (Nat.le_refl _)
  obtain hout | ⟨a, c₁, ha, hs, hrest, -⟩ := builds_statement h hus n c rfl
  · rw [EndsFrom, hout] at hends
    exact hends.elim
  obtain hout | ⟨a', c₂, ha', hs', hrest', -⟩ := builds_statement h' hus' n c heq
  · rw [EndsFrom, hout] at hends
    exact hends.elim
  obtain ⟨rfl, rfl⟩ := Reading.done.inj (ha.symm.trans ha')
  have hbehind : us = us' := hrest.symm.trans hrest'
  subst hbehind
  exact ⟨List.append_cancel_right heq, hs.symm.trans hs', rfl⟩

/-- A statement that could take an `else` is open in every way to read it. -/
theorem Statement.open_unique (h : Statement True true ts s) (h' : Statement True isOpen ts s') :
    isOpen = true := by
  by_contra hclosed
  let keyword : Token := ⟨.kwElse, "else", 1, none⟩
  let nothing : List Token := [⟨.kwNil, "nil", 1, none⟩, ⟨.semicolon, ";", 1, none⟩]
  have hnil : Expression [⟨.kwNil, "nil", 1, none⟩] (.literal 0 .nil) :=
    Primary.expression (.constant (.nil rfl))
  have hnothing : Statement True false nothing _ := .expression (.mk rfl hnil)
  have helse : keyword.kind = .kwElse := rfl
  obtain ⟨_, _, hlonger⟩ := Statement.append_else helse hnothing h rfl
  obtain ⟨-, -, hus⟩ := Statement.unique (keyword :: nothing) [] h' (fun ho => absurd ho hclosed) hlonger
    nofun (by simp)
  cases hus

/-- In place of a loop stands any statement with its tree, if no `else` follows. -/
theorem Declarations.exchange {loop other before behind : List Token} {ss : List Stmt}
    (h : Declarations True (before ++ loop ++ behind) ss) {keyword : Token}
    (hbegins : loop.head? = some keyword) (hk : keyword.kind = .kwFor)
    (hloop : Statement True isOpen loop s) (hother : Statement True isOpen' other s)
    (hopen : isOpen' = true → isOpen = true) (hbehind : ∀ t ∈ behind.head?, t.kind ≠ .kwElse) :
    Declarations True (before ++ other ++ behind) ss := by
  obtain ⟨us, rfl⟩ := List.head?_eq_some_iff.mp hbegins
  have hsplit : before ++ keyword :: us ++ behind = before ++ keyword :: (us ++ behind) := by simp
  obtain ⟨inner, ts, after, s', hts, hs', hafter, hexchange⟩ := h.exchanges hk [] hsplit nofun
  rw [List.append_nil] at hafter
  obtain ⟨hsame, rfl, rfl⟩ := Statement.unique behind after hloop (fun _ => hbehind) hs' hafter
    (congrArg (keyword :: ·) hts)
  rw [hsame] at hloop
  obtain ⟨whole, -, hwhole⟩ := hexchange isOpen' other hother fun ho => by
    have htrue := hopen ho
    subst htrue
    exact hloop.open_unique hs'
  exact hwhole

end Unique

end Grammar
end LoxLang
