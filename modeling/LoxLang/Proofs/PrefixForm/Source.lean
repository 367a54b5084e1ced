import LoxLang.Proofs.Parse.Accept
import LoxLang.Proofs.PrefixForm.ReadBack

/-!
The prefix form of sources is unambiguous: the names and literals that the scanner reads can be told apart in
it, and the parser takes them into its trees.
-/
namespace LoxLang

namespace Piece
variable {c : Char} {rest text : List Char}

theorem isName_of_first (h : first c rest = ⟨some .identifier, text⟩) : IsName (.ofList text) where
  text := by
    rw [String.toList_ofList]
    exact first_mem_pattern h
  kind := by
    obtain ⟨d, hd, more, -, rfl⟩ := mem_oneOf_mul.mp (first_mem_pattern h)
    obtain ⟨rfl, -⟩ : d = c ∧ more <+: rest := by simpa [h] using first_isPrefix c rest
    rw [first_letter (isLetter_iff.mpr hd), Piece.mk.injEq, Option.some_inj] at h
    obtain ⟨hword, htext⟩ := h
    rwa [htext] at hword

end Piece

theorem Literal.legible_of_ofText? {kind : Kind} {text : List Char} {l : Literal}
    (htext : text ∈ kind.pattern) (hl : Literal.ofText? kind text = some l)
    (hfinite : ∀ x, l = .number x → x.isFinite = true) : l.Legible := by
  cases l with
  | nil | bool => trivial
  | number x => exact hfinite x rfl
  | string s =>
    unfold ofText? at hl
    split at hl <;> cases hl
    obtain ⟨body, hbody, rfl⟩ := Piece.mem_pattern_string htext
    have hinside : (body ++ ['"']).dropLast = body := List.dropLast_concat
    change '"' ∉ (String.ofList (body ++ ['"']).dropLast).toList
    rw [hinside, String.toList_ofList]
    exact fun hquote => hbody _ hquote rfl

structure Token.Legible (t : Token) : Prop where
  name : t.kind = .identifier → IsName t.lexeme
  literal : ∀ l ∈ t.literal, l.Legible

def Token.IsFinite (t : Token) : Prop := ∀ x, t.literal = some (.number x) → x.isFinite = true

instance (t : Token) : Decidable t.IsFinite :=
  match h : t.literal with
  | some (.number x) => decidable_of_iff (x.isFinite = true) <| by simp [Token.IsFinite, h]
  | none | some .nil | some (.bool _) | some (.string _) => .isTrue <| by simp [Token.IsFinite, h]

theorem legible_of_mem_tokensOf {source : String} {t : Token} (h : t ∈ tokensOf source)
    (hfinite : t.IsFinite) : t.Legible := by
  obtain ⟨p, hp, last, hpiece⟩ := Piece.ofPiece?_of_mem_tokens h
  obtain ⟨c, rest, rfl⟩ := Piece.eq_first_of_mem_cut hp
  obtain ⟨hfirst, hliteral⟩ := Piece.ofPiece?_eq_some hpiece
  refine ⟨fun hkind => ?_, fun l hl => ?_⟩
  · rw [hkind] at hfirst
    simpa using Piece.isName_of_first hfirst
  · rw [Option.mem_def, hliteral] at hl
    exact Literal.legible_of_ofText? (Piece.first_mem_pattern hfirst) hl fun x hx =>
      hfinite x (by rw [hliteral, hl, hx])

namespace Grammar

theorem Operator.legible {left right e : Expr} {level : Level} {kind : Kind}
    (h : Operator left right level kind e) (hleft : left.Legible) (hright : right.Legible) :
    e.Legible := by
  cases h <;> exact ⟨hleft, hright⟩

theorem Constant.legible {t : Token} {value : Literal} (h : Constant t value) (ht : t.Legible) :
    value.Legible := by
  have hgiven : (t.literal.getD .nil).Legible := by
    cases hl : t.literal with
    | none => trivial
    | some l => exact ht.literal l hl
  cases h with
  | false | true | nil => trivial
  | number | string => exact hgiven

mutual

/-- Trees take their names and literals from tokens. -/
theorem Expression.legible : {ts : List Token} → {e : Expr} → Expression ts e →
    (∀ t ∈ ts, t.Legible) → e.Legible
  | _, _, .assign hname _ hvalue, h =>
    ⟨(h _ (by simp)).name hname, hvalue.legible fun t ht => h t (by simp [ht])⟩
  | _, _, .operand he, h => he.legible h

theorem Operand.legible : {level : Level} → {ts : List Token} → {e : Expr} → Operand level ts e →
    (∀ t ∈ ts, t.Legible) → e.Legible
  | _, _, _, .tighter _ he, h => he.legible h
  | _, _, _, .join _ hop hleft hright, h =>
    hop.legible (hleft.legible fun t ht => h t (by simp [ht]))
      (hright.legible fun t ht => h t (by simp [ht]))
  | _, _, _, .sign _ he, h => he.legible fun t ht => h t (by simp [ht])
  | _, _, _, .call he, h => he.legible h

theorem Call.legible : {ts : List Token} → {e : Expr} → Call ts e → (∀ t ∈ ts, t.Legible) →
    e.Legible
  | _, _, .primary he, h => he.legible h
  | _, _, .call _ _ _ hcallee harguments, h =>
    ⟨hcallee.legible fun t ht => h t (by simp [ht]),
      harguments.legible fun t ht => h t (by simp [ht])⟩

theorem Arguments.legible : {ts : List Token} → {es : List Expr} → Arguments ts es →
    (∀ t ∈ ts, t.Legible) → Expr.AllLegible es
  | _, _, .none, _ => trivial
  | _, _, .some hes, h => hes.legible h

theorem Items.legible : {ts : List Token} → {es : List Expr} → Items ts es →
    (∀ t ∈ ts, t.Legible) → Expr.AllLegible es
  | _, _, .last he, h => ⟨he.legible h, trivial⟩
  | _, _, .comma _ he hes, h =>
    ⟨he.legible fun t ht => h t (by simp [ht]), hes.legible fun t ht => h t (by simp [ht])⟩

theorem Primary.legible : {ts : List Token} → {e : Expr} → Primary ts e → (∀ t ∈ ts, t.Legible) →
    e.Legible
  | _, _, .constant hvalue, h => hvalue.legible (h _ (by simp))
  | _, _, .identifier hname, h => (h _ (by simp)).name hname
  | _, _, .grouping _ _ he, h => he.legible fun t ht => h t (by simp [ht])

end

section Clauses
variable {ts : List Token} {e : Option Expr}

theorem Optional.legible (hoptional : Optional ts e) (h : ∀ t ∈ ts, t.Legible) :
    ∀ value ∈ e, value.Legible := by
  cases hoptional with
  | none => rintro _ ⟨⟩
  | some he =>
    rintro _ ⟨⟩
    exact he.legible h

theorem Initializer.legible (hinitializer : Initializer ts e) (h : ∀ t ∈ ts, t.Legible) :
    ∀ value ∈ e, value.Legible := by
  cases hinitializer with
  | none => rintro _ ⟨⟩
  | some _ he =>
    rintro _ ⟨⟩
    exact he.legible fun t ht => h t (by simp [ht])

theorem Variable.legible {s : Stmt} (hvariable : Variable ts s) (h : ∀ t ∈ ts, t.Legible) :
    s.Legible := by
  cases hvariable with
  | mk hname _ hinitializer =>
    exact ⟨(h _ (by simp)).name hname, hinitializer.legible fun t ht => h t (by simp [ht])⟩

theorem ExpressionStatement.legible {s : Stmt} (hexpression : ExpressionStatement ts s)
    (h : ∀ t ∈ ts, t.Legible) : s.Legible := by
  cases hexpression with
  | mk _ he => exact Expression.legible he fun t ht => h t (by simp [ht])

theorem ForInitializer.legible {initializer : Option Stmt}
    (hinitializer : ForInitializer ts initializer) (h : ∀ t ∈ ts, t.Legible) :
    ∀ s ∈ initializer, s.Legible := by
  cases hinitializer with
  | none => nofun
  | var _ hs =>
    rintro _ ⟨⟩
    exact hs.legible fun t ht => h t (by simp [ht])
  | expression hs =>
    rintro _ ⟨⟩
    exact hs.legible h

theorem Names.legible {ts : List Token} {names : List Name} (hnames : Names ts names)
    (h : ∀ t ∈ ts, t.Legible) : ∀ name ∈ names, IsName name := by
  induction hnames with
  | last hname => simpa using (h _ (by simp)).name hname
  | comma hname _ _ ih =>
    exact List.forall_mem_cons.mpr ⟨(h _ (by simp)).name hname, ih fun t ht => h t (by simp [ht])⟩

theorem Parameters.legible {params : List Name} (hparams : Parameters ts params)
    (h : ∀ t ∈ ts, t.Legible) : ∀ name ∈ params, IsName name := by
  cases hparams with
  | none => nofun
  | some hnames => exact hnames.legible h

theorem legible_expanded {initializer : Option Stmt} {condition increment : Option Expr} {body : Stmt}
    (hinitializer : ∀ s ∈ initializer, s.Legible) (hcondition : ∀ c ∈ condition, c.Legible)
    (hincrement : ∀ i ∈ increment, i.Legible) (hbody : body.Legible) :
    (expanded initializer condition increment body).Legible := by
  have hguard : (condition.getD (.literal 0 (.bool true))).Legible := by
    cases condition with
    | none => trivial
    | some c => exact hcondition c rfl
  have hrepeated : (repeated increment body).Legible := by
    cases increment with
    | none => exact hbody
    | some i => exact ⟨hbody, hincrement i rfl, trivial⟩
  cases initializer with
  | none => exact ⟨hguard, hrepeated⟩
  | some s => exact ⟨hinitializer s rfl, ⟨hguard, hrepeated⟩, trivial⟩

end Clauses

section
variable {nearest : Prop}

mutual

theorem Statement.legible : {isOpen : Bool} → {ts : List Token} → {s : Stmt} →
    Statement nearest isOpen ts s → (∀ t ∈ ts, t.Legible) → s.Legible
  | _, _, _, .expression hs, h => hs.legible h
  | _, _, _, .print _ _ he, h => Expression.legible he fun t ht => h t (by simp [ht])
  | _, _, _, .branch _ _ _ hc hs, h =>
    ⟨hc.legible fun t ht => h t (by simp [ht]), hs.legible fun t ht => h t (by simp [ht])⟩
  | _, _, _, .branchElse _ _ _ _ _ hc hs hs', h =>
    ⟨hc.legible fun t ht => h t (by simp [ht]), hs.legible fun t ht => h t (by simp [ht]),
      hs'.legible fun t ht => h t (by simp [ht])⟩
  | _, _, _, .loop _ _ _ hc hs, h =>
    ⟨hc.legible fun t ht => h t (by simp [ht]), hs.legible fun t ht => h t (by simp [ht])⟩
  | _, _, _, .forLoop _ _ _ _ hi hc hn hs, h =>
    legible_expanded (hi.legible fun t ht => h t (by simp [ht]))
      (hc.legible fun t ht => h t (by simp [ht])) (hn.legible fun t ht => h t (by simp [ht]))
      (hs.legible fun t ht => h t (by simp [ht]))
  | _, _, _, .result _ _ he, h => Optional.legible he fun t ht => h t (by simp [ht])
  | _, _, _, .block _ _ hss, h => Declarations.legible hss fun t ht => h t (by simp [ht])

theorem Declaration.legible : {ts : List Token} → {s : Stmt} → Declaration nearest ts s →
    (∀ t ∈ ts, t.Legible) → s.Legible
  | _, _, .function _ hname _ _ _ _ hps _ hss, h =>
    ⟨(h _ (by simp)).name hname, hps.legible fun t ht => h t (by simp [ht]),
      hss.legible fun t ht => h t (by simp [ht])⟩
  | _, _, .var _ hs, h => hs.legible fun t ht => h t (by simp [ht])
  | _, _, .statement hs, h => hs.legible h

theorem Declarations.legible : {ts : List Token} → {ss : List Stmt} → Declarations nearest ts ss →
    (∀ t ∈ ts, t.Legible) → Stmt.AllLegible ss
  | _, _, .nil, _ => trivial
  | _, _, .cons hs hss, h =>
    ⟨hs.legible fun t ht => h t (by simp [ht]), hss.legible fun t ht => h t (by simp [ht])⟩

end

end

end Grammar

namespace Parsed

theorem legible_ofSource {source : String} {firstId : NodeId}
    (hclean : (ofSource source firstId).faults = [])
    (hfinite : ∀ t ∈ (scan source).tokens, t.IsFinite) :
    Stmt.AllLegible (ofSource source firstId).program := by
  have hparsed : (ofTokens (scan source).tokens firstId).faults = [] :=
    (List.append_eq_nil_iff.mp hclean).2
  have hderived := derives_of_faults_eq_nil hparsed
  rw [scan_tokens, takeWhile_before_eof fun t ht => kind_ne_eof_of_mem ht] at hderived
  refine Stmt.allLegible_of_allBare (hderived.legible fun t ht => ?_)
  exact legible_of_mem_tokensOf ht (hfinite t (List.mem_append_left _ ht))

/-- Two sources without a fault and without a number that is too large are written alike only if they have one
tree, up to lines and ids. -/
theorem tree_eq_of_text_eq {source source' : String} {firstId firstId' : NodeId}
    (hclean : (ofSource source firstId).faults = [])
    (hclean' : (ofSource source' firstId').faults = [])
    (hfinite : ∀ t ∈ (scan source).tokens, t.IsFinite)
    (hfinite' : ∀ t ∈ (scan source').tokens, t.IsFinite)
    (htext : Stmt.programText (ofSource source firstId).program =
      Stmt.programText (ofSource source' firstId').program) :
    Stmt.allBare (ofSource source firstId).program =
      Stmt.allBare (ofSource source' firstId').program :=
  Stmt.allBare_eq_of_programText (legible_ofSource hclean hfinite)
    (legible_ofSource hclean' hfinite') htext

theorem tree_eq_of_text_eq_spaced :
    (ofSource "var x = 1.50;\nprint -x - \"a) (- b\";" 0).faults = [] ∧
    (ofSource "var x=1.5;print-x// x is 1.5\n-\"a) (- b\";" 3).faults = [] ∧
    (∀ t ∈ (scan "var x = 1.50;\nprint -x - \"a) (- b\";").tokens, t.IsFinite) ∧
    (∀ t ∈ (scan "var x=1.5;print-x// x is 1.5\n-\"a) (- b\";").tokens, t.IsFinite) ∧
    Stmt.programText (ofSource "var x = 1.50;\nprint -x - \"a) (- b\";" 0).program =
      Stmt.programText (ofSource "var x=1.5;print-x// x is 1.5\n-\"a) (- b\";" 3).program ∧
    Stmt.allBare (ofSource "var x = 1.50;\nprint -x - \"a) (- b\";" 0).program =
      Stmt.allBare (ofSource "var x=1.5;print-x// x is 1.5\n-\"a) (- b\";" 3).program := by
  have hclean : (ofSource "var x = 1.50;\nprint -x - \"a) (- b\";" 0).faults = [] := by decide +kernel
  have hclean' : (ofSource "var x=1.5;print-x// x is 1.5\n-\"a) (- b\";" 3).faults = [] := by
    decide +kernel
  have hfinite : ∀ t ∈ (scan "var x = 1.50;\nprint -x - \"a) (- b\";").tokens, t.IsFinite := by
    decide +kernel
  have hfinite' : ∀ t ∈ (scan "var x=1.5;print-x// x is 1.5\n-\"a) (- b\";").tokens, t.IsFinite := by
    decide +kernel
  have htext : Stmt.programText (ofSource "var x = 1.50;\nprint -x - \"a) (- b\";" 0).program =
      Stmt.programText (ofSource "var x=1.5;print-x// x is 1.5\n-\"a) (- b\";" 3).program := by
    decide +kernel
  exact ⟨hclean, hclean', hfinite, hfinite', htext,
    tree_eq_of_text_eq hclean hclean' hfinite hfinite' htext⟩

end Parsed
end LoxLang
