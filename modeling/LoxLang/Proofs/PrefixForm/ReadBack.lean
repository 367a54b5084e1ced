import LoxLang.Proofs.Parse.Grammar
import LoxLang.Proofs.PrefixForm.Tree

/-!
Reading trees back from their forms. A tree whose names are identifiers comes back up to lines and ids, and its
text tells its form.
-/
namespace LoxLang

structure IsName (name : Name) : Prop where
  text : name.toList ∈ Kind.identifier.pattern
  kind : Kind.ofWord name = .identifier

def Literal.Legible : Literal → Prop
  | .number x => x.isFinite = true
  | .string s => '"' ∉ s.toList
  | _ => True

mutual

def Expr.Legible : Expr → Prop
  | .literal _ value => value.Legible
  | .grouping _ inner => inner.Legible
  | .unary _ _ operand => operand.Legible
  | .binary _ _ left right | .logical _ _ left right => left.Legible ∧ right.Legible
  | .reference _ name _ => IsName name
  | .assign _ name _ value => IsName name ∧ value.Legible
  | .call _ callee arguments => callee.Legible ∧ Expr.AllLegible arguments

def Expr.AllLegible : List Expr → Prop
  | [] => True
  | e :: es => e.Legible ∧ Expr.AllLegible es

end

mutual

def Stmt.Legible : Stmt → Prop
  | .expression _ e | .print _ e => e.Legible
  | .var _ name initializer => IsName name ∧ ∀ e ∈ initializer, e.Legible
  | .block _ body => Stmt.AllLegible body
  | .branch _ condition thenBranch none => condition.Legible ∧ thenBranch.Legible
  | .branch _ condition thenBranch (some elseBranch) =>
    condition.Legible ∧ thenBranch.Legible ∧ elseBranch.Legible
  | .loop _ condition body => condition.Legible ∧ body.Legible
  | .function _ name params body => IsName name ∧ (∀ p ∈ params, IsName p) ∧ Stmt.AllLegible body
  | .result _ value => ∀ e ∈ value, e.Legible

def Stmt.AllLegible : List Stmt → Prop
  | [] => True
  | s :: ss => s.Legible ∧ Stmt.AllLegible ss

end

section Bare

mutual

/-- Lines and ids do not matter for this. -/
theorem Expr.legible_of_bare : {e : Expr} → e.bare.Legible → e.Legible
  | .literal _ _, h => h
  | .grouping _ inner, h | .unary _ _ inner, h => Expr.legible_of_bare (e := inner) h
  | .binary _ _ _ _, h | .logical _ _ _ _, h =>
    ⟨Expr.legible_of_bare h.1, Expr.legible_of_bare h.2⟩
  | .reference _ _ _, h => h
  | .assign _ _ _ _, h => ⟨h.1, Expr.legible_of_bare h.2⟩
  | .call _ _ _, h => ⟨Expr.legible_of_bare h.1, Expr.allLegible_of_allBare h.2⟩

theorem Expr.allLegible_of_allBare : {es : List Expr} → Expr.AllLegible (Expr.allBare es) →
    Expr.AllLegible es
  | [], _ => trivial
  | _ :: _, h => ⟨Expr.legible_of_bare h.1, Expr.allLegible_of_allBare h.2⟩

end

theorem Expr.legible_of_map_bare {value : Option Expr} (h : ∀ e ∈ value.map Expr.bare, e.Legible) :
    ∀ e ∈ value, e.Legible :=
  fun _ he => Expr.legible_of_bare (h _ (Option.mem_map_of_mem _ he))

mutual

theorem Stmt.legible_of_bare : {s : Stmt} → s.bare.Legible → s.Legible
  | .expression _ e, h | .print _ e, h => Expr.legible_of_bare (e := e) h
  | .var _ _ _, h => ⟨h.1, Expr.legible_of_map_bare h.2⟩
  | .block _ body, h => Stmt.allLegible_of_allBare (l := body) h
  | .branch _ _ _ none, h => ⟨Expr.legible_of_bare h.1, Stmt.legible_of_bare h.2⟩
  | .branch _ _ _ (some _), h =>
    ⟨Expr.legible_of_bare h.1, Stmt.legible_of_bare h.2.1, Stmt.legible_of_bare h.2.2⟩
  | .loop _ _ _, h => ⟨Expr.legible_of_bare h.1, Stmt.legible_of_bare h.2⟩
  | .function _ _ _ _, h => ⟨h.1, h.2.1, Stmt.allLegible_of_allBare h.2.2⟩
  | .result _ _, h => Expr.legible_of_map_bare h

theorem Stmt.allLegible_of_allBare : {l : List Stmt} → Stmt.AllLegible (Stmt.allBare l) →
    Stmt.AllLegible l
  | [], _ => trivial
  | _ :: _, h => ⟨Stmt.legible_of_bare h.1, Stmt.allLegible_of_allBare h.2⟩

end

end Bare

section Proper
open Form

theorem isPlain_of_word {c : Char} (h : isWordChar c) : isPlain c = true :=
  isPlain_of_class (p := isWordChar) rfl h

theorem isWord_of_letters {c : Char} {cs : List Char} {s : String} (hs : s.toList = c :: cs)
    (hc : isLetter c = true) (hcs : ∀ d ∈ cs, isWordChar d = true) : IsWord s where
  nonempty := by rw [hs]; exact List.cons_ne_nil c cs
  plain d hd := by
    rw [hs] at hd
    rcases List.mem_cons.mp hd with rfl | hd
    · exact isPlain_of_word (by rw [isWordChar, hc]; rfl)
    · exact isPlain_of_word (hcs d hd)
  notNumeral := .inl fun d hd => by
    rw [hs] at hd
    cases hd
    exact hc

theorem IsName.isWord {name : Name} (h : IsName name) : IsWord name := by
  obtain ⟨c, hc, cs, hcs, htext⟩ := mem_oneOf_mul.mp h.text
  exact isWord_of_letters htext (isLetter_iff.mpr hc) fun d hd =>
    isWordChar_iff.mpr (mem_kstar_oneOf.mp hcs d hd)

theorem isWord_of_check {s : String}
    (h : s.toList ≠ [] ∧ ∀ c ∈ s.toList, isPlain c = true ∧ c.isDigit = false) : IsWord s :=
  ⟨h.1, fun c hc => (h.2 c hc).1, .inr fun c hc => (h.2 c hc).2⟩

def heads : List String :=
  ["group", "=", "call", "print", "var", "block", "if", "while", "fun", "return"]

theorem isWord_of_mem_heads {s : String} (h : s ∈ heads) : IsWord s := by
  refine isWord_of_check ?_
  simp only [heads, List.mem_cons, List.not_mem_nil, or_false] at h
  obtain rfl | rfl | rfl | rfl | rfl | rfl | rfl | rfl | rfl | rfl := h <;> simp [isPlain, delimiters]

theorem UnaryOp.isWord_symbol (op : UnaryOp) : IsWord op.symbol := by
  cases op <;> exact isWord_of_check (by simp [symbol, isPlain, delimiters])

theorem BinaryOp.isWord_symbol (op : BinaryOp) : IsWord op.symbol := by
  cases op <;> exact isWord_of_check (by simp [symbol, isPlain, delimiters])

theorem LogicalOp.isWord_symbol (op : LogicalOp) : IsWord op.symbol := by
  cases op <;> exact isWord_of_check (by simp [symbol, isPlain, delimiters])

theorem Literal.Legible.proper : {l : Literal} → l.Legible → l.form.Proper
  | .nil, _ | .bool true, _ | .bool false, _ => isWord_of_check (by simp [isPlain, delimiters])
  | .number _, h | .string _, h => h

mutual

theorem Expr.Legible.proper : {e : Expr} → e.Legible → e.form.Proper
  | .literal _ _, h => Literal.Legible.proper h
  | .grouping _ inner, h =>
    ⟨isWord_of_mem_heads (by decide), Expr.Legible.proper (e := inner) h, trivial⟩
  | .unary _ op operand, h => ⟨op.isWord_symbol, Expr.Legible.proper (e := operand) h, trivial⟩
  | .binary _ op _ _, h => ⟨op.isWord_symbol, h.1.proper, h.2.proper, trivial⟩
  | .logical _ op _ _, h => ⟨op.isWord_symbol, h.1.proper, h.2.proper, trivial⟩
  | .reference _ _ _, h => h.isWord
  | .assign _ _ _ _, h => ⟨isWord_of_mem_heads (by decide), h.1.isWord, h.2.proper, trivial⟩
  | .call _ _ _, h => ⟨isWord_of_mem_heads (by decide), h.1.proper, h.2.allProper⟩

theorem Expr.AllLegible.allProper : {es : List Expr} → Expr.AllLegible es →
    Form.AllProper (Expr.forms es)
  | [], _ => trivial
  | _ :: _, h => ⟨h.1.proper, h.2.allProper⟩

end

theorem allProper_words {names : List Name} (h : ∀ name ∈ names, IsName name) :
    Form.AllProper (names.map .word) := by
  induction names with
  | nil => trivial
  | cons name names ih =>
    obtain ⟨hname, hnames⟩ := List.forall_mem_cons.mp h
    exact ⟨hname.isWord, ih hnames⟩

mutual

theorem Stmt.Legible.proper : {s : Stmt} → s.Legible → s.form.Proper
  | .expression _ _, h => Expr.Legible.proper h
  | .print _ _, h => ⟨isWord_of_mem_heads (by decide), Expr.Legible.proper h, trivial⟩
  | .var _ _ none, h => ⟨isWord_of_mem_heads (by decide), h.1.isWord, trivial⟩
  | .var _ _ (some e), h =>
    ⟨isWord_of_mem_heads (by decide), h.1.isWord, (h.2 e rfl).proper, trivial⟩
  | .block _ _, h => ⟨isWord_of_mem_heads (by decide), h.allProper⟩
  | .branch _ _ _ none, h => ⟨isWord_of_mem_heads (by decide), h.1.proper, h.2.proper, trivial⟩
  | .branch _ _ _ (some _), h =>
    ⟨isWord_of_mem_heads (by decide), h.1.proper, h.2.1.proper, h.2.2.proper, trivial⟩
  | .loop _ _ _, h => ⟨isWord_of_mem_heads (by decide), h.1.proper, h.2.proper, trivial⟩
  | .function _ _ _ _, h =>
    ⟨isWord_of_mem_heads (by decide), h.1.isWord, allProper_words h.2.1, h.2.2.allProper⟩
  | .result _ none, _ => ⟨isWord_of_mem_heads (by decide), trivial⟩
  | .result _ (some e), h => ⟨isWord_of_mem_heads (by decide), (h e rfl).proper, trivial⟩

theorem Stmt.AllLegible.allProper : {ss : List Stmt} → Stmt.AllLegible ss →
    Form.AllProper (Stmt.forms ss)
  | [], _ => trivial
  | _ :: _, h => ⟨h.1.proper, h.2.allProper⟩

end

end Proper

def Expr.ofWord (s : String) : Expr :=
  if s = "nil" then .literal 0 .nil
  else if s = "true" then .literal 0 (.bool true)
  else if s = "false" then .literal 0 (.bool false)
  else .reference 0 s 0

def Expr.build? : String → List Expr → Option Expr
  | "group", [e] => some (.grouping 0 e)
  | "=", [.reference _ name _, e] => some (.assign 0 name 0 e)
  | "call", callee :: arguments => some (.call 0 callee arguments)
  | "and", [left, right] => some (.logical 0 .and left right)
  | "or", [left, right] => some (.logical 0 .or left right)
  | "-", [e] => some (.unary 0 .negate e)
  | "!", [e] => some (.unary 0 .not e)
  | "+", [left, right] => some (.binary 0 .add left right)
  | "-", [left, right] => some (.binary 0 .subtract left right)
  | "*", [left, right] => some (.binary 0 .multiply left right)
  | "/", [left, right] => some (.binary 0 .divide left right)
  | "<", [left, right] => some (.binary 0 .less left right)
  | ">", [left, right] => some (.binary 0 .greater left right)
  | "<=", [left, right] => some (.binary 0 .lessEqual left right)
  | ">=", [left, right] => some (.binary 0 .greaterEqual left right)
  | "==", [left, right] => some (.binary 0 .equal left right)
  | "!=", [left, right] => some (.binary 0 .notEqual left right)
  | _, _ => none

namespace Form

mutual

def expr? : Form → Option Expr
  | word s => some (Expr.ofWord s)
  | number x => some (.literal 0 (.number x))
  | quoted s => some (.literal 0 (.string s))
  | list (word head :: parts) => (exprs? parts).bind (Expr.build? head)
  | list _ => none

def exprs? : List Form → Option (List Expr)
  | [] => some []
  | f :: fs => f.expr?.bind fun e => (exprs? fs).map (e :: ·)

end

def words? : List Form → Option (List String)
  | [] => some []
  | word s :: fs => (words? fs).map (s :: ·)
  | _ => none

mutual

/-- Reads a statement back; what is none of the others is an expression. -/
def stmt? : Form → Option Stmt
  | list [word "print", e] => e.expr?.map (.print 0)
  | list [word "var", word name] => some (.var 0 name none)
  | list [word "var", word name, e] => e.expr?.map fun e => .var 0 name (some e)
  | list (word "block" :: body) => (stmts? body).map (.block 0)
  | list [word "if", condition, thenBranch] =>
    condition.expr?.bind fun c => thenBranch.stmt?.map (.branch 0 c · none)
  | list [word "if", condition, thenBranch, elseBranch] =>
    condition.expr?.bind fun c => thenBranch.stmt?.bind fun s =>
      elseBranch.stmt?.map fun t => .branch 0 c s (some t)
  | list [word "while", condition, body] => condition.expr?.bind fun c => body.stmt?.map (.loop 0 c)
  | list (word "fun" :: word name :: list params :: body) =>
    (words? params).bind fun ps => (stmts? body).map (.function 0 name ps)
  | list [word "return"] => some (.result 0 none)
  | list [word "return", e] => e.expr?.map fun e => .result 0 (some e)
  | f => f.expr?.map (.expression 0)

def stmts? : List Form → Option (List Stmt)
  | [] => some []
  | f :: fs => f.stmt?.bind fun s => (stmts? fs).map (s :: ·)

end

end Form

section ReadBack

theorem IsName.ofWord {name : Name} (h : IsName name) : Expr.ofWord name = .reference 0 name 0 := by
  have hkeyword {s : String} {kind : Kind} (hkind : Kind.ofWord s = kind)
      (hne : kind ≠ .identifier) : name ≠ s := by
    rintro rfl
    exact hne (hkind.symm.trans h.kind)
  rw [Expr.ofWord, if_neg (hkeyword rfl (by decide)), if_neg (hkeyword rfl (by decide)),
    if_neg (hkeyword rfl (by decide))]

theorem UnaryOp.build?_symbol (op : UnaryOp) (e : Expr) :
    Expr.build? op.symbol [e] = some (.unary 0 op e) := by cases op <;> rfl

theorem BinaryOp.build?_symbol (op : BinaryOp) (left right : Expr) :
    Expr.build? op.symbol [left, right] = some (.binary 0 op left right) := by cases op <;> rfl

theorem LogicalOp.build?_symbol (op : LogicalOp) (left right : Expr) :
    Expr.build? op.symbol [left, right] = some (.logical 0 op left right) := by cases op <;> rfl

theorem Literal.expr?_form (l : Literal) : l.form.expr? = some (.literal 0 l) := by
  cases l with
  | bool b => cases b <;> rfl
  | _ => rfl

mutual

theorem Expr.Legible.expr?_form : {e : Expr} → e.Legible → e.form.expr? = some e.bare
  | .literal _ value, _ => value.expr?_form
  | .grouping _ inner, h => by
    simp [Expr.form, Form.expr?, Form.exprs?, Expr.Legible.expr?_form (e := inner) h, Expr.build?,
      Expr.bare]
  | .unary _ op operand, h => by
    simp [Expr.form, Form.expr?, Form.exprs?, Expr.Legible.expr?_form (e := operand) h,
      op.build?_symbol, Expr.bare]
  | .binary _ op _ _, h | .logical _ op _ _, h => by
    simp [Expr.form, Form.expr?, Form.exprs?, h.1.expr?_form, h.2.expr?_form, op.build?_symbol,
      Expr.bare]
  | .reference _ _ _, h => congrArg some (IsName.ofWord h)
  | .assign _ _ _ _, h => by
    simp [Expr.form, Form.expr?, Form.exprs?, h.1.ofWord, h.2.expr?_form, Expr.build?, Expr.bare]
  | .call _ _ _, h => by
    simp [Expr.form, Form.expr?, Form.exprs?, h.1.expr?_form, h.2.exprs?_forms, Expr.build?,
      Expr.bare]

theorem Expr.AllLegible.exprs?_forms : {es : List Expr} → Expr.AllLegible es →
    Form.exprs? (Expr.forms es) = some (Expr.allBare es)
  | [], _ => rfl
  | _ :: _, h => by
    simp [Expr.forms, Form.exprs?, h.1.expr?_form, h.2.exprs?_forms, Expr.allBare]

end

/-- No expression begins like a statement. -/
theorem Expr.stmt?_form (e : Expr) : e.form.stmt? = e.form.expr?.map (.expression 0) := by
  cases e with
  | literal line value => cases value with
    | bool b => cases b <;> rfl
    | _ => rfl
  | unary line op operand => cases op <;> rfl
  | binary line op left right | logical line op left right => cases op <;> rfl
  | _ => rfl

theorem words?_map (names : List Name) : Form.words? (names.map .word) = some names := by
  induction names with
  | nil => rfl
  | cons name names ih => simp [Form.words?, ih]

mutual

theorem Stmt.Legible.stmt?_form : {s : Stmt} → s.Legible → s.form.stmt? = some s.bare
  | .expression _ e, h => by
    rw [Stmt.form, e.stmt?_form, Expr.Legible.expr?_form (e := e) h]
    rfl
  | .print _ e, h => by
    simp [Stmt.form, Form.stmt?, Expr.Legible.expr?_form (e := e) h, Stmt.bare]
  | .var _ _ none, _ | .result _ none, _ => rfl
  | .var _ _ (some e), h => by
    simp [Stmt.form, Form.stmt?, (h.2 e rfl).expr?_form, Stmt.bare]
  | .block _ body, h => by
    have hbody : Form.stmts? (Stmt.forms body) = some (Stmt.allBare body) :=
      Stmt.AllLegible.stmts?_forms h
    simp [Stmt.form, Form.stmt?, hbody, Stmt.bare]
  | .branch _ _ _ none, h => by
    simp [Stmt.form, Form.stmt?, h.1.expr?_form, h.2.stmt?_form, Stmt.bare]
  | .branch _ _ _ (some _), h => by
    simp [Stmt.form, Form.stmt?, h.1.expr?_form, h.2.1.stmt?_form, h.2.2.stmt?_form, Stmt.bare]
  | .loop _ _ _, h => by
    simp [Stmt.form, Form.stmt?, h.1.expr?_form, h.2.stmt?_form, Stmt.bare]
  | .function _ _ params _, h => by
    simp [Stmt.form, Form.stmt?, words?_map params, h.2.2.stmts?_forms, Stmt.bare]
  | .result _ (some e), h => by
    simp [Stmt.form, Form.stmt?, (h e rfl).expr?_form, Stmt.bare]

theorem Stmt.AllLegible.stmts?_forms : {ss : List Stmt} → Stmt.AllLegible ss →
    Form.stmts? (Stmt.forms ss) = some (Stmt.allBare ss)
  | [], _ => rfl
  | _ :: _, h => by
    simp [Stmt.forms, Form.stmts?, h.1.stmt?_form, h.2.stmts?_forms, Stmt.allBare]

end

/-- Trees with one text are one tree, up to lines and ids. -/
theorem Stmt.allBare_eq_of_programText {ss ss' : List Stmt} (h : Stmt.AllLegible ss)
    (h' : Stmt.AllLegible ss') (htext : Stmt.programText ss = Stmt.programText ss') :
    Stmt.allBare ss = Stmt.allBare ss' := by
  have hchars := congrArg String.toList htext
  rw [Stmt.chars_forms, Stmt.chars_forms] at hchars
  have hforms := Form.eq_of_lines h.allProper h'.allProper hchars
  have hread := congrArg Form.stmts? hforms
  rwa [h.stmts?_forms, h'.stmts?_forms, Option.some_inj] at hread

end ReadBack
end LoxLang
