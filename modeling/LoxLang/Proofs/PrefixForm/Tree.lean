import LoxLang.Tree.PrefixForm
import LoxLang.Proofs.PrefixForm.Form

/-! The forms of trees: the prefix form of a tree is the text of its form. -/
namespace LoxLang

def Literal.form : Literal → Form
  | .nil => .word "nil"
  | .bool true => .word "true"
  | .bool false => .word "false"
  | .number x => .number x
  | .string s => .quoted s

mutual

def Expr.form : Expr → Form
  | .literal _ value => value.form
  | .grouping _ inner => .list [.word "group", inner.form]
  | .unary _ op operand => .list [.word op.symbol, operand.form]
  | .binary _ op left right => .list [.word op.symbol, left.form, right.form]
  | .logical _ op left right => .list [.word op.symbol, left.form, right.form]
  | .reference _ name _ => .word name
  | .assign _ name _ value => .list [.word "=", .word name, value.form]
  | .call _ callee arguments => .list (.word "call" :: callee.form :: Expr.forms arguments)

def Expr.forms : List Expr → List Form
  | [] => []
  | e :: es => e.form :: Expr.forms es

end

mutual

def Stmt.form : Stmt → Form
  | .expression _ e => e.form
  | .print _ e => .list [.word "print", e.form]
  | .var _ name none => .list [.word "var", .word name]
  | .var _ name (some e) => .list [.word "var", .word name, e.form]
  | .block _ body => .list (.word "block" :: Stmt.forms body)
  | .branch _ condition thenBranch none => .list [.word "if", condition.form, thenBranch.form]
  | .branch _ condition thenBranch (some elseBranch) =>
    .list [.word "if", condition.form, thenBranch.form, elseBranch.form]
  | .loop _ condition body => .list [.word "while", condition.form, body.form]
  | .function _ name params body =>
    .list (.word "fun" :: .word name :: .list (params.map .word) :: Stmt.forms body)
  | .result _ none => .list [.word "return"]
  | .result _ (some e) => .list [.word "return", e.form]

def Stmt.forms : List Stmt → List Form
  | [] => []
  | s :: ss => s.form :: Stmt.forms ss

end

section Text

theorem Literal.chars_form (l : Literal) : l.form.chars = l.prefixForm.toList := by
  cases l with
  | nil | number => rfl
  | bool b => cases b <;> rfl
  | string s => simp [form, prefixForm, Form.chars]

mutual

theorem Expr.chars_form : (e : Expr) → e.form.chars = e.prefixForm.toList
  | .literal _ value => value.chars_form
  | .grouping _ inner => by
    simp [Expr.form, Expr.prefixForm, Form.chars, Form.itemsChars, inner.chars_form]
  | .unary _ op operand => by
    simp [Expr.form, Expr.prefixForm, Form.chars, Form.itemsChars, operand.chars_form]
  | .binary _ op left right | .logical _ op left right => by
    simp [Expr.form, Expr.prefixForm, Form.chars, Form.itemsChars, left.chars_form, right.chars_form]
  | .reference _ _ _ => rfl
  | .assign _ name _ value => by
    simp [Expr.form, Expr.prefixForm, Form.chars, Form.itemsChars, value.chars_form]
  | .call _ callee arguments => by
    simp [Expr.form, Expr.prefixForm, Form.chars, Form.itemsChars, callee.chars_form,
      Expr.itemsChars_forms arguments]

theorem Expr.itemsChars_forms : (es : List Expr) →
    Form.itemsChars (Expr.forms es) = (Expr.prefixForms es).toList ++ [')']
  | [] => rfl
  | e :: es => by
    simp [Expr.forms, Expr.prefixForms, Form.itemsChars, e.chars_form, Expr.itemsChars_forms es]

end

theorem Form.itemsChars_words (names : List Name) :
    Form.itemsChars (names.map .word) = names.flatMap (' ' :: ·.toList) ++ [')'] := by
  induction names with
  | nil => rfl
  | cons name names ih => simp [Form.itemsChars, Form.chars, ih]

theorem Form.chars_words (names : List Name) : (Form.list (names.map .word)).chars =
    '(' :: ((String.intercalate " " names).toList ++ [')']) := by
  cases names with
  | nil => rfl
  | cons name names =>
    have htail (name : Name) (names : List Name) : (String.intercalate " " (name :: names)).toList =
        name.toList ++ names.flatMap (' ' :: ·.toList) := by
      induction names generalizing name with
      | nil => simp
      | cons next names ih => simp [String.intercalate_cons_cons, ih]
    simp [Form.chars, Form.itemsChars_words, htail]

mutual

theorem Stmt.chars_form : (s : Stmt) → s.form.chars = s.prefixForm.toList
  | .expression _ e => e.chars_form
  | .print _ e | .result _ (some e) => by
    simp [Stmt.form, Stmt.prefixForm, Form.chars, Form.itemsChars, e.chars_form]
  | .var _ _ none | .result _ none => by
    simp [Stmt.form, Stmt.prefixForm, Form.chars, Form.itemsChars]
  | .var _ name (some e) => by
    simp [Stmt.form, Stmt.prefixForm, Form.chars, Form.itemsChars, e.chars_form]
  | .block _ body => by
    simp [Stmt.form, Stmt.prefixForm, Form.chars, Stmt.itemsChars_forms body]
  | .branch _ condition thenBranch none => by
    simp [Stmt.form, Stmt.prefixForm, Form.chars, Form.itemsChars, condition.chars_form,
      thenBranch.chars_form]
  | .branch _ condition thenBranch (some elseBranch) => by
    simp [Stmt.form, Stmt.prefixForm, Form.chars, Form.itemsChars, condition.chars_form,
      thenBranch.chars_form, elseBranch.chars_form]
  | .loop _ condition body => by
    simp [Stmt.form, Stmt.prefixForm, Form.chars, Form.itemsChars, condition.chars_form,
      body.chars_form]
  | .function _ name params body => by
    simp only [Stmt.form, Stmt.prefixForm, Form.chars, Form.itemsChars, Form.chars_words,
      Stmt.itemsChars_forms body]
    simp

theorem Stmt.itemsChars_forms : (ss : List Stmt) →
    Form.itemsChars (Stmt.forms ss) = (Stmt.prefixForms ss).toList ++ [')']
  | [] => rfl
  | s :: ss => by
    simp [Stmt.forms, Stmt.prefixForms, Form.itemsChars, s.chars_form, Stmt.itemsChars_forms ss]

end

/-- The text of a program is that of its forms, a line feed after each. -/
theorem Stmt.chars_forms (program : List Stmt) :
    (Stmt.programText program).toList = (Stmt.forms program).flatMap (·.chars ++ ['\n']) := by
  rw [Stmt.programText, String.toList_join]
  induction program with
  | nil => rfl
  | cons s ss ih =>
    rw [List.map_cons, List.flatMap_cons, ih, Stmt.forms, List.flatMap_cons, s.chars_form,
      String.toList_append]
    rfl

end Text

end LoxLang
