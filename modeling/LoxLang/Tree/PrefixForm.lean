import LoxLang.Tree
import LoxLang.Number.Text

/-! The program tree written in prefix form, one top-level statement a line. -/
namespace LoxLang

def Literal.prefixForm : Literal → String
  | nil => "nil"
  | bool true => "true"
  | bool false => "false"
  | number x => Number.text x
  | string s => "\"" ++ s ++ "\""

mutual

def Expr.prefixForm : Expr → String
  | .literal _ value => value.prefixForm
  | .grouping _ inner => "(group " ++ inner.prefixForm ++ ")"
  | .unary _ op operand => "(" ++ op.symbol ++ " " ++ operand.prefixForm ++ ")"
  | .binary _ op left right =>
    "(" ++ op.symbol ++ " " ++ left.prefixForm ++ " " ++ right.prefixForm ++ ")"
  | .logical _ op left right =>
    "(" ++ op.symbol ++ " " ++ left.prefixForm ++ " " ++ right.prefixForm ++ ")"
  | .reference _ name _ => name
  | .assign _ name _ value => "(= " ++ name ++ " " ++ value.prefixForm ++ ")"
  | .call _ callee arguments => "(call " ++ callee.prefixForm ++ Expr.prefixForms arguments ++ ")"

def Expr.prefixForms : List Expr → String
  | [] => ""
  | e :: es => " " ++ e.prefixForm ++ Expr.prefixForms es

end

mutual

def Stmt.prefixForm : Stmt → String
  | .expression _ e => e.prefixForm
  | .print _ e => "(print " ++ e.prefixForm ++ ")"
  | .var _ name none => "(var " ++ name ++ ")"
  | .var _ name (some e) => "(var " ++ name ++ " " ++ e.prefixForm ++ ")"
  | .block _ body => "(block" ++ Stmt.prefixForms body ++ ")"
  | .branch _ condition thenBranch none =>
    "(if " ++ condition.prefixForm ++ " " ++ thenBranch.prefixForm ++ ")"
  | .branch _ condition thenBranch (some elseBranch) =>
    "(if " ++ condition.prefixForm ++ " " ++ thenBranch.prefixForm ++ " " ++
      elseBranch.prefixForm ++ ")"
  | .loop _ condition body => "(while " ++ condition.prefixForm ++ " " ++ body.prefixForm ++ ")"
  | .function _ name params body =>
    "(fun " ++ name ++ " (" ++ String.intercalate " " params ++ ")" ++
      Stmt.prefixForms body ++ ")"
  | .result _ none => "(return)"
  | .result _ (some e) => "(return " ++ e.prefixForm ++ ")"

def Stmt.prefixForms : List Stmt → String
  | [] => ""
  | s :: ss => " " ++ s.prefixForm ++ Stmt.prefixForms ss

end

def Stmt.programText (program : List Stmt) : String :=
  String.join (program.map (·.prefixForm ++ "\n"))

end LoxLang
