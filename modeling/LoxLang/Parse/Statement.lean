import LoxLang.Parse.Expression

/-! Statements and declarations. A declaration that fails is dropped and reading resumes after it. -/
namespace LoxLang
namespace Parser

def initializer? (n : Nat) : Parser (Option Expr) := do
  match ← accept? .equal with
  | some _ => some <$> expression n
  | none => pure none

def varDeclaration (n : Nat) : Parser Stmt := do
  let name ← expect .identifier .variableName
  let initializer ← initializer? n
  let _ ← expect .semicolon .semicolonAfterVariable
  pure (.var name.line name.lexeme initializer)

def expressionStatement (n : Nat) : Parser Stmt := do
  let e ← expression n
  let _ ← expect .semicolon .semicolonAfterExpression
  pure (.ofExpr e)

def printStatement (n : Nat) (line : Nat) : Parser Stmt := do
  let e ← expression n
  let _ ← expect .semicolon .semicolonAfterValue
  pure (.print line e)

def expressionBefore? (n : Nat) (closing : Kind) : Parser (Option Expr) := do
  if ← nextIs closing then pure none else some <$> expression n

def returnStatement (n : Nat) (line : Nat) : Parser Stmt := do
  let value ← expressionBefore? n .semicolon
  let _ ← expect .semicolon .semicolonAfterReturnValue
  pure (.result line value)

def ifHead (n : Nat) : Parser Expr := do
  let _ ← expect .leftParen .parenAfterIf
  let condition ← expression n
  let _ ← expect .rightParen .parenAfterIfCondition
  pure condition

def whileHead (n : Nat) : Parser Expr := do
  let _ ← expect .leftParen .parenAfterWhile
  let condition ← expression n
  let _ ← expect .rightParen .parenAfterCondition
  pure condition

structure ForHead where
  initializer : Option Stmt
  condition : Option Expr
  increment : Option Expr

def forInitializer? (n : Nat) : Parser (Option Stmt) := do
  match ← accept? .semicolon with
  | some _ => pure none
  | none =>
    match ← accept? .kwVar with
    | some _ => some <$> varDeclaration n
    | none => some <$> expressionStatement n

def forHead (n : Nat) : Parser ForHead := do
  let _ ← expect .leftParen .parenAfterFor
  let initializer ← forInitializer? n
  let condition ← expressionBefore? n .semicolon
  let _ ← expect .semicolon .semicolonAfterLoopCondition
  let increment ← expressionBefore? n .rightParen
  let _ ← expect .rightParen .parenAfterForClauses
  pure { initializer, condition, increment }

def parameters : Nat → Nat → Parser (List Name)
  | 0, _ => outOfFuel
  | n + 1, count => do
    limitCount count .tooManyParameters
    let name ← expect .identifier .parameterName
    match ← accept? .comma with
    | none => pure [name.lexeme]
    | some _ => return name.lexeme :: (← parameters n (count + 1))

def parameterList (n : Nat) : Parser (List Name) := do
  if ← nextIs .rightParen then pure [] else parameters n 0

structure FunctionHead where
  name : Token
  params : List Name

def functionHead (n : Nat) : Parser FunctionHead := do
  let name ← expect .identifier .functionName
  let _ ← expect .leftParen .parenAfterFunctionName
  let params ← parameterList n
  let _ ← expect .rightParen .parenAfterParameters
  let _ ← expect .leftBrace .braceBeforeBody
  pure { name, params }

inductive Opening where
  | print | branch | loop | forLoop | result | block

def Opening.ofKind? : Kind → Option Opening
  | .kwPrint => some print
  | .kwIf => some branch
  | .kwWhile => some loop
  | .kwFor => some forLoop
  | .kwReturn => some result
  | .leftBrace => some block
  | _ => none

def opening? (t : Token) : Option (Opening × Nat) := (Opening.ofKind? t.kind).map (·, t.line)

def blockEnds : Parser Bool := do if ← atEnd then pure true else nextIs .rightBrace

mutual

def declaration : Nat → Parser (Option Stmt)
  | 0 => outOfFuel
  | n + 1 => recovering do
    match ← accept? .kwFun with
    | some _ =>
      let head ← functionHead n
      let body ← block n
      pure (.function head.name.line head.name.lexeme head.params body)
    | none =>
      match ← accept? .kwVar with
      | some _ => varDeclaration n
      | none => statement n

def statement : Nat → Parser Stmt
  | 0 => outOfFuel
  | n + 1 => do
    match ← take? opening? with
    | none => expressionStatement n
    | some (.print, line) => printStatement n line
    | some (.branch, line) =>
      let condition ← ifHead n
      let thenBranch ← statement n
      let elseBranch ← elseBranch? n
      pure (.branch line condition thenBranch elseBranch)
    | some (.loop, line) =>
      let condition ← whileHead n
      let body ← statement n
      pure (.loop line condition body)
    | some (.forLoop, line) =>
      let head ← forHead n
      let body ← statement n
      pure (.forLoop line head.initializer head.condition head.increment body)
    | some (.result, line) => returnStatement n line
    | some (.block, line) => return .block line (← block n)

/-- An `else` belongs to the nearest `if`. -/
def elseBranch? : Nat → Parser (Option Stmt)
  | 0 => outOfFuel
  | n + 1 => do
    match ← accept? .kwElse with
    | some _ => some <$> statement n
    | none => pure none

def block : Nat → Parser (List Stmt)
  | 0 => outOfFuel
  | n + 1 => do
    if ← blockEnds then
      let _ ← expect .rightBrace .braceAfterBlock
      pure []
    else
      let s? ← declaration n
      return s?.toList ++ (← block n)

end

def program : Nat → Parser (List Stmt)
  | 0 => outOfFuel
  | n + 1 => do
    if ← atEnd then pure []
    else
      let s? ← declaration n
      return s?.toList ++ (← program n)

end Parser
end LoxLang
