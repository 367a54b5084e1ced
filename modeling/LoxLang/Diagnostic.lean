/-!
What can be wrong with a source before it runs: each diagnostic has a line, a place and a cause.
-/
namespace LoxLang

inductive Expectation where
  | functionName | parenAfterFunctionName | parameterName | parenAfterParameters | braceBeforeBody
  | variableName | semicolonAfterVariable | semicolonAfterValue | semicolonAfterExpression
  | parenAfterIf | parenAfterIfCondition | parenAfterWhile | parenAfterCondition
  | parenAfterFor | semicolonAfterLoopCondition | parenAfterForClauses | semicolonAfterReturnValue
  | parenAfterArguments | expression | parenAfterExpression | braceAfterBlock
deriving DecidableEq, Repr

def Expectation.phrase : Expectation → String
  | functionName => "function name"
  | parenAfterFunctionName => "'(' after function name"
  | parameterName => "parameter name"
  | parenAfterParameters => "')' after parameters"
  | braceBeforeBody => "'\x7b' before function body"
  | variableName => "variable name"
  | semicolonAfterVariable => "';' after variable declaration"
  | semicolonAfterValue => "';' after value"
  | semicolonAfterExpression => "';' after expression"
  | parenAfterIf => "'(' after 'if'"
  | parenAfterIfCondition => "')' after if condition"
  | parenAfterWhile => "'(' after 'while'"
  | parenAfterCondition => "')' after condition"
  | parenAfterFor => "'(' after 'for'"
  | semicolonAfterLoopCondition => "';' after loop condition"
  | parenAfterForClauses => "')' after for clauses"
  | semicolonAfterReturnValue => "';' after return value"
  | parenAfterArguments => "')' after arguments"
  | expression => "expression"
  | parenAfterExpression => "')' after expression"
  | braceAfterBlock => "'\x7d' after block"

inductive Cause where
  | unexpectedCharacter
  | unterminatedString
  | expected (what : Expectation)
  | tooManyParameters
  | tooManyArguments
  | invalidAssignmentTarget
  | ownInitializer
  | alreadyDeclared
  | topLevelReturn
deriving DecidableEq, Repr

def Cause.message : Cause → String
  | unexpectedCharacter => "Unexpected character."
  | unterminatedString => "Unterminated string."
  | expected what => "Expect " ++ what.phrase ++ "."
  | tooManyParameters => "Can't have more than 255 parameters."
  | tooManyArguments => "Can't have more than 255 arguments."
  | invalidAssignmentTarget => "Invalid assignment target."
  | ownInitializer => "Can't read local variable in its own initializer."
  | alreadyDeclared => "Already a variable with this name in this scope."
  | topLevelReturn => "Can't return from top-level code."

inductive Place where
  | unmatched
  | atEnd
  | at (lexeme : String)
deriving DecidableEq, Repr

def Place.phrase : Place → String
  | unmatched => ""
  | atEnd => " at end"
  | .at lexeme => " at '" ++ lexeme ++ "'"

structure Diagnostic where
  line : Nat
  place : Place
  cause : Cause
deriving DecidableEq, Repr

def Diagnostic.message (d : Diagnostic) : String :=
  "[line " ++ toString d.line ++ "] Error" ++ d.place.phrase ++ ": " ++ d.cause.message

end LoxLang
