import LoxLang.Parse.Program

/-!
The grammar, as derivations of trees from tokens. Derived trees have no lines and no ids: all of them
are zero.
-/
namespace LoxLang

mutual

def Expr.bare : Expr → Expr
  | .literal _ value => .literal 0 value
  | .grouping _ inner => .grouping 0 inner.bare
  | .unary _ op operand => .unary 0 op operand.bare
  | .binary _ op left right => .binary 0 op left.bare right.bare
  | .logical _ op left right => .logical 0 op left.bare right.bare
  | .reference _ name _ => .reference 0 name 0
  | .assign _ name _ value => .assign 0 name 0 value.bare
  | .call _ callee arguments => .call 0 callee.bare (Expr.allBare arguments)

def Expr.allBare : List Expr → List Expr
  | [] => []
  | e :: es => e.bare :: Expr.allBare es

end

mutual

def Stmt.bare : Stmt → Stmt
  | .expression _ e => .expression 0 e.bare
  | .print _ e => .print 0 e.bare
  | .var _ name initializer => .var 0 name (initializer.map Expr.bare)
  | .block _ body => .block 0 (Stmt.allBare body)
  | .branch _ condition thenBranch none => .branch 0 condition.bare thenBranch.bare none
  | .branch _ condition thenBranch (some elseBranch) =>
    .branch 0 condition.bare thenBranch.bare (some elseBranch.bare)
  | .loop _ condition body => .loop 0 condition.bare body.bare
  | .function _ name params body => .function 0 name params (Stmt.allBare body)
  | .result _ value => .result 0 (value.map Expr.bare)

def Stmt.allBare : List Stmt → List Stmt
  | [] => []
  | s :: ss => s.bare :: Stmt.allBare ss

end

namespace Grammar

inductive Tightens : Level → Level → Prop where
  | or : Tightens .or .and
  | and : Tightens .and .equality
  | equality : Tightens .equality .comparison
  | comparison : Tightens .comparison .term
  | term : Tightens .term .factor
  | factor : Tightens .factor .unary

section
variable (left right : Expr)

inductive Operator : Level → Kind → Expr → Prop where
  | or : Operator .or .kwOr (.logical 0 .or left right)
  | and : Operator .and .kwAnd (.logical 0 .and left right)
  | notEqual : Operator .equality .bangEqual (.binary 0 .notEqual left right)
  | equal : Operator .equality .equalEqual (.binary 0 .equal left right)
  | greater : Operator .comparison .greater (.binary 0 .greater left right)
  | greaterEqual : Operator .comparison .greaterEqual (.binary 0 .greaterEqual left right)
  | less : Operator .comparison .less (.binary 0 .less left right)
  | lessEqual : Operator .comparison .lessEqual (.binary 0 .lessEqual left right)
  | subtract : Operator .term .minus (.binary 0 .subtract left right)
  | add : Operator .term .plus (.binary 0 .add left right)
  | divide : Operator .factor .slash (.binary 0 .divide left right)
  | multiply : Operator .factor .star (.binary 0 .multiply left right)

end

inductive Sign : Kind → UnaryOp → Prop where
  | negate : Sign .minus .negate
  | not : Sign .bang .not

inductive Constant (t : Token) : Literal → Prop where
  | false : t.kind = .kwFalse → Constant t (.bool false)
  | true : t.kind = .kwTrue → Constant t (.bool true)
  | nil : t.kind = .kwNil → Constant t .nil
  | number : t.kind = .number → Constant t (t.literal.getD .nil)
  | string : t.kind = .string → Constant t (t.literal.getD .nil)

mutual

inductive Expression : List Token → Expr → Prop where
  | assign {name equals : Token} {ts : List Token} {value : Expr} :
    name.kind = .identifier → equals.kind = .equal → Expression ts value →
      Expression (name :: equals :: ts) (.assign 0 name.lexeme 0 value)
  | operand {ts : List Token} {e : Expr} : Operand .or ts e → Expression ts e

/-- The operators of a level stand between operands of the next one and associate to the left. -/
inductive Operand : Level → List Token → Expr → Prop where
  | tighter {level next : Level} {ts : List Token} {e : Expr} :
    Tightens level next → Operand next ts e → Operand level ts e
  | join {level next : Level} {ts us : List Token} {op : Token} {left right e : Expr} :
    Tightens level next → Operator left right level op.kind e → Operand level ts left →
      Operand next us right → Operand level (ts ++ op :: us) e
  | sign {t : Token} {op : UnaryOp} {ts : List Token} {e : Expr} :
    Sign t.kind op → Operand .unary ts e → Operand .unary (t :: ts) (.unary 0 op e)
  | call {ts : List Token} {e : Expr} : Call ts e → Operand .unary ts e

inductive Call : List Token → Expr → Prop where
  | primary {ts : List Token} {e : Expr} : Primary ts e → Call ts e
  | call {opening closing : Token} {ts us : List Token} {callee : Expr} {arguments : List Expr} :
    opening.kind = .leftParen → closing.kind = .rightParen → arguments.length ≤ 255 →
      Call ts callee → Arguments us arguments →
        Call (ts ++ opening :: (us ++ [closing])) (.call 0 callee arguments)

inductive Arguments : List Token → List Expr → Prop where
  | none : Arguments [] []
  | some {ts : List Token} {es : List Expr} : Items ts es → Arguments ts es

inductive Items : List Token → List Expr → Prop where
  | last {ts : List Token} {e : Expr} : Expression ts e → Items ts [e]
  | comma {comma : Token} {ts us : List Token} {e : Expr} {es : List Expr} :
    comma.kind = .comma → Expression ts e → Items us es → Items (ts ++ comma :: us) (e :: es)

inductive Primary : List Token → Expr → Prop where
  | constant {t : Token} {value : Literal} : Constant t value → Primary [t] (.literal 0 value)
  | identifier {t : Token} : t.kind = .identifier → Primary [t] (.reference 0 t.lexeme 0)
  | grouping {opening closing : Token} {ts : List Token} {e : Expr} :
    opening.kind = .leftParen → closing.kind = .rightParen → Expression ts e →
      Primary (opening :: (ts ++ [closing])) (.grouping 0 e)

end

inductive Optional : List Token → Option Expr → Prop where
  | none : Optional [] none
  | some {ts : List Token} {e : Expr} : Expression ts e → Optional ts (some e)

inductive Initializer : List Token → Option Expr → Prop where
  | none : Initializer [] none
  | some {equals : Token} {ts : List Token} {e : Expr} :
    equals.kind = .equal → Expression ts e → Initializer (equals :: ts) (some e)

inductive Variable : List Token → Stmt → Prop where
  | mk {name semicolon : Token} {ts : List Token} {initializer : Option Expr} :
    name.kind = .identifier → semicolon.kind = .semicolon → Initializer ts initializer →
      Variable (name :: (ts ++ [semicolon])) (.var 0 name.lexeme initializer)

inductive ExpressionStatement : List Token → Stmt → Prop where
  | mk {semicolon : Token} {ts : List Token} {e : Expr} :
    semicolon.kind = .semicolon → Expression ts e →
      ExpressionStatement (ts ++ [semicolon]) (.expression 0 e)

inductive ForInitializer : List Token → Option Stmt → Prop where
  | none {semicolon : Token} : semicolon.kind = .semicolon → ForInitializer [semicolon] none
  | var {keyword : Token} {ts : List Token} {s : Stmt} :
    keyword.kind = .kwVar → Variable ts s → ForInitializer (keyword :: ts) (some s)
  | expression {ts : List Token} {s : Stmt} :
    ExpressionStatement ts s → ForInitializer ts (some s)

inductive Names : List Token → List Name → Prop where
  | last {t : Token} : t.kind = .identifier → Names [t] [t.lexeme]
  | comma {t comma : Token} {ts : List Token} {names : List Name} :
    t.kind = .identifier → comma.kind = .comma → Names ts names →
      Names (t :: comma :: ts) (t.lexeme :: names)

inductive Parameters : List Token → List Name → Prop where
  | none : Parameters [] []
  | some {ts : List Token} {names : List Name} : Names ts names → Parameters ts names

def repeated (increment : Option Expr) (body : Stmt) : Stmt :=
  match increment with
  | some e => .block 0 [body, .expression 0 e]
  | none => body

/-- A `for` loop is a `while` loop in a block with the initializer. -/
def expanded (initializer : Option Stmt) (condition increment : Option Expr) (body : Stmt) : Stmt :=
  let loop := .loop 0 (condition.getD (.literal 0 (.bool true))) (repeated increment body)
  match initializer with
  | some s => .block 0 [s, loop]
  | none => loop

theorem bare_forLoop (line : Nat) (initializer : Option Stmt) (condition increment : Option Expr)
    (body : Stmt) :
    (Stmt.forLoop line initializer condition increment body).bare =
      expanded (initializer.map Stmt.bare) (condition.map Expr.bare) (increment.map Expr.bare)
        body.bare := by
  cases initializer <;> cases condition <;> cases increment <;> rfl

section
variable (nearest : Prop)

mutual

/-- The flag tells whether the statement ends in an `if` that an `else` could still follow. Where
`nearest` holds, no other `if` takes that `else`. -/
inductive Statement : Bool → List Token → Stmt → Prop where
  | expression {ts : List Token} {s : Stmt} : ExpressionStatement ts s → Statement false ts s
  | print {keyword semicolon : Token} {ts : List Token} {e : Expr} :
    keyword.kind = .kwPrint → semicolon.kind = .semicolon → Expression ts e →
      Statement false (keyword :: (ts ++ [semicolon])) (.print 0 e)
  | branch {keyword opening closing : Token} {cs ts : List Token} {condition : Expr}
    {isOpen : Bool} {thenBranch : Stmt} :
    keyword.kind = .kwIf → opening.kind = .leftParen → closing.kind = .rightParen →
      Expression cs condition → Statement isOpen ts thenBranch →
        Statement true (keyword :: opening :: (cs ++ closing :: ts))
          (.branch 0 condition thenBranch none)
  | branchElse {keyword opening closing keywordElse : Token} {cs ts us : List Token}
    {condition : Expr} {isOpen isOpenElse : Bool} {thenBranch elseBranch : Stmt} :
    keyword.kind = .kwIf → opening.kind = .leftParen → closing.kind = .rightParen →
      keywordElse.kind = .kwElse → (nearest → isOpen = false) → Expression cs condition →
        Statement isOpen ts thenBranch → Statement isOpenElse us elseBranch →
          Statement isOpenElse (keyword :: opening :: (cs ++ closing :: (ts ++ keywordElse :: us)))
            (.branch 0 condition thenBranch (some elseBranch))
  | loop {keyword opening closing : Token} {cs ts : List Token} {condition : Expr} {isOpen : Bool}
    {body : Stmt} :
    keyword.kind = .kwWhile → opening.kind = .leftParen → closing.kind = .rightParen →
      Expression cs condition → Statement isOpen ts body →
        Statement isOpen (keyword :: opening :: (cs ++ closing :: ts)) (.loop 0 condition body)
  | forLoop {keyword opening semicolon closing : Token} {is cs ns ts : List Token}
    {initializer : Option Stmt} {condition increment : Option Expr} {isOpen : Bool} {body : Stmt} :
    keyword.kind = .kwFor → opening.kind = .leftParen → semicolon.kind = .semicolon →
      closing.kind = .rightParen → ForInitializer is initializer → Optional cs condition →
        Optional ns increment → Statement isOpen ts body →
          Statement isOpen
            (keyword :: opening :: (is ++ (cs ++ semicolon :: (ns ++ closing :: ts))))
            (expanded initializer condition increment body)
  | result {keyword semicolon : Token} {ts : List Token} {value : Option Expr} :
    keyword.kind = .kwReturn → semicolon.kind = .semicolon → Optional ts value →
      Statement false (keyword :: (ts ++ [semicolon])) (.result 0 value)
  | block {opening closing : Token} {ts : List Token} {body : List Stmt} :
    opening.kind = .leftBrace → closing.kind = .rightBrace → Declarations ts body →
      Statement false (opening :: (ts ++ [closing])) (.block 0 body)

inductive Declaration : List Token → Stmt → Prop where
  | function {keyword name opening closing brace closingBrace : Token} {ps ts : List Token}
    {params : List Name} {body : List Stmt} :
    keyword.kind = .kwFun → name.kind = .identifier → opening.kind = .leftParen →
      closing.kind = .rightParen → brace.kind = .leftBrace → closingBrace.kind = .rightBrace →
        Parameters ps params → params.length ≤ 255 → Declarations ts body →
          Declaration
            (keyword :: name :: opening :: (ps ++ closing :: brace :: (ts ++ [closingBrace])))
            (.function 0 name.lexeme params body)
  | var {keyword : Token} {ts : List Token} {s : Stmt} :
    keyword.kind = .kwVar → Variable ts s → Declaration (keyword :: ts) s
  | statement {isOpen : Bool} {ts : List Token} {s : Stmt} :
    Statement isOpen ts s → Declaration ts s

inductive Declarations : List Token → List Stmt → Prop where
  | nil : Declarations [] []
  | cons {ts us : List Token} {s : Stmt} {ss : List Stmt} :
    Declaration ts s → Declarations us ss → Declarations (ts ++ us) (s :: ss)

end

end

end Grammar
end LoxLang
