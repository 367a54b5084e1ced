import LoxLang.Proofs.Parse.Accept
import LoxLang.Proofs.Parse.Placement

/-!
Parts of parsed trees, at any depth. Each declaration stands in a list of statements, whatever the tokens are;
and where nothing is wrong with them, no list of parameters or arguments is longer than 255.
-/
namespace LoxLang

namespace Stmt

/-- The statements that stand in it alone, as branches or as the body of a loop. -/
def single : Stmt → List Stmt
  | branch _ _ thenBranch elseBranch => thenBranch :: elseBranch.toList
  | loop _ _ body => [body]
  | _ => []

def listed : Stmt → List Stmt
  | block _ body | function _ _ _ body => body
  | _ => []

inductive Within (program : List Stmt) : Stmt → Prop where
  | top {s : Stmt} : s ∈ program → Within program s
  | single {s t : Stmt} : Within program s → t ∈ s.single → Within program t
  | listed {s t : Stmt} : Within program s → t ∈ s.listed → Within program t

variable {s t : Stmt} {ss program : List Stmt}

theorem AllPlaced.placed_of_mem (h : AllPlaced ss) (hs : s ∈ ss) : s.Placed := by
  induction ss with
  | nil => cases hs
  | cons t ss ih =>
    rcases List.mem_cons.mp hs with rfl | hs
    · exact h.1
    · exact ih h.2 hs

theorem Placed.inner_of_single (h : s.Placed) (ht : t ∈ s.single) : t.Inner := by
  cases s with
  | branch line condition thenBranch elseBranch =>
    cases elseBranch with
    | none =>
      obtain rfl : t = thenBranch := List.mem_singleton.mp ht
      exact h
    | some elseBranch =>
      rcases List.mem_cons.mp ht with rfl | ht
      · exact h.1
      · obtain rfl : t = elseBranch := List.mem_singleton.mp ht
        exact h.2
  | loop line condition body =>
    obtain rfl : t = body := List.mem_singleton.mp ht
    exact h
  | _ => cases ht

theorem Placed.allPlaced_listed (h : s.Placed) : AllPlaced s.listed := by
  cases s with
  | block | function => exact h
  | _ => trivial

theorem Within.placed (hs : Within program s) (h : AllPlaced program) : s.Placed := by
  induction hs with
  | top hs => exact h.placed_of_mem hs
  | single _ ht ih => exact (ih.inner_of_single ht).2
  | listed _ ht ih => exact ih.allPlaced_listed.placed_of_mem ht

/-- A declaration stands directly in the program or in a list in it. -/
theorem Within.listed_of_declares (hs : Within program s) (h : AllPlaced program)
    (hd : s.declares?.isSome) : s ∈ program ∨ ∃ t, Within program t ∧ s ∈ t.listed := by
  cases hs with
  | top hs => exact .inl hs
  | single ht hs =>
    rw [((ht.placed h).inner_of_single hs).1] at hd
    cases hd
  | @listed t _ ht hs => exact .inr ⟨t, ht, hs⟩

end Stmt

section Lists
variable (n : Nat)

mutual

def Expr.ListsAtMost : Expr → Prop
  | .literal _ _ | .reference _ _ _ => True
  | .grouping _ e | .unary _ _ e | .assign _ _ _ e => e.ListsAtMost
  | .binary _ _ left right | .logical _ _ left right => left.ListsAtMost ∧ right.ListsAtMost
  | .call _ callee arguments =>
    arguments.length ≤ n ∧ callee.ListsAtMost ∧ Expr.AllListsAtMost arguments

def Expr.AllListsAtMost : List Expr → Prop
  | [] => True
  | e :: es => e.ListsAtMost ∧ Expr.AllListsAtMost es

end

mutual

def Stmt.ListsAtMost : Stmt → Prop
  | .expression _ e | .print _ e => e.ListsAtMost n
  | .var _ _ e? | .result _ e? => ∀ e ∈ e?, e.ListsAtMost n
  | .block _ body => Stmt.AllListsAtMost body
  | .branch _ condition thenBranch none => condition.ListsAtMost n ∧ thenBranch.ListsAtMost
  | .branch _ condition thenBranch (some elseBranch) =>
    condition.ListsAtMost n ∧ thenBranch.ListsAtMost ∧ elseBranch.ListsAtMost
  | .loop _ condition body => condition.ListsAtMost n ∧ body.ListsAtMost
  | .function _ _ params body => params.length ≤ n ∧ Stmt.AllListsAtMost body

def Stmt.AllListsAtMost : List Stmt → Prop
  | [] => True
  | s :: ss => s.ListsAtMost ∧ Stmt.AllListsAtMost ss

end

end Lists

section Bare
variable {n : Nat}

theorem Expr.length_allBare (es : List Expr) : (Expr.allBare es).length = es.length := by
  induction es with
  | nil => rfl
  | cons e es ih => exact congrArg (· + 1) ih

mutual

/-- Lists are as long in the tree without lines and ids. -/
theorem Expr.listsAtMost_of_bare : {e : Expr} → e.bare.ListsAtMost n → e.ListsAtMost n
  | .literal _ _, _ | .reference _ _ _, _ => trivial
  | .grouping _ e, h | .unary _ _ e, h | .assign _ _ _ e, h => Expr.listsAtMost_of_bare (e := e) h
  | .binary _ _ _ _, h | .logical _ _ _ _, h =>
    ⟨Expr.listsAtMost_of_bare h.1, Expr.listsAtMost_of_bare h.2⟩
  | .call _ _ arguments, h =>
    ⟨Expr.length_allBare arguments ▸ h.1, Expr.listsAtMost_of_bare h.2.1,
      Expr.allListsAtMost_of_allBare h.2.2⟩

theorem Expr.allListsAtMost_of_allBare :
    {es : List Expr} → Expr.AllListsAtMost n (Expr.allBare es) → Expr.AllListsAtMost n es
  | [], _ => trivial
  | _ :: _, h => ⟨Expr.listsAtMost_of_bare h.1, Expr.allListsAtMost_of_allBare h.2⟩

end

theorem Expr.listsAtMost_of_map_bare {e? : Option Expr}
    (h : ∀ e ∈ e?.map Expr.bare, e.ListsAtMost n) : ∀ e ∈ e?, e.ListsAtMost n := by
  rintro e ⟨⟩
  exact Expr.listsAtMost_of_bare (h _ rfl)

mutual

theorem Stmt.listsAtMost_of_bare : {s : Stmt} → s.bare.ListsAtMost n → s.ListsAtMost n
  | .expression _ _, h | .print _ _, h => Expr.listsAtMost_of_bare h
  | .var _ _ _, h | .result _ _, h => Expr.listsAtMost_of_map_bare h
  | .block _ _, h => Stmt.allListsAtMost_of_allBare h
  | .branch _ _ _ none, h => ⟨Expr.listsAtMost_of_bare h.1, Stmt.listsAtMost_of_bare h.2⟩
  | .branch _ _ _ (some _), h =>
    ⟨Expr.listsAtMost_of_bare h.1, Stmt.listsAtMost_of_bare h.2.1, Stmt.listsAtMost_of_bare h.2.2⟩
  | .loop _ _ _, h => ⟨Expr.listsAtMost_of_bare h.1, Stmt.listsAtMost_of_bare h.2⟩
  | .function _ _ _ _, h => ⟨h.1, Stmt.allListsAtMost_of_allBare h.2⟩

theorem Stmt.allListsAtMost_of_allBare :
    {ss : List Stmt} → Stmt.AllListsAtMost n (Stmt.allBare ss) → Stmt.AllListsAtMost n ss
  | [], _ => trivial
  | _ :: _, h => ⟨Stmt.listsAtMost_of_bare h.1, Stmt.allListsAtMost_of_allBare h.2⟩

end

end Bare

namespace Grammar

theorem Operator.listsAtMost {left right e : Expr} {level : Level} {kind : Kind}
    (h : Operator left right level kind e) (hleft : left.ListsAtMost 255)
    (hright : right.ListsAtMost 255) : e.ListsAtMost 255 := by
  cases h <;> exact ⟨hleft, hright⟩

mutual

/-- The grammar bounds each list that it derives. -/
theorem Expression.listsAtMost : {ts : List Token} → {e : Expr} → Expression ts e →
    e.ListsAtMost 255
  | _, _, .assign _ _ hvalue => (hvalue.listsAtMost :)
  | _, _, .operand he => he.listsAtMost

theorem Operand.listsAtMost : {level : Level} → {ts : List Token} → {e : Expr} →
    Operand level ts e → e.ListsAtMost 255
  | _, _, _, .tighter _ he => he.listsAtMost
  | _, _, _, .join _ hop hleft hright => hop.listsAtMost hleft.listsAtMost hright.listsAtMost
  | _, _, _, .sign _ he => (he.listsAtMost :)
  | _, _, _, .call he => he.listsAtMost

theorem Call.listsAtMost : {ts : List Token} → {e : Expr} → Call ts e → e.ListsAtMost 255
  | _, _, .primary he => he.listsAtMost
  | _, _, .call _ _ hlength hcallee harguments =>
    ⟨hlength, hcallee.listsAtMost, harguments.listsAtMost⟩

theorem Arguments.listsAtMost : {ts : List Token} → {es : List Expr} → Arguments ts es →
    Expr.AllListsAtMost 255 es
  | _, _, .none => trivial
  | _, _, .some hes => hes.listsAtMost

theorem Items.listsAtMost : {ts : List Token} → {es : List Expr} → Items ts es →
    Expr.AllListsAtMost 255 es
  | _, _, .last he => ⟨he.listsAtMost, trivial⟩
  | _, _, .comma _ he hes => ⟨he.listsAtMost, hes.listsAtMost⟩

theorem Primary.listsAtMost : {ts : List Token} → {e : Expr} → Primary ts e → e.ListsAtMost 255
  | _, _, .constant _ | _, _, .identifier _ => trivial
  | _, _, .grouping _ _ he => (he.listsAtMost :)

end

section Clauses
variable {ts : List Token} {e? : Option Expr} {s : Stmt}

theorem Optional.listsAtMost (h : Optional ts e?) : ∀ e ∈ e?, e.ListsAtMost 255 := by
  cases h with
  | none => rintro _ ⟨⟩
  | some he => rintro _ ⟨⟩; exact he.listsAtMost

theorem Initializer.listsAtMost (h : Initializer ts e?) : ∀ e ∈ e?, e.ListsAtMost 255 := by
  cases h with
  | none => rintro _ ⟨⟩
  | some _ he => rintro _ ⟨⟩; exact he.listsAtMost

theorem Variable.listsAtMost (h : Variable ts s) : s.ListsAtMost 255 := by
  cases h with
  | mk _ _ hinitializer => exact hinitializer.listsAtMost

theorem ExpressionStatement.listsAtMost (h : ExpressionStatement ts s) : s.ListsAtMost 255 := by
  cases h with
  | mk _ he => exact he.listsAtMost

theorem ForInitializer.listsAtMost {s? : Option Stmt} (h : ForInitializer ts s?) :
    ∀ s ∈ s?, s.ListsAtMost 255 := by
  cases h with
  | none => nofun
  | var _ hs => rintro _ ⟨⟩; exact hs.listsAtMost
  | expression hs => rintro _ ⟨⟩; exact hs.listsAtMost

theorem listsAtMost_expanded {n : Nat} {initializer : Option Stmt} {condition increment : Option Expr}
    {body : Stmt} (hinitializer : ∀ s ∈ initializer, s.ListsAtMost n)
    (hcondition : ∀ e ∈ condition, e.ListsAtMost n) (hincrement : ∀ e ∈ increment, e.ListsAtMost n)
    (hbody : body.ListsAtMost n) : (expanded initializer condition increment body).ListsAtMost n := by
  have hguard : (condition.getD (.literal 0 (.bool true))).ListsAtMost n := by
    cases condition with
    | none => trivial
    | some e => exact hcondition e rfl
  have hrepeated : (repeated increment body).ListsAtMost n := by
    cases increment with
    | none => exact hbody
    | some e => exact ⟨hbody, hincrement e rfl, trivial⟩
  cases initializer with
  | none => exact ⟨hguard, hrepeated⟩
  | some s => exact ⟨hinitializer s rfl, ⟨hguard, hrepeated⟩, trivial⟩

end Clauses

section
variable {nearest : Prop}

mutual

theorem Statement.listsAtMost : {isOpen : Bool} → {ts : List Token} → {s : Stmt} →
    Statement nearest isOpen ts s → s.ListsAtMost 255
  | _, _, _, .expression hs => hs.listsAtMost
  | _, _, _, .print _ _ he => Expression.listsAtMost he
  | _, _, _, .branch _ _ _ hc hs => ⟨hc.listsAtMost, hs.listsAtMost⟩
  | _, _, _, .branchElse _ _ _ _ _ hc hs hs' =>
    ⟨hc.listsAtMost, hs.listsAtMost, hs'.listsAtMost⟩
  | _, _, _, .loop _ _ _ hc hs => ⟨hc.listsAtMost, hs.listsAtMost⟩
  | _, _, _, .forLoop _ _ _ _ hi hc hn hs =>
    listsAtMost_expanded hi.listsAtMost hc.listsAtMost hn.listsAtMost hs.listsAtMost
  | _, _, _, .result _ _ he => Optional.listsAtMost he
  | _, _, _, .block _ _ hss => Declarations.listsAtMost hss

theorem Declaration.listsAtMost : {ts : List Token} → {s : Stmt} → Declaration nearest ts s →
    s.ListsAtMost 255
  | _, _, .function _ _ _ _ _ _ _ hlength hss => ⟨hlength, hss.listsAtMost⟩
  | _, _, .var _ hs => hs.listsAtMost
  | _, _, .statement hs => hs.listsAtMost

theorem Declarations.listsAtMost : {ts : List Token} → {ss : List Stmt} →
    Declarations nearest ts ss → Stmt.AllListsAtMost 255 ss
  | _, _, .nil => trivial
  | _, _, .cons hs hss => ⟨hs.listsAtMost, hss.listsAtMost⟩

end

end

end Grammar

namespace Parsed

/-- Whatever the tokens are, no branch and no body of a loop in the tree is a declaration, so that each
declaration stands in the program itself, in a block or in the body of a function. If no fault was found, no
parameter or argument list is longer than 255. -/
theorem declarations_stand_in_lists (tokens : List Token) (firstId : NodeId) :
    let p := ofTokens tokens firstId
    (∀ s, Stmt.Within p.program s →
      (∀ t ∈ s.single, t.declares? = none) ∧
        (s.declares?.isSome → s ∈ p.program ∨ ∃ t, Stmt.Within p.program t ∧ s ∈ t.listed)) ∧
      (p.faults = [] → Stmt.AllListsAtMost 255 p.program) := by
  intro p
  have hplaced : Stmt.AllPlaced p.program := allPlaced_ofTokens tokens firstId
  refine ⟨fun s hs => ⟨fun t ht => ?_, hs.listed_of_declares hplaced⟩, fun hclean => ?_⟩
  · exact ((hs.placed hplaced).inner_of_single ht).1
  · exact Stmt.allListsAtMost_of_allBare (derives_of_faults_eq_nil hclean).listsAtMost

end Parsed
end LoxLang
