import LoxLang.Scoping
import LoxLang.Proofs.Parse.Ids

/-!
Renaming one local variable in a tree: its declaration and the references that the scope pass binds
to it get the new name, all else stays.
-/
namespace LoxLang

def Expr.names (e : Expr) : List Name := e.nodes.map Prod.fst

def Expr.namesOf (e? : Option Expr) : List Name := (Expr.nodesOf e?).map Prod.fst

mutual

def Stmt.names : Stmt → List Name
  | .expression _ e => e.names
  | .print _ e => e.names
  | .var _ name initializer => name :: Expr.namesOf initializer
  | .block _ body => Stmt.allNames body
  | .branch _ condition thenBranch none => condition.names ++ thenBranch.names
  | .branch _ condition thenBranch (some elseBranch) =>
    condition.names ++ thenBranch.names ++ elseBranch.names
  | .loop _ condition body => condition.names ++ body.names
  | .function _ name params body => name :: params ++ Stmt.allNames body
  | .result _ value => Expr.namesOf value

def Stmt.allNames : List Stmt → List Name
  | [] => []
  | s :: ss => s.names ++ Stmt.allNames ss

end

mutual

def Expr.mapNames (f : Name → NodeId → Name) : Expr → Expr
  | .literal line l => .literal line l
  | .grouping line inner => .grouping line (inner.mapNames f)
  | .unary line op operand => .unary line op (operand.mapNames f)
  | .binary line op left right => .binary line op (left.mapNames f) (right.mapNames f)
  | .logical line op left right => .logical line op (left.mapNames f) (right.mapNames f)
  | .reference line name id => .reference line (f name id) id
  | .assign line name id value => .assign line (f name id) id (value.mapNames f)
  | .call line callee arguments => .call line (callee.mapNames f) (Expr.mapAllNames f arguments)

def Expr.mapAllNames (f : Name → NodeId → Name) : List Expr → List Expr
  | [] => []
  | e :: es => e.mapNames f :: Expr.mapAllNames f es

end

section Rename
variable (T : Distances) (x y : Name)

/-- The new name of a node that lies `depth` scopes inside the scope of the variable. -/
def renamedNode (depth : Nat) (name : Name) (id : NodeId) : Name :=
  if name = x ∧ T[id]? = some depth then y else name

def renamedDeclaration (depth : Nat) (name : Name) : Name :=
  if name = x ∧ depth = 0 then y else name

mutual

def Stmt.renameAt (depth : Nat) : Stmt → Stmt
  | .expression line e => .expression line (e.mapNames (renamedNode T x y depth))
  | .print line e => .print line (e.mapNames (renamedNode T x y depth))
  | .var line name initializer =>
    .var line (renamedDeclaration x y depth name)
      (initializer.map (·.mapNames (renamedNode T x y depth)))
  | .block line body => .block line (Stmt.allRenameAt (depth + 1) body)
  | .branch line condition thenBranch none =>
    .branch line (condition.mapNames (renamedNode T x y depth)) (thenBranch.renameAt depth) none
  | .branch line condition thenBranch (some elseBranch) =>
    .branch line (condition.mapNames (renamedNode T x y depth)) (thenBranch.renameAt depth)
      (some (elseBranch.renameAt depth))
  | .loop line condition body =>
    .loop line (condition.mapNames (renamedNode T x y depth)) (body.renameAt depth)
  | .function line name params body =>
    .function line name params (Stmt.allRenameAt (depth + 1) body)
  | .result line value => .result line (value.map (·.mapNames (renamedNode T x y depth)))

def Stmt.allRenameAt (depth : Nat) : List Stmt → List Stmt
  | [] => []
  | s :: ss => s.renameAt depth :: Stmt.allRenameAt depth ss

end

def Stmt.DeclareVar (ss : List Stmt) : Prop := ∃ line initializer, .var line x initializer ∈ ss

mutual

/-- The same tree, but for one local variable or parameter that is called `y` instead of `x`. -/
inductive Stmt.Renamed : Stmt → Stmt → Prop where
  | block (line : Nat) {body : List Stmt} :
    Stmt.DeclareVar x body →
      Stmt.Renamed (.block line body) (.block line (Stmt.allRenameAt T x y 0 body))
  | function (line : Nat) (name : Name) {params : List Name} {body : List Stmt} :
    x ∈ params ∨ Stmt.DeclareVar x body →
      Stmt.Renamed (.function line name params body)
        (.function line name (params.map (renamedDeclaration x y 0)) (Stmt.allRenameAt T x y 0 body))
  | inBlock (line : Nat) {body body' : List Stmt} :
    Stmt.AllRenamed body body' → Stmt.Renamed (.block line body) (.block line body')
  | inThen (line : Nat) (condition : Expr) {s s' : Stmt} (elseBranch : Option Stmt) :
    Stmt.Renamed s s' →
      Stmt.Renamed (.branch line condition s elseBranch) (.branch line condition s' elseBranch)
  | inElse (line : Nat) (condition : Expr) (thenBranch : Stmt) {s s' : Stmt} :
    Stmt.Renamed s s' →
      Stmt.Renamed (.branch line condition thenBranch (some s))
        (.branch line condition thenBranch (some s'))
  | inLoop (line : Nat) (condition : Expr) {body body' : Stmt} :
    Stmt.Renamed body body' →
      Stmt.Renamed (.loop line condition body) (.loop line condition body')
  | inFunction (line : Nat) (name : Name) (params : List Name) {body body' : List Stmt} :
    Stmt.AllRenamed body body' →
      Stmt.Renamed (.function line name params body) (.function line name params body')

inductive Stmt.AllRenamed : List Stmt → List Stmt → Prop where
  | head {s s' : Stmt} (ss : List Stmt) : Stmt.Renamed s s' → Stmt.AllRenamed (s :: ss) (s' :: ss)
  | tail (s : Stmt) {ss ss' : List Stmt} : Stmt.AllRenamed ss ss' → Stmt.AllRenamed (s :: ss) (s :: ss')

end

end Rename

mutual

theorem Expr.mapNames_congr {f g : Name → NodeId → Name} : (e : Expr) →
    (∀ node ∈ e.nodes, f node.1 node.2 = g node.1 node.2) → e.mapNames f = e.mapNames g
  | .literal _ _, _ => rfl
  | .grouping _ inner, h => congrArg _ (inner.mapNames_congr h)
  | .unary _ _ operand, h => congrArg _ (operand.mapNames_congr h)
  | .binary _ _ left right, h | .logical _ _ left right, h => by
    rw [Expr.mapNames, Expr.mapNames, left.mapNames_congr fun n hn => h n (List.mem_append_left _ hn),
      right.mapNames_congr fun n hn => h n (List.mem_append_right _ hn)]
  | .reference _ name id, h => by
    rw [Expr.mapNames, Expr.mapNames, h (name, id) (List.mem_singleton_self _)]
  | .assign _ name id value, h => by
    rw [Expr.mapNames, Expr.mapNames, h (name, id) List.mem_cons_self,
      value.mapNames_congr fun n hn => h n (List.mem_cons_of_mem _ hn)]
  | .call _ callee arguments, h => by
    rw [Expr.mapNames, Expr.mapNames,
      callee.mapNames_congr fun n hn => h n (List.mem_append_left _ hn),
      Expr.mapAllNames_congr arguments fun n hn => h n (List.mem_append_right _ hn)]

theorem Expr.mapAllNames_congr {f g : Name → NodeId → Name} : (es : List Expr) →
    (∀ node ∈ Expr.allNodes es, f node.1 node.2 = g node.1 node.2) →
      Expr.mapAllNames f es = Expr.mapAllNames g es
  | [], _ => rfl
  | e :: es, h => by
    rw [Expr.mapAllNames, Expr.mapAllNames,
      e.mapNames_congr fun n hn => h n (List.mem_append_left _ hn),
      Expr.mapAllNames_congr es fun n hn => h n (List.mem_append_right _ hn)]

end

mutual

theorem Expr.mapNames_id : (e : Expr) → e.mapNames (fun name _ => name) = e
  | .literal _ _ | .reference _ _ _ => rfl
  | .grouping _ inner => congrArg _ inner.mapNames_id
  | .unary _ _ operand => congrArg _ operand.mapNames_id
  | .binary _ _ left right | .logical _ _ left right => by
    rw [Expr.mapNames, left.mapNames_id, right.mapNames_id]
  | .assign _ _ _ value => congrArg _ value.mapNames_id
  | .call _ callee arguments => by
    rw [Expr.mapNames, callee.mapNames_id, Expr.mapAllNames_id arguments]

theorem Expr.mapAllNames_id : (es : List Expr) → Expr.mapAllNames (fun name _ => name) es = es
  | [] => rfl
  | e :: es => by rw [Expr.mapAllNames, e.mapNames_id, Expr.mapAllNames_id es]

end

/-- Where the new names are the old ones, the expression stays. -/
theorem Expr.mapNames_eq_self {f : Name → NodeId → Name} (h : ∀ name id, f name id = name) (e : Expr) :
    e.mapNames f = e :=
  (e.mapNames_congr fun node _ => h node.1 node.2).trans e.mapNames_id

end LoxLang
