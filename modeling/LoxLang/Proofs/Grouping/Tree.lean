import Mathlib.Logic.Basic
import LoxLang.Scoping

/-!
Trees without their parentheses. The scope pass finds in a program what it finds in the program without
them, at whatever depth they stand.
-/
namespace LoxLang

mutual

def Expr.ungrouped : Expr → Expr
  | .literal line l => .literal line l
  | .grouping _ inner => inner.ungrouped
  | .unary line op operand => .unary line op operand.ungrouped
  | .binary line op left right => .binary line op left.ungrouped right.ungrouped
  | .logical line op left right => .logical line op left.ungrouped right.ungrouped
  | .reference line name id => .reference line name id
  | .assign line name id value => .assign line name id value.ungrouped
  | .call line callee arguments => .call line callee.ungrouped (Expr.allUngrouped arguments)

def Expr.allUngrouped : List Expr → List Expr
  | [] => []
  | e :: es => e.ungrouped :: Expr.allUngrouped es

end

mutual

def Stmt.ungrouped : Stmt → Stmt
  | .expression line e => .expression line e.ungrouped
  | .print line e => .print line e.ungrouped
  | .var line name initializer => .var line name (initializer.map Expr.ungrouped)
  | .block line body => .block line (Stmt.allUngrouped body)
  | .branch line condition thenBranch none =>
    .branch line condition.ungrouped thenBranch.ungrouped none
  | .branch line condition thenBranch (some elseBranch) =>
    .branch line condition.ungrouped thenBranch.ungrouped (some elseBranch.ungrouped)
  | .loop line condition body => .loop line condition.ungrouped body.ungrouped
  | .function line name params body => .function line name params (Stmt.allUngrouped body)
  | .result line value => .result line (value.map Expr.ungrouped)

def Stmt.allUngrouped : List Stmt → List Stmt
  | [] => []
  | s :: ss => s.ungrouped :: Stmt.allUngrouped ss

end

@[simp] theorem Stmt.ungrouped_branch (line : Nat) (condition : Expr) (thenBranch : Stmt)
    (elseBranch : Option Stmt) : (Stmt.branch line condition thenBranch elseBranch).ungrouped =
      .branch line condition.ungrouped thenBranch.ungrouped (elseBranch.map Stmt.ungrouped) := by
  cases elseBranch <;> rfl

mutual

theorem Expr.ungrouped_ungrouped : (e : Expr) → e.ungrouped.ungrouped = e.ungrouped
  | .literal _ _ | .reference _ _ _ => rfl
  | .grouping _ inner => inner.ungrouped_ungrouped
  | .unary line op operand => congrArg (Expr.unary line op) operand.ungrouped_ungrouped
  | .binary line op left right =>
    congrArg₂ (Expr.binary line op) left.ungrouped_ungrouped right.ungrouped_ungrouped
  | .logical line op left right =>
    congrArg₂ (Expr.logical line op) left.ungrouped_ungrouped right.ungrouped_ungrouped
  | .assign line name id value => congrArg (Expr.assign line name id) value.ungrouped_ungrouped
  | .call line callee arguments =>
    congrArg₂ (Expr.call line) callee.ungrouped_ungrouped (Expr.allUngrouped_allUngrouped arguments)

theorem Expr.allUngrouped_allUngrouped : (es : List Expr) →
    Expr.allUngrouped (Expr.allUngrouped es) = Expr.allUngrouped es
  | [] => rfl
  | e :: es => congrArg₂ List.cons e.ungrouped_ungrouped (Expr.allUngrouped_allUngrouped es)

end

mutual

theorem Stmt.ungrouped_ungrouped : (s : Stmt) → s.ungrouped.ungrouped = s.ungrouped
  | .expression line e => congrArg (Stmt.expression line) e.ungrouped_ungrouped
  | .print line e => congrArg (Stmt.print line) e.ungrouped_ungrouped
  | .var _ _ none | .result _ none => rfl
  | .var line name (some e) => congrArg (Stmt.var line name ∘ some) e.ungrouped_ungrouped
  | .block line body => congrArg (Stmt.block line) (Stmt.allUngrouped_allUngrouped body)
  | .branch line condition thenBranch none =>
    congrArg₂ (Stmt.branch line · · none) condition.ungrouped_ungrouped
      thenBranch.ungrouped_ungrouped
  | .branch line condition thenBranch (some elseBranch) => by
    simp only [Stmt.ungrouped, condition.ungrouped_ungrouped, thenBranch.ungrouped_ungrouped,
      elseBranch.ungrouped_ungrouped]
  | .loop line condition body =>
    congrArg₂ (Stmt.loop line) condition.ungrouped_ungrouped body.ungrouped_ungrouped
  | .function line name params body =>
    congrArg (Stmt.function line name params) (Stmt.allUngrouped_allUngrouped body)
  | .result line (some e) => congrArg (Stmt.result line ∘ some) e.ungrouped_ungrouped

theorem Stmt.allUngrouped_allUngrouped : (ss : List Stmt) →
    Stmt.allUngrouped (Stmt.allUngrouped ss) = Stmt.allUngrouped ss
  | [] => rfl
  | s :: ss => congrArg₂ List.cons s.ungrouped_ungrouped (Stmt.allUngrouped_allUngrouped ss)

end

namespace Scoping

theorem refersOnlyTo_ungrouped (name : Name) : (e : Expr) →
    refersOnlyTo name e.ungrouped = refersOnlyTo name e
  | .grouping _ inner => refersOnlyTo_ungrouped name inner
  | .literal _ _ | .unary _ _ _ | .binary _ _ _ _ | .logical _ _ _ _ | .reference _ _ _
  | .assign _ _ _ _ | .call _ _ _ => rfl

mutual

theorem expr_ungrouped : (e : Expr) → (p : Pass) → expr e.ungrouped p = expr e p
  | .literal _ _, _ | .reference _ _ _, _ => rfl
  | .grouping _ inner, p => expr_ungrouped inner p
  | .unary _ _ operand, p => expr_ungrouped operand p
  | .binary _ _ left right, p | .logical _ _ left right, p => by
    rw [Expr.ungrouped, expr, expr, expr_ungrouped left, expr_ungrouped right]
  | .assign _ name id value, p => congrArg (Pass.bind name id) (expr_ungrouped value p)
  | .call _ callee arguments, p => by
    rw [Expr.ungrouped, expr, expr, expr_ungrouped callee, exprs_ungrouped arguments]

theorem exprs_ungrouped : (es : List Expr) → (p : Pass) → exprs (Expr.allUngrouped es) p = exprs es p
  | [], _ => rfl
  | e :: es, p => by rw [Expr.allUngrouped, exprs, exprs, expr_ungrouped e, exprs_ungrouped es]

end

mutual

theorem stmt_ungrouped : (s : Stmt) → (p : Pass) → stmt s.ungrouped p = stmt s p
  | .expression _ e, p | .print _ e, p => expr_ungrouped e p
  | .var _ _ none, _ | .result _ none, _ => rfl
  | .var line name (some e), p => by
    simp only [Stmt.ungrouped, Option.map_some, stmt, initializer, refersOnlyTo_ungrouped,
      expr_ungrouped]
  | .block _ body, p => congrArg Pass.closed (stmts_ungrouped body p.opened)
  | .branch _ condition thenBranch none, p => by
    rw [Stmt.ungrouped, stmt, stmt, expr_ungrouped, stmt_ungrouped thenBranch]
  | .branch _ condition thenBranch (some elseBranch), p => by
    rw [Stmt.ungrouped, stmt, stmt, expr_ungrouped, stmt_ungrouped thenBranch,
      stmt_ungrouped elseBranch]
  | .loop _ condition body, p => by
    rw [Stmt.ungrouped, stmt, stmt, expr_ungrouped, stmt_ungrouped body]
  | .function _ _ _ body, p => congrArg Pass.leaveFunction (stmts_ungrouped body _)
  | .result _ (some e), p => expr_ungrouped e _

theorem stmts_ungrouped : (ss : List Stmt) → (p : Pass) → stmts (Stmt.allUngrouped ss) p = stmts ss p
  | [], _ => rfl
  | s :: ss, p => by rw [Stmt.allUngrouped, stmts, stmts, stmt_ungrouped s, stmts_ungrouped ss]

end

theorem distances_ungrouped (program : List Stmt) :
    distances (Stmt.allUngrouped program) = distances program := by
  rw [distances, stmts_ungrouped, distances]

end Scoping
end LoxLang
