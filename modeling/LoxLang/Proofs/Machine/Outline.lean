import Mathlib.Data.Option.Basic
import LoxLang.Value.Operator

/-!
The outline of a value: all that operators, conditions and `print` see of it. Two values with one outline
are the same to them.
-/
namespace LoxLang

def Value.outline : Value → Value
  | .function f => .function { f with params := [], body := [], closure := 0 }
  | v => v

namespace Value

@[simp] theorem text_outline (v : Value) : v.outline.text = v.text := by
  cases v <;> rfl

@[simp] theorem truthy_outline (v : Value) : v.outline.truthy = v.truthy := by
  cases v <;> rfl

@[simp] theorem equal_outline (v w : Value) : v.outline.equal w.outline = v.equal w := by
  cases v <;> cases w <;> rfl

@[simp] theorem add_outline (v w : Value) : add v.outline w.outline = add v w := by
  cases v <;> cases w <;> rfl

@[simp] theorem onNumbers_outline (f : Float → Float → Value) (v w : Value) :
    onNumbers f v.outline w.outline = onNumbers f v w := by
  cases v <;> cases w <;> rfl

end Value

@[simp] theorem UnaryOp.apply_outline (op : UnaryOp) (v : Value) : op.apply v.outline = op.apply v := by
  cases op <;> cases v <;> rfl

@[simp] theorem BinaryOp.apply_outline (op : BinaryOp) (v w : Value) :
    op.apply v.outline w.outline = op.apply v w := by
  cases op <;> simp [BinaryOp.apply]

section
variable {v v' w w' : Value}

theorem Value.text_of_outline (h : v'.outline = v.outline) : v'.text = v.text := by
  rw [← v'.text_outline, h, v.text_outline]

theorem Value.truthy_of_outline (h : v'.outline = v.outline) : v'.truthy = v.truthy := by
  rw [← v'.truthy_outline, h, v.truthy_outline]

theorem UnaryOp.apply_of_outline (op : UnaryOp) (h : v'.outline = v.outline) :
    op.apply v' = op.apply v := by
  rw [← op.apply_outline v', h, op.apply_outline v]

theorem BinaryOp.apply_of_outline (op : BinaryOp) (hv : v'.outline = v.outline)
    (hw : w'.outline = w.outline) : op.apply v' w' = op.apply v w := by
  rw [← op.apply_outline v' w', hv, hw, op.apply_outline v w]

theorem LogicalOp.stopsAt_of_outline (op : LogicalOp) (h : v'.outline = v.outline) :
    op.stopsAt v' = op.stopsAt v := by
  cases op <;> simp [LogicalOp.stopsAt, Value.truthy_of_outline h]

end

section
variable {α β : Type} {R S : α → β → Prop} {a? : Option α} {b? : Option β}

theorem rel_imp (h : Option.Rel R a? b?) (hRS : ∀ a b, R a b → S a b) : Option.Rel S a? b? := by
  cases h with
  | none => exact .none
  | some h => exact .some (hRS _ _ h)

theorem rel_map {γ δ : Type} {T : γ → δ → Prop} {f : α → γ} {g : β → δ} (h : Option.Rel R a? b?)
    (hRT : ∀ a b, a? = some a → b? = some b → R a b → T (f a) (g b)) :
    Option.Rel T (a?.map f) (b?.map g) := by
  cases h with
  | none => exact .none
  | some h => exact .some (hRT _ _ rfl rfl h)

theorem isSome_eq_of_rel (h : Option.Rel R a? b?) : b?.isSome = a?.isSome := by
  cases h <;> rfl

end
end LoxLang
