import Calculator.Proofs.Queue
import Calculator.Proofs.Reordering

/-!
The parentheses that a tree is written with. They are enough for the grammar: the tokens of a tree
derive the tree. So bringing them into postfix order gives the postfix order of the tree, and from
that the tree is built again.
-/

namespace Calculator

open Grammar

theorem Grammar.Derives.parensIf {c d : Category} {ts : List Token} {e : Expr}
    (h : Derives c ts e) (needed : Bool) (hfits : needed = false → d.level ≤ c.level) :
    Derives d (Expr.parensIf needed ts) e := by
  cases needed with
  | true =>
      have hgroup : Derives .atom (.leftParen :: ts ++ [.rightParen]) e :=
        .group (h.lower .sum (by cases c <;> decide))
      exact hgroup.lower d (by cases d <;> decide)
  | false => exact h.lower d (hfits rfl)

namespace Expr

/-- The category of a tree's tokens, which its root decides. -/
def category : Expr → Category
  | number _ => .atom
  | binary op _ _ => op.category
  | apply _ _ => .operand

/-- An operand is written in parentheses exactly if its place asks for a higher level. -/
theorem needsParens_eq_decide (op : BinaryOp) (side : Side) (e : Expr) :
    e.rootOp?.any (needsParens op · side) =
      decide (e.category.level < (op.operandCategory side).level) := by
  cases e with
  | number x => cases op <;> cases side <;> rfl
  | binary child l r => cases op <;> cases child <;> cases side <;> rfl
  | apply f argument => cases op <;> cases side <;> rfl

/-- So is the argument of a function. -/
theorem isSome_rootOp?_eq_decide (e : Expr) :
    e.rootOp?.isSome = decide (e.category.level < Category.operand.level) := by
  cases e with
  | number x => rfl
  | binary op l r => cases op <;> rfl
  | apply f argument => rfl

/-- The tokens that a tree is written with in a place for parts of some category. -/
def formulaIn (c : Category) (e : Expr) : List Token :=
  parensIf (decide (e.category.level < c.level)) e.formula

theorem formula_binary (op : BinaryOp) (l r : Expr) :
    (binary op l r).formula = l.formulaIn (op.operandCategory .left) ++
      .binary op :: r.formulaIn (op.operandCategory .right) := by
  rw [formula, needsParens_eq_decide, needsParens_eq_decide]
  rfl

theorem formula_apply (f : Func) (argument : Expr) :
    (apply f argument).formula = .func f :: argument.formulaIn .operand := by
  rw [formula, isSome_rootOp?_eq_decide]
  rfl

theorem formulaIn_of_le {c : Category} {e : Expr} (h : c.level ≤ e.category.level) :
    e.formulaIn c = e.formula := by
  rw [formulaIn, decide_eq_false (Nat.not_lt.mpr h)]
  rfl

theorem formulaIn_binary (op : BinaryOp) (l r : Expr) :
    (binary op l r).formulaIn op.category = l.formulaIn (op.operandCategory .left) ++
      .binary op :: r.formulaIn (op.operandCategory .right) := by
  rw [← formula_binary]
  exact formulaIn_of_le (Nat.le_refl _)

theorem formulaIn_apply (f : Func) (argument : Expr) :
    (apply f argument).formulaIn .operand = .func f :: argument.formulaIn .operand := by
  rw [← formula_apply]
  exact formulaIn_of_le (Nat.le_refl _)

/-- A tree that is derived by its tokens is so in every place. -/
theorem derives_formulaIn {e : Expr} (h : Derives e.category e.formula e) (c : Category) :
    Derives c (e.formulaIn c) e :=
  h.parensIf _ (by simp)

/-- By induction on the tree, the tokens that it is written with derive it. -/
theorem derives_formula (e : Expr) : Derives e.category e.formula e := by
  induction e with
  | number x => exact .number x
  | binary op l r ihl ihr =>
      rw [formula_binary]
      exact .binary op (derives_formulaIn ihl _) (derives_formulaIn ihr _)
  | apply f argument ih =>
      rw [formula_apply]
      exact .apply f (derives_formulaIn ih _)

/-- A tree's tokens are brought into the postfix order of the tree; and from that a tree of at most
256 levels is built again as it was, bit for bit. -/
theorem formula_regroups (e : Expr) :
    Postfix.ofFormula e.formula = .ok e.postorder ∧
      (e.levels ≤ 256 → (Postfix.ofFormula e.formula).bind ofPostfix = .ok e) := by
  have horder := Postfix.ofFormula_of_derives e.derives_formula
  refine ⟨horder, ?_⟩
  intro hlevels
  rw [horder, Except.bind, ofPostfix_postorder, levelLimit, if_pos hlevels]

/-- Parentheses around a power to the left of a power, and around differences to its right. -/
theorem formula_regroups_power_of_power :
    (Postfix.ofFormula [.leftParen, .number 2, .binary .power, .func .sqrt, .number 3, .rightParen,
        .binary .power, .leftParen, .number 4, .binary .subtract, .leftParen, .number 5,
        .binary .subtract, .number 6, .rightParen, .rightParen]).bind ofPostfix =
      .ok (.binary .power (.binary .power (.number 2) (.apply .sqrt (.number 3)))
        (.binary .subtract (.number 4) (.binary .subtract (.number 5) (.number 6)))) :=
  (formula_regroups (.binary .power (.binary .power (.number 2) (.apply .sqrt (.number 3)))
    (.binary .subtract (.number 4) (.binary .subtract (.number 5) (.number 6))))).2 (by decide)

end Expr

end Calculator
