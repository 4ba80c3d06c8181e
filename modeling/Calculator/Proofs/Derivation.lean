import Calculator.Expr.Formula
import Calculator.Grammar

/-!
The grammar by precedence. Each category has a level, which the precedence of the operators that
stand outside parentheses in its parts does not fall below, and each operator has a category for
itself and one for either operand. With these the five operators of the grammar are one case, and a
part of one category is a part of every lower one.
-/

namespace Calculator

namespace Grammar

/-- Parts without operators outside parentheses have a level above all precedences. -/
def Category.level : Category → Nat
  | sum => 1
  | product => 2
  | power => 3
  | operand => 4
  | atom => 5

end Grammar

namespace BinaryOp

open Grammar

def category : BinaryOp → Category
  | add | subtract => .sum
  | multiply | divide => .product
  | power => .power

/-- The category of an operand. On the side of associativity it is the operator's own, so that a
chain of operators can go on there; the other side begins one level above. -/
def operandCategory : BinaryOp → Side → Category
  | add, .left | subtract, .left => .sum
  | add, .right | subtract, .right => .product
  | multiply, .left | divide, .left => .product
  | multiply, .right | divide, .right => .power
  | power, .left => .operand
  | power, .right => .power

@[simp]
theorem level_category (op : BinaryOp) : op.category.level = op.precedence := by
  cases op <;> rfl

theorem precedence_le_level_operandCategory (op : BinaryOp) (side : Side) :
    op.precedence ≤ (op.operandCategory side).level := by
  cases op <;> cases side <;> decide

end BinaryOp

namespace Grammar

theorem Derives.binary (op : BinaryOp) {ts us : List Token} {l r : Expr}
    (hl : Derives (op.operandCategory .left) ts l)
    (hr : Derives (op.operandCategory .right) us r) :
    Derives op.category (ts ++ .binary op :: us) (.binary op l r) := by
  cases op with
  | add => exact .add hl hr
  | subtract => exact .subtract hl hr
  | multiply => exact .multiply hl hr
  | divide => exact .divide hl hr
  | power => exact .power hl hr

/-- A part of a category is one of every category of a lower level, with the same expression. -/
theorem Derives.lower {c : Category} {ts : List Token} {e : Expr} (h : Derives c ts e)
    (d : Category) (hle : d.level ≤ c.level) : Derives d ts e := by
  have hoperand : 4 ≤ c.level → Derives .operand ts e := by
    intro hc
    cases c with
    | atom => exact .ofAtom h
    | operand => exact h
    | power | product | sum => simp [Category.level] at hc
  have hpower : 3 ≤ c.level → Derives .power ts e := by
    intro hc
    cases c with
    | atom | operand => exact .ofOperand (hoperand (by decide))
    | power => exact h
    | product | sum => simp [Category.level] at hc
  have hproduct : 2 ≤ c.level → Derives .product ts e := by
    intro hc
    cases c with
    | atom | operand | power => exact .ofPower (hpower (by decide))
    | product => exact h
    | sum => simp [Category.level] at hc
  cases d with
  | atom =>
      cases c with
      | atom => exact h
      | operand | power | product | sum => simp [Category.level] at hle
  | operand => exact hoperand hle
  | power => exact hpower hle
  | product => exact hproduct hle
  | sum =>
      cases c with
      | atom | operand | power | product => exact .ofProduct (hproduct (by decide))
      | sum => exact h

/-- Induction on a derivation, with one case for the operators, and one for parts that are also
parts of a lower category. -/
@[elab_as_elim]
theorem Derives.inductionOn {motive : ∀ {c ts e}, Derives c ts e → Prop}
    {c : Category} {ts : List Token} {e : Expr} (h : Derives c ts e)
    (binary : ∀ (op : BinaryOp) {ts us l r} (hl : Derives (op.operandCategory .left) ts l)
      (hr : Derives (op.operandCategory .right) us r), motive hl → motive hr →
        motive (.binary op hl hr))
    (lower : ∀ {c ts e} (d : Category) (h : Derives c ts e) (hle : d.level ≤ c.level), motive h →
      motive (h.lower d hle))
    (apply : ∀ (f : Func) {ts e} (h : Derives .operand ts e), motive h → motive (.apply f h))
    (number : ∀ x, motive (.number x))
    (group : ∀ {ts e} (h : Derives .sum ts e), motive h → motive (.group h)) : motive h := by
  induction h with
  | add hl hr ihl ihr => exact binary .add hl hr ihl ihr
  | subtract hl hr ihl ihr => exact binary .subtract hl hr ihl ihr
  | multiply hl hr ihl ihr => exact binary .multiply hl hr ihl ihr
  | divide hl hr ihl ihr => exact binary .divide hl hr ihl ihr
  | power hl hr ihl ihr => exact binary .power hl hr ihl ihr
  | ofProduct h ih => exact lower .sum h (by decide) ih
  | ofPower h ih => exact lower .product h (by decide) ih
  | ofOperand h ih => exact lower .power h (by decide) ih
  | apply f h ih => exact apply f h ih
  | ofAtom h ih => exact lower .operand h (by decide) ih
  | number x => exact number x
  | group h ih => exact group h ih

end Grammar

end Calculator
