import Calculator.Proofs.Places

/-!
What reordering keeps. The queue of a formula has the formula's tokens, each as often as it is
written, and only the parentheses are gone. So it keeps the balance of operands and operators: the
weight of tokens is the number of values that they leave when they are computed, and a formula
weighs as much as its queue.
-/

namespace Calculator

namespace Postfix

/-- The queue of some tokens is those that are no parentheses, in another order. -/
theorem perm_of_ofFormula {ts queue : List Token} (h : ofFormula ts = .ok queue) :
    queue.Perm (ts.filter (!·.isParenthesis)) := by
  rw [ofFormula_eq_queue] at h
  exact Stack.perm_of_queue h

end Postfix

namespace Token

/-- By how much a token changes the number of values that wait. -/
def weight : Token → Int
  | number _ => 1
  | binary _ => -1
  | func _ | leftParen | rightParen => 0

def totalWeight : List Token → Int
  | [] => 0
  | t :: ts => t.weight + totalWeight ts

@[simp]
theorem totalWeight_nil : totalWeight [] = 0 := rfl

@[simp]
theorem totalWeight_cons (t : Token) (ts : List Token) :
    totalWeight (t :: ts) = t.weight + totalWeight ts := rfl

@[simp]
theorem totalWeight_append (ts us : List Token) :
    totalWeight (ts ++ us) = totalWeight ts + totalWeight us := by
  induction ts with
  | nil => simp
  | cons t ts ih => simp [ih, Int.add_assoc]

theorem totalWeight_of_perm {ts us : List Token} (h : ts.Perm us) :
    totalWeight ts = totalWeight us := by
  induction h with
  | nil => rfl
  | cons t _ ih => rw [totalWeight_cons, totalWeight_cons, ih]
  | swap t u ts => exact Int.add_left_comm ..
  | trans _ _ ihl ihr => exact ihl.trans ihr

theorem totalWeight_filter (ts : List Token) :
    totalWeight (ts.filter (!·.isParenthesis)) = totalWeight ts := by
  induction ts with
  | nil => rfl
  | cons t ts ih =>
      rw [← List.singleton_append, List.filter_append, totalWeight_append, totalWeight_append, ih]
      cases t <;> rfl

theorem totalWeight_of_ofFormula {ts queue : List Token} (h : Postfix.ofFormula ts = .ok queue) :
    totalWeight queue = totalWeight ts := by
  rw [← totalWeight_filter ts]
  exact totalWeight_of_perm (Postfix.perm_of_ofFormula h)

/-- An expression leaves one value. -/
theorem totalWeight_postorder (e : Expr) : totalWeight e.postorder = 1 := by
  induction e with
  | number x => rfl
  | binary op l r ihl ihr => simp [Expr.postorder, ihl, ihr, weight]
  | apply f argument ih => simp [Expr.postorder, ih, weight]

theorem totalWeight_of_ofFormula_postorder {ts : List Token} {e : Expr}
    (h : Postfix.ofFormula ts = .ok e.postorder) : totalWeight ts = 1 := by
  rw [← totalWeight_of_ofFormula h, totalWeight_postorder]

end Token

end Calculator
