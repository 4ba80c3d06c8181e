/-!
Decimal fractions: whole digits and a power of ten. A literal is digits with at most one point,
which may stand before, among or behind them; `Decimal.read?` accepts these and nothing else.
-/

namespace Calculator

/-- The value `digits * 10 ^ exponent`. -/
structure Decimal where
  digits : Nat
  exponent : Int
  deriving DecidableEq

namespace Decimal

/-- The value is `num / den`. -/
def num (d : Decimal) : Nat := d.digits * Nat.pow 10 d.exponent.toNat

def den (d : Decimal) : Nat := Nat.pow 10 (-d.exponent).toNat

theorem den_pos (d : Decimal) : 0 < d.den := Nat.pow_pos (by decide)

/-- Reads digits with at most one point; one digit at least has to be there. -/
def read? (cs : List Char) : Option Decimal :=
  let whole := cs.takeWhile Char.isDigit
  match cs.dropWhile Char.isDigit with
  | [] => if whole.isEmpty then none else some ⟨Nat.ofDigitChars 10 whole 0, 0⟩
  | '.' :: fraction =>
    if fraction.all Char.isDigit && !(whole ++ fraction).isEmpty then
      some ⟨Nat.ofDigitChars 10 (whole ++ fraction) 0, -fraction.length⟩
    else none
  | _ :: _ => none

/-- The same value with no zero at the end of its digits. Zero stays as it is. -/
def stripped (d : Decimal) : Decimal :=
  if d.digits ≠ 0 ∧ d.digits % 10 = 0 then stripped ⟨d.digits / 10, d.exponent + 1⟩ else d
termination_by d.digits
decreasing_by exact Nat.div_lt_self (by omega) (by decide)

/-- Equal as numbers, whatever power of ten each is written with. -/
def Same (a b : Decimal) : Prop := a.num * b.den = b.num * a.den

theorem Same.refl (a : Decimal) : a.Same a := rfl

theorem Same.symm {a b : Decimal} (h : a.Same b) : b.Same a := Eq.symm h

theorem Same.trans {a b c : Decimal} (hab : a.Same b) (hbc : b.Same c) : a.Same c := by
  unfold Same at *
  apply Nat.eq_of_mul_eq_mul_right b.den_pos
  calc a.num * c.den * b.den = a.num * b.den * c.den := by ac_rfl
    _ = b.num * c.den * a.den := by rw [hab]; ac_rfl
    _ = c.num * a.den * b.den := by rw [hbc]; ac_rfl

/-- A zero more at the end of the digits takes one from the exponent. -/
theorem same_shift (digits : Nat) (exponent : Int) :
    Same ⟨digits * 10, exponent⟩ ⟨digits, exponent + 1⟩ := by
  simp only [Same, num, den]
  rcases Int.lt_or_le exponent 0 with h | h
  · have h1 : exponent.toNat = 0 := by omega
    have h2 : (exponent + 1).toNat = 0 := by omega
    have h3 : (-exponent).toNat = (-(exponent + 1)).toNat + 1 := by omega
    rw [h1, h2, h3, Nat.pow_eq, Nat.pow_eq, Nat.pow_eq, Nat.pow_succ]
    ac_rfl
  · have h1 : (exponent + 1).toNat = exponent.toNat + 1 := by omega
    have h2 : (-exponent).toNat = 0 := by omega
    have h3 : (-(exponent + 1)).toNat = 0 := by omega
    rw [h1, h2, h3, Nat.pow_eq, Nat.pow_eq, Nat.pow_eq, Nat.pow_succ]
    ac_rfl

theorem same_stripped (d : Decimal) : d.Same d.stripped := by
  fun_induction stripped d with
  | case1 d h ih =>
    refine Same.trans ?_ ih
    have : d.digits = d.digits / 10 * 10 := by omega
    have hs := same_shift (d.digits / 10) d.exponent
    rw [← this] at hs
    exact hs
  | case2 d h => exact Same.refl d

end Decimal

end Calculator
