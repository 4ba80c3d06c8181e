import Calculator.Number.Magnitude
import Calculator.Number.Decimal

/-!
Rounding a decimal to the nearest double, to the even magnitude where two are equally near. A value
reaches a magnitude when it rounds to it or to a greater one; the magnitudes that it reaches are all
those up to the one it rounds to, which is found bit by bit from the top.
-/

namespace Calculator

/-- The greatest of the `2 ^ n` numbers from `found` on that satisfy `p`, where `p` holds up to some
number and from there on no more. -/
def greatest (p : Nat → Bool) : Nat → Nat → Nat
  | 0, found => found
  | n + 1, found => greatest p n (if p (found + (1 <<< n)) then found + (1 <<< n) else found)

theorem greatest_eq {p : Nat → Bool} {last : Nat} (h : ∀ m, p m = true ↔ m ≤ last)
    (n found : Nat) (low : found ≤ last) (high : last < found + (1 <<< n)) :
    greatest p n found = last := by
  induction n generalizing found with
  | zero =>
    rw [Nat.shiftLeft_zero] at high
    simp only [greatest]
    omega
  | succ n ih =>
    simp only [greatest]
    have double : 1 <<< (n + 1) = 2 * (1 <<< n) := Nat.shiftLeft_succ 1 n
    by_cases hp : p (found + (1 <<< n)) = true
    · rw [if_pos hp]
      exact ih _ ((h _).mp hp) (by omega)
    · rw [if_neg hp]
      exact ih _ low (by rw [h] at hp; omega)

namespace Number

/-- Whether a value rounds to magnitude `m` or above: it lies beyond the middle between `m` and its
predecessor, or in that middle and `m` is even. The value is `scaled / den` steps of half a unit. -/
def reaches (scaled den m : Nat) : Bool :=
  m == 0 ||
    let middle := (units (m - 1) + units m) * den
    middle < scaled || (middle == scaled && m % 2 == 0)

/-- The magnitude nearest to a value of `scaled / den` steps of half a unit. -/
def nearest (scaled den : Nat) : Nat :=
  greatest (fun m => m ≤ infinity && reaches scaled den m) 63 0

theorem reaches_of_le {scaled den m n : Nat} (hden : 0 < den) (h : m ≤ n)
    (hn : reaches scaled den n = true) : reaches scaled den m = true := by
  rcases Nat.lt_or_eq_of_le h with h | rfl
  · rcases Nat.eq_zero_or_pos m with rfl | hm
    · rfl
    · have hu : units (m - 1) + units m < units (n - 1) + units n := by
        have := units_lt_units h
        have := units_le_units (m := m - 1) (n := n - 1) (by omega)
        omega
      have hlt := Nat.mul_lt_mul_of_pos_right hu hden
      simp only [reaches, Bool.or_eq_true, Bool.and_eq_true, decide_eq_true_iff, beq_iff_eq]
        at hn ⊢
      omega
  · exact hn

/-- Every value rounds to the magnitude that it reaches and whose successor it does not. -/
theorem nearest_eq {scaled den m : Nat} (hden : 0 < den) (hm : m ≤ infinity)
    (low : reaches scaled den m = true) (high : reaches scaled den (m + 1) = false) :
    nearest scaled den = m := by
  have last : ∀ k, (decide (k ≤ infinity) && reaches scaled den k) = true ↔ k ≤ m := by
    intro k
    rw [Bool.and_eq_true, decide_eq_true_iff]
    constructor
    · intro ⟨_, hk⟩
      refine Nat.le_of_not_lt fun h => ?_
      rw [reaches_of_le hden h hk] at high
      cases high
    · intro h
      exact ⟨Nat.le_trans h hm, reaches_of_le hden h low⟩
  exact greatest_eq last 63 0 (Nat.zero_le _) (Nat.lt_of_le_of_lt hm (by decide))

/-- Only the value counts, not the fraction that it is written as. -/
theorem reaches_congr {a b c d : Nat} (hb : 0 < b) (hd : 0 < d) (h : a * d = c * b) (m : Nat) :
    reaches a b m = reaches c d m := by
  have lt : ∀ u : Nat, u * b < a ↔ u * d < c := by
    intro u
    have : u * b * d < a * d ↔ u * d * b < c * b := by rw [h, Nat.mul_right_comm]
    rwa [Nat.mul_lt_mul_right hd, Nat.mul_lt_mul_right hb] at this
  have eq : ∀ u : Nat, u * b = a ↔ u * d = c := by
    intro u
    have : u * b * d = a * d ↔ u * d * b = c * b := by rw [h, Nat.mul_right_comm]
    rwa [Nat.mul_left_inj (Nat.ne_of_gt hd), Nat.mul_left_inj (Nat.ne_of_gt hb)] at this
  rw [Bool.eq_iff_iff]
  simp [reaches, lt, eq]

end Number

namespace Decimal

/-- The value in steps of half a unit, times `den`. -/
def scaled (d : Decimal) : Nat := d.num <<< (Number.depth + 1)

/-- The magnitude of the nearest double; from half a step below `2 ^ 1024` on it is infinite. -/
def magnitude (d : Decimal) : Nat := Number.nearest d.scaled d.den

def toFloat (negative : Bool) (d : Decimal) : Float := Number.ofMagnitude negative d.magnitude

def roundsTo (d : Decimal) (m : Nat) : Bool :=
  Number.reaches d.scaled d.den m && !Number.reaches d.scaled d.den (m + 1)

theorem magnitude_eq_of_roundsTo {d : Decimal} {m : Nat} (h : d.roundsTo m = true)
    (hm : m ≤ Number.infinity) : d.magnitude = m := by
  simp only [roundsTo, Bool.and_eq_true, Bool.not_eq_true'] at h
  exact Number.nearest_eq d.den_pos hm h.1 h.2

theorem roundsTo_congr {d e : Decimal} (h : d.Same e) (m : Nat) : d.roundsTo m = e.roundsTo m := by
  have scaled : d.scaled * e.den = e.scaled * d.den := by
    unfold Same at h
    unfold Decimal.scaled
    rw [Nat.shiftLeft_eq, Nat.shiftLeft_eq, Nat.mul_right_comm, h, Nat.mul_right_comm]
  unfold roundsTo
  rw [Number.reaches_congr d.den_pos e.den_pos scaled,
    Number.reaches_congr d.den_pos e.den_pos scaled]

/-- Nothing but zero has no digits, so no other magnitude is rounded to from there. -/
theorem digits_ne_zero_of_roundsTo {d : Decimal} {m : Nat} (h : d.roundsTo m = true)
    (hm : 0 < m) : d.digits ≠ 0 := by
  intro zero
  have low : Number.reaches d.scaled d.den m = true := by
    simp only [roundsTo, Bool.and_eq_true] at h
    exact h.1
  have scaled : d.scaled = 0 := by
    rw [Decimal.scaled, num, zero, Nat.zero_mul, Nat.zero_shiftLeft]
  have units := Number.units_lt_units hm
  rw [Number.units_zero] at units
  have middle : 0 < (Number.units (m - 1) + Number.units m) * d.den :=
    Nat.mul_pos (by omega) d.den_pos
  rw [scaled] at low
  generalize d.den = den at *
  simp only [Number.reaches, Bool.or_eq_true, Bool.and_eq_true, decide_eq_true_iff, beq_iff_eq]
    at low
  omega

end Decimal

end Calculator
