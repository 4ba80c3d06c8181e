import Calculator.Number.Rounding

/-!
The fewest digits that read back. A finite magnitude has an exact decimal expansion; cutting it
after one, two, three digits gives the decimals just below and just above it with that many digits,
and the first of these that rounds back to the magnitude is its shortest decimal. When both do, the
nearer one is taken.
-/

namespace Calculator

/-- Which of two equally near decimals is taken. -/
inductive Tie where
  | up
  | even
  deriving DecidableEq

namespace Decimal

/-- The exact value of a finite magnitude: `2 ^ -n` is `5 ^ n` times `10 ^ -n`. -/
def exact (m : Nat) : Decimal := ⟨Number.units m * Nat.pow 5 Number.depth, -Number.depth⟩

/-- How many digits a number has, up to 2048 of them. -/
def digitCount (n : Nat) : Nat := greatest (fun k => Nat.pow 10 k ≤ n) 11 0 + 1

/-- Of the decimals next to `d` once its last `cut` digits are dropped, the one to stand for
magnitude `m`. -/
def neighbour? (tie : Tie) (m : Nat) (d : Decimal) (cut : Nat) : Option Decimal :=
  let grid := Nat.pow 10 cut
  let below : Decimal := ⟨d.digits / grid, d.exponent + cut⟩
  let above : Decimal := ⟨d.digits / grid + 1, d.exponent + cut⟩
  match below.roundsTo m, above.roundsTo m with
  | true, true =>
    let rest := 2 * (d.digits % grid)
    if rest < grid || (rest == grid && tie == .even && below.digits % 2 == 0) then some below
    else some above
  | true, false => some below
  | false, true => some above
  | false, false => none

/-- The shortest decimal that rounds to the finite magnitude `m`, and of these the nearest.
Seventeen digits are always enough. -/
def shortest (tie : Tie) (m : Nat) : Decimal :=
  let d := exact m
  let count := digitCount d.digits
  let found := (List.range 17).findSome? fun i => neighbour? tie m d (count - (i + 1))
  (found.getD d).stripped

theorem neighbour?_roundsTo {tie : Tie} {m cut : Nat} {d e : Decimal}
    (h : neighbour? tie m d cut = some e) : e.roundsTo m = true := by
  simp only [neighbour?] at h
  split at h
  · next hb ha =>
    split at h
    · cases h; exact hb
    · cases h; exact ha
  · next hb ha => cases h; exact hb
  · next hb ha => cases h; exact ha
  · cases h

theorem scaled_exact (m : Nat) :
    (exact m).scaled = 2 * Number.units m * Nat.pow 10 Number.depth := by
  have num : (exact m).num = Number.units m * Nat.pow 5 Number.depth := by
    unfold Decimal.num exact
    rw [show (-(Number.depth : Int)).toNat = 0 by omega, show Nat.pow 10 0 = 1 from rfl,
      Nat.mul_one]
  have ten : Nat.pow 10 Number.depth = Nat.pow 5 Number.depth * Nat.pow 2 Number.depth :=
    Nat.mul_pow 5 2 Number.depth
  rw [scaled, num, ten, Nat.shiftLeft_eq, Nat.pow_succ, ← Nat.pow_eq]
  generalize Nat.pow 5 Number.depth = five
  generalize Nat.pow 2 Number.depth = two
  ac_rfl

theorem den_exact (m : Nat) : (exact m).den = Nat.pow 10 Number.depth := by
  unfold den exact
  rw [show (-(-(Number.depth : Int))).toNat = Number.depth by omega]

/-- The exact value of a magnitude rounds to it. -/
theorem roundsTo_exact (m : Nat) : (exact m).roundsTo m = true := by
  unfold roundsTo
  have pos : 0 < Nat.pow 10 Number.depth := Nat.pow_pos (by decide)
  rw [scaled_exact, den_exact]
  generalize Nat.pow 10 Number.depth = grid at *
  have below : m = 0 ∨ (Number.units (m - 1) + Number.units m) * grid <
      2 * Number.units m * grid := by
    rcases Nat.eq_zero_or_pos m with h | h
    · exact .inl h
    · have := Number.units_lt_units (Nat.sub_lt h Nat.one_pos)
      exact .inr (Nat.mul_lt_mul_of_pos_right (by omega) pos)
  have above : 2 * Number.units m * grid < (Number.units m + Number.units (m + 1)) * grid := by
    have := Number.units_lt_units_succ m
    exact Nat.mul_lt_mul_of_pos_right (by omega) pos
  simp only [Number.reaches, Nat.add_sub_cancel, Bool.and_eq_true, Bool.or_eq_true,
    Bool.not_eq_true', Bool.or_eq_false_iff, Bool.and_eq_false_iff, decide_eq_true_iff,
    decide_eq_false_iff_not, beq_iff_eq, beq_eq_false_iff_ne]
  omega

/-- The shortest decimal of a magnitude rounds to it. -/
theorem roundsTo_shortest (tie : Tie) (m : Nat) : (shortest tie m).roundsTo m = true := by
  unfold shortest
  rw [← roundsTo_congr (same_stripped _)]
  generalize h : List.findSome? _ _ = found
  cases found with
  | none => exact roundsTo_exact m
  | some d =>
    obtain ⟨i, _, hi⟩ := List.exists_of_findSome?_eq_some h
    exact neighbour?_roundsTo hi

end Decimal

end Calculator
