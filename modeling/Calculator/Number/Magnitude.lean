/-!
A double is a sign and a magnitude. Magnitudes count the non-negative doubles in increasing order:
`0` is zero, each next number is the next double, `infinity` closes the finite ones, and what lies
above it is not a number. The value of a finite magnitude is a whole number of steps of
`2 ^ -depth`.
-/

namespace Calculator.Number

def signBit : Nat := 0x8000000000000000

/-- The place of the double without its sign among the non-negative doubles. -/
def magnitude (x : Float) : Nat := x.toBits.toNat % signBit

/-- Whether the sign is written as a dash. Zero has a sign too. -/
def isNegative (x : Float) : Bool := decide (signBit ≤ x.toBits.toNat)

/-- The double of a sign and a magnitude up to infinity. -/
def ofMagnitude (negative : Bool) (m : Nat) : Float :=
  .ofBits (.ofNat (if negative then signBit + m else m))

/-- The magnitude that closes the finite ones. -/
def infinity : Nat := 0x7FF0000000000000

def isFinite (x : Float) : Bool := magnitude x < infinity

def isNaN (x : Float) : Bool := infinity < magnitude x

/-- The smallest positive double is `2 ^ -depth`, and all finite doubles are multiples of it. -/
@[irreducible]
def depth : Nat := 1074

/-- How many magnitudes in a row have values equally far apart. -/
def groupSize : Nat := 0x10000000000000

/-- The value of a magnitude in steps of `2 ^ -depth`. Within each group of `groupSize` magnitudes
neighbours lie equally far apart, and from the second group on the distance doubles from group to
group. At `infinity` this is `2 ^ 1024`, where the next double would stand. -/
def units (m : Nat) : Nat :=
  if m < groupSize then m else (groupSize + m % groupSize) <<< (m / groupSize - 1)

theorem units_zero : units 0 = 0 := rfl

theorem shiftLeft_lt_shiftLeft {a b : Nat} (h : a < b) (n : Nat) : a <<< n < b <<< n := by
  rw [Nat.shiftLeft_eq, Nat.shiftLeft_eq]
  exact Nat.mul_lt_mul_of_pos_right h (Nat.two_pow_pos n)

theorem units_lt_units_succ (m : Nat) : units m < units (m + 1) := by
  unfold units groupSize
  split <;> split
  · omega
  · next h1 h2 =>
    obtain rfl : m = 0xFFFFFFFFFFFFF := by omega
    decide
  · omega
  · by_cases h : m % 0x10000000000000 + 1 < 0x10000000000000
    · rw [show (m + 1) / 0x10000000000000 = m / 0x10000000000000 by omega,
        show (m + 1) % 0x10000000000000 = m % 0x10000000000000 + 1 by omega]
      exact shiftLeft_lt_shiftLeft (by omega) _
    · rw [show (m + 1) / 0x10000000000000 - 1 = m / 0x10000000000000 - 1 + 1 by omega,
        show (m + 1) % 0x10000000000000 = 0 by omega, Nat.shiftLeft_succ_inside]
      exact shiftLeft_lt_shiftLeft (by omega) _

theorem units_lt_units {m n : Nat} (h : m < n) : units m < units n := by
  induction n with
  | zero => omega
  | succ n ih =>
    rcases Nat.lt_succ_iff_lt_or_eq.mp h with h | rfl
    · exact Nat.lt_trans (ih h) (units_lt_units_succ n)
    · exact units_lt_units_succ m

theorem units_le_units {m n : Nat} (h : m ≤ n) : units m ≤ units n := by
  rcases Nat.lt_or_eq_of_le h with h | rfl
  · exact Nat.le_of_lt (units_lt_units h)
  · exact Nat.le_refl _

end Calculator.Number
