import Calculator.Number.ReadBack
import Calculator.Token.Scanner

/-!
Numerals that are no literals. Digits and points are read as a decimal if there is a digit among
them and not more than one point, and a decimal has a nearest finite double if it is below the
middle between the greatest double and the power of two that would come next. From there on it is
infinite.
-/

namespace Calculator

namespace Number

/-- The middle between the greatest double and `2 ^ 1024`, which are `2 ^ 971` apart. -/
def overflow : Nat := 2 ^ 1024 - 2 ^ 970

/-- In steps of half a unit. -/
theorem middle_below_infinity :
    units (infinity - 1) + units infinity = overflow <<< (depth + 1) := by
  unfold depth
  decide +kernel

theorem reaches_infinity_iff {scaled den : Nat} :
    reaches scaled den infinity = true ↔ (overflow <<< (depth + 1)) * den ≤ scaled := by
  have hpos : (infinity == 0) = false := rfl
  have heven : (infinity % 2 == 0) = true := rfl
  simp only [reaches, middle_below_infinity, hpos, heven, Bool.false_or, Bool.and_true,
    Bool.or_eq_true, decide_eq_true_iff, beq_iff_eq]
  omega

/-- A value that does not reach infinity rounds to the last magnitude that it reaches. -/
theorem nearest_lt_infinity_iff {scaled den : Nat} (hden : 0 < den) :
    nearest scaled den < infinity ↔ reaches scaled den infinity = false := by
  constructor
  · intro hlt
    rw [Bool.eq_false_iff]
    intro hreaches
    have hall : ∀ m, (decide (m ≤ infinity) && reaches scaled den m) = true ↔ m ≤ infinity := by
      intro m
      rw [Bool.and_eq_true, decide_eq_true_iff]
      exact ⟨And.left, fun hm => ⟨hm, reaches_of_le hden hm hreaches⟩⟩
    have hnearest : nearest scaled den = infinity :=
      greatest_eq hall 63 0 (Nat.zero_le _) (by decide)
    omega
  · intro hinfinity
    -- The first magnitude that is not reached is the successor of the nearest one.
    have hexists : ∃ m, reaches scaled den m = false := ⟨infinity, hinfinity⟩
    have hpos : Nat.find hexists ≠ 0 := by
      intro hzero
      have hspec := Nat.find_spec hexists
      rw [hzero] at hspec
      cases hspec
    have hle : Nat.find hexists ≤ infinity := Nat.find_min' hexists hinfinity
    have hlow : reaches scaled den (Nat.find hexists - 1) = true := by
      have hmin := Nat.find_min hexists (m := Nat.find hexists - 1) (by omega)
      simpa using hmin
    have hhigh : reaches scaled den (Nat.find hexists - 1 + 1) = false := by
      rw [Nat.sub_add_cancel (Nat.pos_of_ne_zero hpos)]
      exact Nat.find_spec hexists
    rw [nearest_eq hden (by omega) hlow hhigh]
    omega

end Number

namespace Decimal

theorem magnitude_lt_infinity_iff (d : Decimal) :
    d.magnitude < Number.infinity ↔ d.num < Number.overflow * d.den := by
  rw [magnitude, Number.nearest_lt_infinity_iff d.den_pos, Bool.eq_false_iff, ne_eq,
    Number.reaches_infinity_iff, scaled, Nat.shiftLeft_eq, Nat.shiftLeft_eq, Nat.mul_right_comm,
    Nat.mul_le_mul_right_iff (Nat.two_pow_pos _), Nat.not_le]

end Decimal

namespace Token

/-- The digits of a numeral, read as one whole number. -/
def numeralDigits (numeral : List Char) : Nat :=
  Nat.ofDigitChars 10 (numeral.filter Char.isDigit) 0

/-- How many digits stand behind the point of a numeral. -/
def numeralPlaces (numeral : List Char) : Nat := (numeral.dropWhile (· != '.')).tail.length

/-- Why a numeral is no finite number: it has no digit, more than one point, or a value that is not
below the middle between the greatest double and `2 ^ 1024`. -/
inductive NotFinite (numeral : List Char) : Prop
  | noDigit : (∀ c ∈ numeral, c.isDigit = false) → NotFinite numeral
  | manyPoints : 1 < numeral.count '.' → NotFinite numeral
  | overflows : Number.overflow * 10 ^ numeralPlaces numeral ≤ numeralDigits numeral →
      NotFinite numeral

theorem isDigit_of_isNumeral {c : Char} (h : isNumeral c = true) (hpoint : c ≠ '.') :
    c.isDigit = true := by
  simpa [isNumeral, hpoint] using h

theorem ne_point_of_isDigit {c : Char} (h : c.isDigit = true) : c ≠ '.' := by
  rintro rfl
  cases h

/-- A numeral is digits, or has digits in front of its first point. -/
theorem numeral_cases {numeral : List Char} (h : ∀ c ∈ numeral, isNumeral c = true) :
    (∀ c ∈ numeral, c.isDigit = true) ∨
      ∃ whole fraction, numeral = whole ++ '.' :: fraction ∧ (∀ c ∈ whole, c.isDigit = true) ∧
        ∀ c ∈ fraction, isNumeral c = true := by
  by_cases hpoint : '.' ∈ numeral
  · obtain ⟨whole, fraction, rfl, hwhole⟩ := List.eq_append_cons_of_mem hpoint
    refine .inr ⟨whole, fraction, rfl, ?_, fun c hc => h c (by simp [hc])⟩
    intro c hc
    refine isDigit_of_isNumeral (h c (by simp [hc])) ?_
    rintro rfl
    exact hwhole hc
  · refine .inl fun c hc => isDigit_of_isNumeral (h c hc) ?_
    rintro rfl
    exact hpoint hc

theorem count_point_of_digits {digits : List Char} (h : ∀ c ∈ digits, c.isDigit = true) :
    digits.count '.' = 0 :=
  List.count_eq_zero_of_not_mem fun hpoint => ne_point_of_isDigit (h _ hpoint) rfl

theorem dropWhile_ne_point {whole : List Char} (h : ∀ c ∈ whole, c.isDigit = true)
    (rest : List Char) :
    (whole ++ rest).dropWhile (· != '.') = rest.dropWhile (· != '.') :=
  List.dropWhile_append_of_pos fun c hc => by simpa using ne_point_of_isDigit (h c hc)

theorem filter_isDigit_of_digits {digits : List Char} (h : ∀ c ∈ digits, c.isDigit = true) :
    digits.filter Char.isDigit = digits :=
  List.filter_eq_self.mpr h

/-- What stands behind the first point has to be digits. -/
theorem read?_split {whole : List Char} (h : ∀ c ∈ whole, c.isDigit = true)
    (fraction : List Char) :
    Decimal.read? (whole ++ '.' :: fraction) =
      if fraction.all Char.isDigit && !(whole ++ fraction).isEmpty then
        some ⟨Nat.ofDigitChars 10 (whole ++ fraction) 0, -fraction.length⟩
      else none := by
  have htake : (whole ++ '.' :: fraction).takeWhile Char.isDigit = whole := by
    rw [List.takeWhile_append_of_pos h, List.takeWhile_cons_of_neg (by decide), List.append_nil]
  have hdrop : (whole ++ '.' :: fraction).dropWhile Char.isDigit = '.' :: fraction := by
    rw [List.dropWhile_append_of_pos h, List.dropWhile_cons_of_neg (by decide)]
  simp only [Decimal.read?, htake, hdrop]

/-- A numeral is read as its digits over the places behind its point, if it has digits and not more
than one point. -/
theorem read?_numeral {numeral : List Char} (h : ∀ c ∈ numeral, isNumeral c = true) :
    Decimal.read? numeral =
      if numeral.filter Char.isDigit = [] ∨ 1 < numeral.count '.' then none
      else some ⟨numeralDigits numeral, -numeralPlaces numeral⟩ := by
  rw [numeralDigits]
  rcases numeral_cases h with hdigits | ⟨whole, fraction, rfl, hwhole, hfraction⟩
  · have hplaces : numeralPlaces numeral = 0 := by
      have hdrop := dropWhile_ne_point hdigits []
      rw [List.append_nil] at hdrop
      rw [numeralPlaces, hdrop]
      rfl
    rw [filter_isDigit_of_digits hdigits, count_point_of_digits hdigits, hplaces]
    by_cases hempty : numeral = []
    · subst hempty
      rfl
    · rw [if_neg (by simp [hempty]), Decimal.read?_whole hempty hdigits]
      rfl
  · have hplaces : numeralPlaces (whole ++ '.' :: fraction) = fraction.length := by
      rw [numeralPlaces, dropWhile_ne_point hwhole]
      rfl
    have hcount : (whole ++ '.' :: fraction).count '.' = fraction.count '.' + 1 := by
      rw [List.count_append, count_point_of_digits hwhole, List.count_cons_self, Nat.zero_add]
    have hfilter : (whole ++ '.' :: fraction).filter Char.isDigit =
        whole ++ fraction.filter Char.isDigit := by
      rw [List.filter_append, filter_isDigit_of_digits hwhole]
      rfl
    rw [read?_split hwhole, hplaces, hcount, hfilter]
    by_cases hmore : '.' ∈ fraction
    · have hpos := List.count_pos_iff.mpr hmore
      have hall : fraction.all Char.isDigit = false := List.all_eq_false.mpr ⟨'.', hmore, by decide⟩
      rw [hall, Bool.false_and, if_neg Bool.false_ne_true, if_pos (.inr (by omega))]
    · have hrest : ∀ c ∈ fraction, c.isDigit = true := by
        intro c hc
        refine isDigit_of_isNumeral (hfraction c hc) ?_
        rintro rfl
        exact hmore hc
      rw [filter_isDigit_of_digits hrest, count_point_of_digits hrest, List.all_eq_true.mpr hrest]
      by_cases hempty : whole ++ fraction = [] <;> simp [hempty]

/-- A numeral rounds to a finite double, whatever its sign, unless it is not finite. -/
theorem finite?_eq_none_iff {numeral : List Char} (h : ∀ c ∈ numeral, isNumeral c = true)
    (negative : Bool) :
    Number.ofLiteral?.finite? negative numeral = none ↔ NotFinite numeral := by
  have hvalue : (Decimal.mk (numeralDigits numeral) (-numeralPlaces numeral)).magnitude <
      Number.infinity ↔
        numeralDigits numeral < Number.overflow * 10 ^ numeralPlaces numeral := by
    rw [Decimal.magnitude_lt_infinity_iff, Decimal.num, Decimal.den]
    simp
  unfold Number.ofLiteral?.finite?
  rw [read?_numeral h]
  split_ifs with hbad
  · refine iff_of_true rfl ?_
    rcases hbad with hdigits | hpoints
    · exact .noDigit (by simpa [List.filter_eq_nil_iff] using hdigits)
    · exact .manyPoints hpoints
  · simp only [not_or] at hbad
    simp only [hvalue, ite_eq_right_iff, reduceCtorEq, imp_false, Nat.not_lt]
    constructor
    · exact .overflows
    · intro hnot
      cases hnot with
      | noDigit hdigits => exact absurd (by simpa [List.filter_eq_nil_iff] using hdigits) hbad.1
      | manyPoints hpoints => exact absurd hpoints hbad.2
      | overflows hle => exact hle

end Token

end Calculator
