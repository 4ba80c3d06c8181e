import Calculator.Number.Bits
import Calculator.Number.Literal

/-!
What is written of a finite double in plain style is a literal, and reads back as that double, bit
for bit.
-/

namespace Calculator

namespace Decimal

theorem read?_whole {digits : List Char} (h : digits ≠ []) (all : ∀ c ∈ digits, c.isDigit = true) :
    read? digits = some ⟨Nat.ofDigitChars 10 digits 0, 0⟩ := by
  have take := @List.takeWhile_append_of_pos _ _ _ [] all
  have drop := @List.dropWhile_append_of_pos _ _ _ [] all
  simp only [List.append_nil, List.takeWhile_nil, List.dropWhile_nil] at take drop
  simp [read?, take, drop, h]

theorem read?_point {whole fraction : List Char} (h : whole ++ fraction ≠ [])
    (allWhole : ∀ c ∈ whole, c.isDigit = true) (allFraction : ∀ c ∈ fraction, c.isDigit = true) :
    read? (whole ++ '.' :: fraction) =
      some ⟨Nat.ofDigitChars 10 (whole ++ fraction) 0, -fraction.length⟩ := by
  have take := @List.takeWhile_append_of_pos _ _ _ ('.' :: fraction) allWhole
  have drop := @List.dropWhile_append_of_pos _ _ _ ('.' :: fraction) allWhole
  have point : Char.isDigit '.' = false := by decide
  simp only [List.takeWhile_cons, List.dropWhile_cons, point, Bool.false_eq_true, if_false,
    List.append_nil] at take drop
  have all : fraction.all Char.isDigit = true := List.all_eq_true.mpr allFraction
  have some : (whole ++ fraction).isEmpty = false := by simpa using h
  simp only [read?, take, drop, all, some, Bool.not_false, Bool.and_self, if_true]

theorem same_zeros (digits n : Nat) : Same ⟨digits, n⟩ ⟨digits * 10 ^ n, 0⟩ := by
  simp only [Same, num, den]
  rw [show (-(n : Int)).toNat = 0 by omega, Int.toNat_natCast]
  simp

/-- Digits with a point and digits behind it, or without both. -/
def pointed (whole fraction : List Char) : List Char :=
  if fraction.isEmpty then whole else whole ++ '.' :: fraction

/-- Digits before and behind a point, some of them before it. -/
structure Parts (whole fraction : List Char) : Prop where
  whole_ne_nil : whole ≠ []
  isDigit_whole : ∀ c ∈ whole, c.isDigit = true
  isDigit_fraction : ∀ c ∈ fraction, c.isDigit = true

/-- Digits before and behind the point that are the decimal of `digits` and `exponent`. -/
structure Pointed (digits : Nat) (exponent : Int) (whole fraction : List Char) : Prop
    extends Parts whole fraction where
  same : Same ⟨digits, exponent⟩ ⟨Nat.ofDigitChars 10 (whole ++ fraction) 0, -fraction.length⟩
  /-- No zero stands in front of another digit, unless zero is written with a power of ten. -/
  no_needless_zero :
    digits ≠ 0 ∨ exponent = 0 → whole.head? ≠ some '0' ∨ whole.length = 1

theorem read?_pointed {whole fraction : List Char} (h : Parts whole fraction) :
    read? (pointed whole fraction) =
      some ⟨Nat.ofDigitChars 10 (whole ++ fraction) 0, -fraction.length⟩ := by
  cases fraction with
  | nil => simpa [pointed] using read?_whole h.whole_ne_nil h.isDigit_whole
  | cons c cs => exact read?_point (by simp) h.isDigit_whole h.isDigit_fraction

theorem head?_toDigits {n : Nat} (h : n ≠ 0) : (Nat.toDigits 10 n).head? ≠ some '0' := by
  induction n using Nat.strongRecOn with
  | ind n ih =>
    rw [Nat.toDigits_eq_if (by decide)]
    split
    · have small : ∀ m, m < 10 → m ≠ 0 → m.digitChar ≠ '0' := by decide
      simpa using small n (by omega) h
    · rw [List.head?_append_of_ne_nil _ Nat.toDigits_ne_nil]
      exact ih (n / 10) (by omega) (by omega)

end Decimal

namespace Style

open Decimal (Pointed pointed)

theorem isDigit_of_mem_zeros {n : Nat} {c : Char} (h : c ∈ List.replicate n '0') :
    c.isDigit = true := by
  rw [List.eq_of_mem_replicate h]
  decide

theorem isDigit_of_mem_toDigits {n : Nat} {c : Char} (h : c ∈ Nat.toDigits 10 n) :
    c.isDigit = true :=
  Nat.isDigit_of_mem_toDigits (by decide) (by decide) h

/-- What follows a whole number keeps its value and its digits. -/
theorem exists_pointed_whole {s : Style} (ends : s.wholeEnd = [] ∨ s.wholeEnd = ['.', '0'])
    (n k : Nat) :
    ∃ fraction, Nat.toDigits 10 n ++ List.replicate k '0' ++ s.wholeEnd =
        pointed (Nat.toDigits 10 n ++ List.replicate k '0') fraction ∧
      Pointed n k (Nat.toDigits 10 n ++ List.replicate k '0') fraction := by
  have whole : Nat.ofDigitChars 10 (Nat.toDigits 10 n ++ List.replicate k '0') 0 = n * 10 ^ k := by
    rw [Nat.ofDigitChars_append, Nat.ofDigitChars_ten_toDigits, Nat.ofDigitChars_replicate_zero,
      Nat.mul_comm]
  have someDigit : Nat.toDigits 10 n ++ List.replicate k '0' ≠ [] := by
    simp [Nat.toDigits_ne_nil]
  have all : ∀ c ∈ Nat.toDigits 10 n ++ List.replicate k '0', c.isDigit = true := by
    intro c h
    rcases List.mem_append.mp h with h | h
    · exact isDigit_of_mem_toDigits h
    · exact isDigit_of_mem_zeros h
  have zero : n ≠ 0 ∨ (k : Int) = 0 →
      (Nat.toDigits 10 n ++ List.replicate k '0').head? ≠ some '0' ∨
        (Nat.toDigits 10 n ++ List.replicate k '0').length = 1 := by
    intro h
    by_cases zero : n = 0
    · obtain rfl : k = 0 := by omega
      subst zero
      exact .inr rfl
    · rw [List.head?_append_of_ne_nil _ Nat.toDigits_ne_nil]
      exact .inl (Decimal.head?_toDigits zero)
  rcases ends with ends | ends
  · refine ⟨[], by simp [ends, pointed], ⟨someDigit, all, by simp⟩, ?_, zero⟩
    rw [List.append_nil, whole]
    exact Decimal.same_zeros n k
  · refine ⟨['0'], by simp [ends, pointed], ⟨someDigit, all, ?_⟩, ?_, zero⟩
    · intro c h
      rw [List.mem_singleton.mp h]
      decide
    · have more : Nat.ofDigitChars 10 (Nat.toDigits 10 n ++ List.replicate k '0' ++ ['0']) 0 =
          n * 10 ^ k * 10 := by
        rw [Nat.ofDigitChars_append, whole]
        simp [Nat.ofDigitChars_cons, Nat.mul_comm]
      have shift : Decimal.Same ⟨n * 10 ^ k * 10, -1⟩ ⟨n * 10 ^ k, 0⟩ :=
        Decimal.same_shift (n * 10 ^ k) (-1)
      rw [more]
      exact (Decimal.same_zeros n k).trans shift.symm

/-- In positional notation a decimal is written as an equal one. -/
theorem exists_pointed_positionalText {s : Style}
    (ends : s.wholeEnd = [] ∨ s.wholeEnd = ['.', '0']) (n : Nat) (exponent : Int) :
    ∃ whole fraction,
      s.positionalText (Nat.toDigits 10 n) ((Nat.toDigits 10 n).length + exponent) =
          pointed whole fraction ∧
        Pointed n exponent whole fraction := by
  have digit : ∀ c ∈ Nat.toDigits 10 n, c.isDigit = true := fun c h => isDigit_of_mem_toDigits h
  have value : Nat.ofDigitChars 10 (Nat.toDigits 10 n) 0 = n := Nat.ofDigitChars_ten_toDigits
  have someDigit : Nat.toDigits 10 n ≠ [] := Nat.toDigits_ne_nil
  simp only [positionalText]
  split
  · next low =>
    refine ⟨['0'], List.replicate (-((Nat.toDigits 10 n).length + exponent)).toNat '0' ++
      Nat.toDigits 10 n, ?_, ⟨List.cons_ne_nil _ _, ?_, ?_⟩, ?_, fun _ => .inr rfl⟩
    · simp [pointed, someDigit]
    · intro c h
      rw [List.mem_singleton.mp h]
      decide
    · intro c h
      rcases List.mem_append.mp h with h | h
      · exact isDigit_of_mem_zeros h
      · exact digit c h
    · have written : Nat.ofDigitChars 10 (['0'] ++
          (List.replicate (-((Nat.toDigits 10 n).length + exponent)).toNat '0' ++
            Nat.toDigits 10 n)) 0 = n := by
        rw [List.singleton_append, Nat.ofDigitChars_cons, Nat.ofDigitChars_append,
          Nat.ofDigitChars_replicate_zero]
        simp [value]
      have places : -((List.replicate (-((Nat.toDigits 10 n).length + exponent)).toNat '0' ++
          Nat.toDigits 10 n).length : Int) = exponent := by
        simp
        omega
      rw [written, places]
      exact .refl _
  · next positive =>
    split
    · next whole =>
      obtain ⟨k, rfl⟩ : ∃ k : Nat, exponent = k := ⟨exponent.toNat, by omega⟩
      rw [show ((Nat.toDigits 10 n).length + (k : Int)).toNat - (Nat.toDigits 10 n).length = k by
        omega]
      obtain ⟨fraction, text, parts⟩ := exists_pointed_whole ends n k
      exact ⟨_, fraction, text, parts⟩
    · next short =>
      have front : 0 < ((Nat.toDigits 10 n).length + exponent).toNat := by omega
      generalize hpoint : ((Nat.toDigits 10 n).length + exponent).toNat = point at *
      refine ⟨(Nat.toDigits 10 n).take point, (Nat.toDigits 10 n).drop point, ?_, ⟨?_, ?_, ?_⟩,
        ?_, ?_⟩
      · have : (Nat.toDigits 10 n).drop point ≠ [] := by simpa using short
        simp [pointed, this]
      · simp [someDigit, Nat.ne_of_gt front]
      · exact fun c h => digit c (List.mem_of_mem_take h)
      · exact fun c h => digit c (List.mem_of_mem_drop h)
      · rw [List.take_append_drop, value, List.length_drop,
          show -((Nat.toDigits 10 n).length - point : Nat) = exponent by omega]
        exact .refl _
      · intro _
        refine .inl ?_
        rw [List.head?_take, if_neg (Nat.ne_of_gt front)]
        refine Decimal.head?_toDigits ?_
        rintro rfl
        rw [Nat.toDigits_zero, List.length_singleton] at short
        omega

/-- A decimal in plain style is read as an equal one. -/
theorem read?_plain_decimalText (d : Decimal) :
    ∃ e, Decimal.read? (plain.decimalText d) = some e ∧ d.Same e := by
  obtain ⟨whole, fraction, text, parts⟩ :=
    exists_pointed_positionalText (s := plain) (.inl rfl) d.digits d.exponent
  have read := Decimal.read?_pointed parts.toParts
  exact ⟨_, by rw [← read, ← text]; rfl, parts.same⟩

/-- A finite magnitude in plain style is read as a decimal that rounds to it. -/
theorem read?_plain_magnitudeText {m : Nat} (h : m < Number.infinity) :
    ∃ e, Decimal.read? (plain.magnitudeText m) = some e ∧ e.roundsTo m = true := by
  unfold magnitudeText
  by_cases zero : m = 0
  · subst zero
    exact ⟨⟨0, 0⟩, by decide, by decide +kernel⟩
  · rw [if_neg zero, if_pos h]
    obtain ⟨e, read, same⟩ := read?_plain_decimalText (.shortest plain.tie m)
    refine ⟨e, read, ?_⟩
    rw [← Decimal.roundsTo_congr same]
    exact Decimal.roundsTo_shortest _ _

end Style

namespace Number

theorem magnitude_lt_infinity {x : Float} (h : isFinite x = true) : magnitude x < infinity := by
  simpa [isFinite] using h

/-- A finite double is written as its magnitude, behind a dash if it is negative. -/
theorem chars_of_isFinite (s : Style) {x : Float} (h : isFinite x = true) :
    s.chars x = if isNegative x then '-' :: s.magnitudeText (magnitude x)
      else s.magnitudeText (magnitude x) := by
  have finite := magnitude_lt_infinity h
  have number : isNaN x = false := by
    simp only [isNaN, decide_eq_false_iff_not]
    omega
  rw [Style.chars, number, if_neg Bool.false_ne_true]

theorem finite?_eq {cs : List Char} {d : Decimal} {m : Nat} (negative : Bool)
    (read : Decimal.read? cs = some d) (rounds : d.roundsTo m = true) (h : m < infinity) :
    ofLiteral?.finite? negative cs = some (ofMagnitude negative m) := by
  simp only [ofLiteral?.finite?, read]
  rw [Decimal.magnitude_eq_of_roundsTo rounds (Nat.le_of_lt h), if_pos h]

theorem ofLiteral?_of_read? {cs : List Char} {d : Decimal} (read : Decimal.read? cs = some d) :
    ofLiteral? cs = ofLiteral?.finite? false cs := by
  unfold ofLiteral?
  split
  · simp [Decimal.read?] at read
  · rfl

/-- A finite double in plain style is a literal of that double. -/
theorem ofLiteral?_plain_chars {x : Float} (h : isFinite x = true) :
    ofLiteral? (Style.plain.chars x) = some x := by
  have finite := magnitude_lt_infinity h
  obtain ⟨d, read, rounds⟩ := Style.read?_plain_magnitudeText finite
  have back := ofMagnitude_magnitude h
  rw [chars_of_isFinite _ h]
  split
  · next negative =>
    rw [negative] at back
    exact (finite?_eq true read rounds finite).trans (congrArg some back)
  · next positive =>
    rw [Bool.not_eq_true] at positive
    rw [positive] at back
    rw [ofLiteral?_of_read? read]
    exact (finite?_eq false read rounds finite).trans (congrArg some back)

/-- Finite doubles of one text are one double. -/
theorem plain_chars_injective {x y : Float} (hx : isFinite x = true) (hy : isFinite y = true)
    (h : Style.plain.chars x = Style.plain.chars y) : x = y := by
  have := ofLiteral?_plain_chars hx
  rw [h, ofLiteral?_plain_chars hy] at this
  exact (Option.some.inj this).symm

end Number

end Calculator
