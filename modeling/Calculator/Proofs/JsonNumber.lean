import Calculator.Json.Reader
import Calculator.Number.ReadBack

/-!
What JSON holds of a finite double is read back as that double, bit for bit: the digits are those of
its shortest decimal, and no character that may follow a value belongs to a number.
-/

namespace Calculator

namespace Json

section Prefixes

variable {p : Char → Bool} {cs rest : List Char}

theorem takeWhile_append_of_head? (all : ∀ c ∈ cs, p c = true)
    (ends : ∀ c ∈ rest.head?, p c = false) : (cs ++ rest).takeWhile p = cs := by
  rw [List.takeWhile_append_of_pos all]
  cases rest with
  | nil => simp
  | cons c rest => simp [ends c rfl]

theorem dropWhile_append_of_head? (all : ∀ c ∈ cs, p c = true)
    (ends : ∀ c ∈ rest.head?, p c = false) : (cs ++ rest).dropWhile p = rest := by
  rw [List.dropWhile_append_of_pos all]
  cases rest with
  | nil => simp
  | cons c rest => simp [ends c rfl]

end Prefixes

theorem isNumberPart_of_isDigit {c : Char} (h : c.isDigit = true) : isNumberPart c = true := by
  simp [isNumberPart, h]

theorem not_isDigit_of_isPower {cs : List Char} (h : isPower cs = true) :
    ∀ c ∈ cs.head?, c.isDigit = false := by
  cases cs with
  | nil => simp
  | cons d cs =>
    have mark : d = 'e' ∨ d = 'E' := by
      simp only [isPower, Bool.and_eq_true, Bool.or_eq_true, beq_iff_eq] at h
      exact h.1.1
    intro c hc
    obtain rfl : d = c := Option.some.inj hc
    rcases mark with rfl | rfl <;> decide

theorem isNumberPart_of_isPower {cs : List Char} (h : isPower cs = true) :
    ∀ c ∈ cs, isNumberPart c = true := by
  cases cs with
  | nil => simp
  | cons d cs =>
    simp only [isPower, Bool.and_eq_true, Bool.or_eq_true, beq_iff_eq, List.all_eq_true] at h
    obtain ⟨⟨mark, -⟩, digits⟩ := h
    intro c hc
    rcases List.mem_cons.mp hc with rfl | hc
    · rcases mark with rfl | rfl <;> decide
    · unfold Number.splitSign at digits
      split at digits
      · rcases List.mem_cons.mp hc with rfl | hc
        · decide
        · exact isNumberPart_of_isDigit (digits c hc)
      · rcases List.mem_cons.mp hc with rfl | hc
        · decide
        · exact isNumberPart_of_isDigit (digits c hc)
      · exact isNumberPart_of_isDigit (digits c hc)

/-- Every character of a number counts as a part of one. -/
theorem isNumberPart_of_isUnsigned {cs : List Char} (h : isUnsigned cs = true) :
    ∀ c ∈ cs, isNumberPart c = true := by
  have digits : ∀ {cs : List Char}, ∀ c ∈ cs.takeWhile Char.isDigit, isNumberPart c = true :=
    fun c hc => isNumberPart_of_isDigit (List.all_eq_true.mp List.all_takeWhile c hc)
  simp only [isUnsigned, Bool.and_eq_true] at h
  intro c hc
  rw [← List.takeWhile_append_dropWhile (p := Char.isDigit) (l := cs)] at hc
  rcases List.mem_append.mp hc with hc | hc
  · exact digits c hc
  · have ends := h.2
    split at ends
    · next rest hrest =>
      simp only [Bool.and_eq_true] at ends
      rw [hrest] at hc
      rcases List.mem_cons.mp hc with rfl | hc
      · decide
      · rw [← List.takeWhile_append_dropWhile (p := Char.isDigit) (l := rest)] at hc
        rcases List.mem_append.mp hc with hc | hc
        · exact digits c hc
        · exact isNumberPart_of_isPower ends.2 c hc
    · exact isNumberPart_of_isPower ends c hc

theorem exists_digit_of_isUnsigned {cs : List Char} (h : isUnsigned cs = true) :
    ∃ c rest, cs = c :: rest ∧ c.isDigit = true := by
  cases cs with
  | nil => simp [isUnsigned] at h
  | cons c rest =>
    refine ⟨c, rest, rfl, ?_⟩
    by_contra not
    simp [isUnsigned, not] at h

/-- Digits with a point among them, or without one, and an exponent, or none. -/
theorem isUnsigned_pointed {whole fraction power : List Char}
    (parts : Decimal.Parts whole fraction)
    (zero : whole.head? ≠ some '0' ∨ whole.length = 1) (hpower : isPower power = true) :
    isUnsigned (Decimal.pointed whole fraction ++ power) = true := by
  obtain ⟨h, allWhole, allFraction⟩ := parts
  have ends := not_isDigit_of_isPower hpower
  have needless : (whole.head? != some '0' || whole.length == 1) = true := by simpa using zero
  unfold Decimal.pointed
  split
  · simp only [isUnsigned, takeWhile_append_of_head? allWhole ends,
      dropWhile_append_of_head? allWhole ends]
    split
    · cases hpower
    · simp [h, needless, hpower]
  · next hfraction =>
    have point : ∀ c ∈ ('.' :: (fraction ++ power)).head?, c.isDigit = false := by simp
    simp only [List.append_assoc, List.cons_append, isUnsigned,
      takeWhile_append_of_head? allWhole point, dropWhile_append_of_head? allWhole point,
      takeWhile_append_of_head? allFraction ends, dropWhile_append_of_head? allFraction ends]
    simp [h, needless, hpower, hfraction]

end Json

namespace Decimal

theorem isDigit_or_eq_point {whole fraction : List Char} (parts : Parts whole fraction) :
    ∀ c ∈ pointed whole fraction, c.isDigit = true ∨ c = '.' := by
  intro c h
  unfold pointed at h
  split at h
  · exact .inl (parts.isDigit_whole c h)
  · rcases List.mem_append.mp h with h | h
    · exact .inl (parts.isDigit_whole c h)
    · rcases List.mem_cons.mp h with h | h
      · exact .inr h
      · exact .inl (parts.isDigit_fraction c h)

end Decimal

namespace Number

theorem not_mark {c : Char} (h : c.isDigit = true ∨ c = '.') :
    (!(c == 'e' || c == 'E')) = true := by
  rcases h with h | rfl
  · rcases Decidable.em (c = 'e' ∨ c = 'E') with (rfl | rfl) | hmark
    · cases h
    · cases h
    · simpa using hmark
  · decide

theorem decimal?_eq_read? {cs : List Char} (h : ∀ c ∈ cs, c.isDigit = true ∨ c = '.') :
    decimal? cs = Decimal.read? cs := by
  have none : cs.dropWhile (fun c => !(c == 'e' || c == 'E')) = [] :=
    List.dropWhile_eq_nil_iff.mpr fun c hc => not_mark (h c hc)
  simp only [decimal?, none]

theorem decimal?_append_power {cs power : List Char} {d : Decimal} {k : Int}
    (h : ∀ c ∈ cs, c.isDigit = true ∨ c = '.') (read : Decimal.read? cs = some d)
    (exponent : exponent? power = some k) :
    decimal? (cs ++ 'e' :: power) = some ⟨d.digits, d.exponent + k⟩ := by
  have all : ∀ c ∈ cs, (!(c == 'e' || c == 'E')) = true := fun c hc => not_mark (h c hc)
  have ends : ∀ c ∈ ('e' :: power).head?, (!(c == 'e' || c == 'E')) = false := by simp
  simp only [decimal?, Json.takeWhile_append_of_head? all ends,
    Json.dropWhile_append_of_head? all ends, read, exponent]
  rfl

/-- The exponent that JSON writes. -/
theorem splitSign_power (k : Int) :
    splitSign ((if k < 0 then ['-'] else Style.json.plus) ++ Nat.toDigits 10 k.natAbs) =
      (decide (k < 0), Nat.toDigits 10 k.natAbs) := by
  split
  · next h => simp [splitSign, h]
  · next h => simp [splitSign, Style.json, h]

theorem all_isDigit_toDigits (n : Nat) : (Nat.toDigits 10 n).all Char.isDigit = true :=
  List.all_eq_true.mpr fun _ h => Style.isDigit_of_mem_toDigits h

theorem exponent?_power (k : Int) :
    exponent? ((if k < 0 then ['-'] else Style.json.plus) ++ Nat.toDigits 10 k.natAbs) =
      some k := by
  have value : (if k < 0 then -(k.natAbs : Int) else k.natAbs) = k := by split <;> omega
  simp only [exponent?, splitSign_power, all_isDigit_toDigits, Nat.ofDigitChars_ten_toDigits,
    List.isEmpty_eq_false_iff.mpr Nat.toDigits_ne_nil, Bool.not_true, Bool.or_self,
    Bool.false_eq_true, if_false, decide_eq_true_eq, value]

theorem isPower_power (k : Int) :
    Json.isPower
      ('e' :: ((if k < 0 then ['-'] else Style.json.plus) ++ Nat.toDigits 10 k.natAbs)) = true := by
  simp only [Json.isPower, splitSign_power, all_isDigit_toDigits,
    List.isEmpty_eq_false_iff.mpr Nat.toDigits_ne_nil]
  rfl

end Number

namespace Style

open Decimal (pointed)

theorem exponentText_eq_pointed (s : Style) (digits : List Char) (k : Int) :
    s.exponentText digits k = pointed (digits.take 1) (digits.drop 1) ++
      'e' :: ((if k < 0 then ['-'] else s.plus) ++ Nat.toDigits 10 k.natAbs) := by
  simp only [exponentText, pointed, List.isEmpty_iff, List.drop_eq_nil_iff]
  split <;> simp

/-- With an exponent, a decimal is read with the digits and the exponent that it has. -/
theorem json_exponentText {d : Decimal} {digits : List Char} (h : Nat.toDigits 10 d.digits = digits)
    {k : Int} (hk : digits.length + d.exponent - 1 = k) :
    Json.isUnsigned (json.exponentText digits k) = true ∧
      Number.decimal? (json.exponentText digits k) = some d := by
  have digit : ∀ c ∈ digits, c.isDigit = true := fun c hc => isDigit_of_mem_toDigits (h ▸ hc)
  have someDigit : 0 < digits.length := h ▸ Nat.length_toDigits_pos
  have single : (digits.take 1).length = 1 := by
    rw [List.length_take]
    omega
  have parts : Decimal.Parts (digits.take 1) (digits.drop 1) :=
    ⟨List.ne_nil_of_length_pos (by omega), fun c hc => digit c (List.mem_of_mem_take hc),
      fun c hc => digit c (List.mem_of_mem_drop hc)⟩
  have mantissa : Decimal.read? (pointed (digits.take 1) (digits.drop 1)) =
      some ⟨d.digits, -(digits.drop 1).length⟩ := by
    rw [Decimal.read?_pointed parts, List.take_append_drop, ← h,
      Nat.ofDigitChars_ten_toDigits]
  have exponent : -((digits.drop 1).length : Int) + k = d.exponent := by
    rw [List.length_drop]
    omega
  have decimal := Number.decimal?_append_power (Decimal.isDigit_or_eq_point parts) mantissa
    (Number.exponent?_power k)
  rw [exponent] at decimal
  rw [exponentText_eq_pointed]
  exact ⟨Json.isUnsigned_pointed parts (.inr single) (Number.isPower_power k), decimal⟩

/-- A decimal in the style of JSON is a number of JSON, and is read as an equal one. -/
theorem json_decimalText {d : Decimal} (h : d.digits ≠ 0 ∨ d.exponent = 0) :
    Json.isUnsigned (json.decimalText d) = true ∧
      ∃ e, Number.decimal? (json.decimalText d) = some e ∧ d.Same e := by
  simp only [decimalText]
  split
  · obtain ⟨whole, fraction, text, parts⟩ :=
      exists_pointed_positionalText (s := json) (.inr rfl) d.digits d.exponent
    have noPower : Json.isPower [] = true := rfl
    have number := Json.isUnsigned_pointed parts.toParts (parts.no_needless_zero h) noPower
    rw [List.append_nil] at number
    rw [text, Number.decimal?_eq_read? (Decimal.isDigit_or_eq_point parts.toParts),
      Decimal.read?_pointed parts.toParts]
    exact ⟨number, _, rfl, parts.same⟩
  · obtain ⟨number, decimal⟩ := json_exponentText (d := d) rfl rfl
    exact ⟨number, d, decimal, .refl d⟩

end Style

namespace Json

/-- A finite magnitude in the style of JSON is read as the double of that magnitude. -/
theorem readUnsigned?_magnitudeText (negative : Bool) {m : Nat} (h : m < Number.infinity) :
    isUnsigned (Style.json.magnitudeText m) = true ∧
      readUnsigned? negative (Style.json.magnitudeText m) =
        some (number (Number.ofMagnitude negative m)) := by
  suffices written : ∃ d : Decimal, Style.json.magnitudeText m = Style.json.decimalText d ∧
      (d.digits ≠ 0 ∨ d.exponent = 0) ∧ d.roundsTo m = true by
    obtain ⟨d, text, zero, rounds⟩ := written
    obtain ⟨unsigned, e, read, same⟩ := Style.json_decimalText zero
    rw [Decimal.roundsTo_congr same] at rounds
    rw [text]
    refine ⟨unsigned, ?_⟩
    rw [readUnsigned?, if_pos unsigned, read, Option.map_some, Decimal.toFloat,
      Decimal.magnitude_eq_of_roundsTo rounds (Nat.le_of_lt h)]
  unfold Style.magnitudeText
  by_cases zero : m = 0
  · subst zero
    exact ⟨⟨0, 0⟩, rfl, .inr rfl, by decide +kernel⟩
  · rw [if_neg zero, if_pos h]
    have rounds := Decimal.roundsTo_shortest Style.json.tie m
    exact ⟨_, rfl, .inl (Decimal.digits_ne_zero_of_roundsTo rounds (Nat.pos_of_ne_zero zero)),
      rounds⟩

theorem readNumber_append_dash {cs rest : List Char} {j : Json} (h : isUnsigned cs = true)
    (read : readUnsigned? true cs = some j) (ends : ∀ c ∈ rest.head?, isNumberPart c = false) :
    readNumber ('-' :: cs ++ rest) = some (j, rest) := by
  have parts : ∀ c ∈ '-' :: cs, isNumberPart c = true :=
    List.forall_mem_cons.mpr ⟨by decide, isNumberPart_of_isUnsigned h⟩
  unfold readNumber
  rw [takeWhile_append_of_head? parts ends, dropWhile_append_of_head? parts ends]
  simp only [read, Option.map_some]

theorem readNumber_append {cs rest : List Char} {j : Json} (h : isUnsigned cs = true)
    (read : readUnsigned? false cs = some j) (ends : ∀ c ∈ rest.head?, isNumberPart c = false) :
    readNumber (cs ++ rest) = some (j, rest) := by
  have parts := isNumberPart_of_isUnsigned h
  obtain ⟨c, digits, rfl, digit⟩ := exists_digit_of_isUnsigned h
  unfold readNumber
  rw [takeWhile_append_of_head? parts ends, dropWhile_append_of_head? parts ends]
  split
  · next hdash =>
    cases hdash
    cases digit
  · simp only [read, Option.map_some]

/-- A finite double starts with a dash or a digit. -/
theorem exists_number_chars_eq_cons {x : Float} (h : Number.isFinite x = true) :
    ∃ c cs, Style.json.chars x = c :: cs ∧ (c = '-' ∨ c.isDigit = true) := by
  obtain ⟨unsigned, -⟩ :=
    readUnsigned?_magnitudeText (Number.isNegative x) (Number.magnitude_lt_infinity h)
  obtain ⟨c, cs, text, digit⟩ := exists_digit_of_isUnsigned unsigned
  rw [Number.chars_of_isFinite _ h]
  split
  · exact ⟨_, _, rfl, .inl rfl⟩
  · exact ⟨c, cs, text, .inr digit⟩

/-- A finite double is read back as itself, up to where what follows can be no part of a number. -/
theorem readNumber_chars {x : Float} (h : Number.isFinite x = true) {rest : List Char}
    (ends : ∀ c ∈ rest.head?, isNumberPart c = false) :
    readNumber (Style.json.chars x ++ rest) = some (number x, rest) := by
  obtain ⟨unsigned, read⟩ :=
    readUnsigned?_magnitudeText (Number.isNegative x) (Number.magnitude_lt_infinity h)
  rw [Number.ofMagnitude_magnitude h] at read
  rw [Number.chars_of_isFinite _ h]
  split
  · next negative =>
    rw [negative] at read
    exact readNumber_append_dash unsigned read ends
  · next positive =>
    rw [Bool.not_eq_true] at positive
    rw [positive] at read
    exact readNumber_append unsigned read ends

end Json

end Calculator
