import Calculator.Number.Shortest

/-!
The text of a double: the digits of its shortest decimal, laid out in a style. A style says where
positional notation ends, what follows a whole number, how an exponent is signed and which of two
equally short and near decimals is written. Three styles are in use: `plain` inside formulas,
`precise` for results on the command line, `json` inside JSON.
-/

namespace Calculator

/-- How the digits of a number are laid out. -/
structure Style where
  /-- Whether no exponent is written when the point stands this many places right of the place in
  front of the first digit. -/
  positional : Int → Bool
  /-- What follows a whole number that is written without an exponent. -/
  wholeEnd : List Char
  /-- The sign of an exponent that is not negative. -/
  plus : List Char
  tie : Tie

namespace Style

/-- Digits and a point, never an exponent, and nothing after a whole number. -/
def plain : Style := ⟨fun _ => true, [], [], .up⟩

/-- Whole numbers end in `.0`; from `10 ^ 16` on, and below `10 ^ -4`, an exponent is written. -/
def precise : Style := ⟨fun point => -3 ≤ point && point ≤ 16, ['.', '0'], [], .up⟩

/-- Whole numbers end in `.0`; from `10 ^ 16` on, and below `10 ^ -5`, a signed exponent is
written. -/
def json : Style := ⟨fun point => -4 ≤ point && point ≤ 16, ['.', '0'], ['+'], .even⟩

/-- Digits with the point after the first `point` of them. Zeros fill up what is missing in front
or behind. -/
def positionalText (s : Style) (digits : List Char) (point : Int) : List Char :=
  if point ≤ 0 then
    '0' :: '.' :: (List.replicate (-point).toNat '0' ++ digits)
  else if digits.length ≤ point.toNat then
    digits ++ List.replicate (point.toNat - digits.length) '0' ++ s.wholeEnd
  else
    digits.take point.toNat ++ '.' :: digits.drop point.toNat

/-- Digits with the point after the first of them, if there are more, and an exponent. -/
def exponentText (s : Style) (digits : List Char) (exponent : Int) : List Char :=
  let sign := if exponent < 0 then ['-'] else s.plus
  digits.take 1 ++ (if digits.length ≤ 1 then [] else '.' :: digits.drop 1) ++
    'e' :: (sign ++ Nat.toDigits 10 exponent.natAbs)

/-- The text of a decimal, digit by digit. -/
def decimalText (s : Style) (d : Decimal) : List Char :=
  let digits := Nat.toDigits 10 d.digits
  let point := digits.length + d.exponent
  if s.positional point then s.positionalText digits point
  else s.exponentText digits (point - 1)

/-- The text of a magnitude. Zero has no exponent. -/
def magnitudeText (s : Style) (m : Nat) : List Char :=
  if m = 0 then s.decimalText ⟨0, 0⟩
  else if m < Number.infinity then s.decimalText (.shortest s.tie m)
  else ['i', 'n', 'f']

/-- The text of a double: a dash if it is negative, then its magnitude. What is not a number has no
sign. -/
def chars (s : Style) (x : Float) : List Char :=
  if Number.isNaN x then ['N', 'a', 'N']
  else if Number.isNegative x then '-' :: s.magnitudeText (Number.magnitude x)
  else s.magnitudeText (Number.magnitude x)

def text (s : Style) (x : Float) : String := String.ofList (s.chars x)

example : plain.text 1e16 = "10000000000000000" ∧ precise.text 1e16 = "1e16" ∧
    json.text 1e16 = "1e+16" := by
  decide +kernel

example : plain.text (-0.00001) = "-0.00001" ∧ precise.text (-0.00001) = "-1e-5" ∧
    json.text (-0.00001) = "-0.00001" := by
  decide +kernel

example : plain.text (-0.0) = "-0" ∧ precise.text (-0.0) = "-0.0" ∧ json.text (-0.0) = "-0.0" := by
  decide +kernel

/-- Two decimals of seventeen digits are equally near to `2 ^ -25`. -/
example : precise.text (1 / 33554432) = "2.9802322387695313e-8" ∧
    json.text (1 / 33554432) = "2.9802322387695312e-8" := by
  decide +kernel

end Style

end Calculator
