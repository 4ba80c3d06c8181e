import Calculator.Number.Layout

/-!
Reading numbers. In a formula a literal is a run of digits and points, with a dash in front if it is
negative, and has to round to a finite double. Elsewhere a number may have either sign and an
exponent, and may be infinite or not a number.
-/

namespace Calculator.Number

/-- Splits a sign from what it stands before: whether it is a dash, and the rest. -/
def splitSign : List Char → Bool × List Char
  | '-' :: cs => (true, cs)
  | '+' :: cs => (false, cs)
  | cs => (false, cs)

def ofLiteral? : List Char → Option Float
  | '-' :: cs => finite? true cs
  | cs => finite? false cs
where
  /-- The double nearest to the digits, unless it is infinite. -/
  finite? (negative : Bool) (cs : List Char) : Option Float :=
    match Decimal.read? cs with
    | none => none
    | some d =>
      let m := d.magnitude
      if m < infinity then some (ofMagnitude negative m) else none

/-- Reads an exponent: a sign, if any, and digits. -/
def exponent? (cs : List Char) : Option Int :=
  let (negative, digits) := splitSign cs
  if digits.isEmpty || !digits.all Char.isDigit then none
  else
    let n := Nat.ofDigitChars 10 digits 0
    some (if negative then -n else n)

/-- Reads digits with at most one point and, if an `e` follows, an exponent. -/
def decimal? (cs : List Char) : Option Decimal :=
  let isMark c := c == 'e' || c == 'E'
  match cs.dropWhile (!isMark ·) with
  | [] => Decimal.read? cs
  | _ :: power => do
    let d ← Decimal.read? (cs.takeWhile (!isMark ·))
    let e ← exponent? power
    return ⟨d.digits, d.exponent + e⟩

/-- Reads a number with an optional sign, also one that is infinite or not a number. Letters may be
written in either case. -/
def read? (cs : List Char) : Option Float :=
  let (negative, rest) := splitSign cs
  let word := String.ofList (rest.map Char.toLower)
  if word = "nan" then some (.ofBits 0x7FF8000000000000)
  else if word = "inf" ∨ word = "infinity" then some (ofMagnitude negative infinity)
  else (decimal? rest).map (Decimal.toFloat negative)

end Calculator.Number
