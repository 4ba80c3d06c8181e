import Calculator.Text.Utf8

/-!
Form data in a query: pairs of a key and a value, joined by `&`, with `=` between key and value.
A space is written as `+`, and a byte that is not a letter, a digit or one of `*-._` as `%` and two
hexadecimal digits. Reading is lenient: a `%` without two digits stands for itself, a pair without
`=` has an empty value, and bytes that are not UTF-8 are replaced.
-/

namespace Calculator.Web.Form

def hexDigit? (b : UInt8) : Option UInt8 :=
  if 0x30 ≤ b && b ≤ 0x39 then some (b - 0x30)
  else if 0x41 ≤ b && b ≤ 0x46 then some (b - 0x37)
  else if 0x61 ≤ b && b ≤ 0x66 then some (b - 0x57)
  else none

/-- Puts the byte in place of each `%` with two hexadecimal digits. -/
def percentDecode : List UInt8 → List UInt8
  | 0x25 :: a :: b :: rest =>
    match hexDigit? a, hexDigit? b with
    | some high, some low => (high * 16 + low) :: percentDecode rest
    | _, _ => 0x25 :: percentDecode (a :: b :: rest)
  | b :: rest => b :: percentDecode rest
  | [] => []

def decode (bytes : List UInt8) : String :=
  String.ofList (Text.ofUtf8 (percentDecode (bytes.map fun b => if b == 0x2B then 0x20 else b)))

/-- The parts between separators; their number is one more than that of the separators. -/
def splitOn (separator : UInt8) : List UInt8 → List (List UInt8)
  | [] => [[]]
  | b :: bs =>
    if b == separator then [] :: splitOn separator bs
    else
      match splitOn separator bs with
      | [] => [[b]]
      | part :: parts => (b :: part) :: parts

/-- The key and the value of a pair, which the first `=` separates. -/
def readPair (bytes : List UInt8) : String × String :=
  (decode (bytes.takeWhile (· != 0x3D)), decode ((bytes.dropWhile (· != 0x3D)).drop 1))

/-- The pairs of a query. Nothing between two `&` is no pair. -/
def read (query : List Char) : List (String × String) :=
  ((splitOn 0x26 (Text.toUtf8 query)).filter (!·.isEmpty)).map readPair

def encodeByte (b : UInt8) : List Char :=
  let c := Char.ofNat b.toNat
  if c.isAlphanum || ['*', '-', '.', '_'].contains c then [c]
  else if c == ' ' then ['+']
  else ['%', (Nat.digitChar (b.toNat / 16)).toUpper, (Nat.digitChar (b.toNat % 16)).toUpper]

/-- A key or a value as it is written in form data. -/
def encode (s : String) : List Char := (Text.toUtf8 s.toList).flatMap encodeByte

/-- The query that writes some pairs. -/
def write (pairs : List (String × String)) : List Char :=
  ['&'].intercalate (pairs.map fun pair => encode pair.1 ++ '=' :: encode pair.2)

end Calculator.Web.Form
