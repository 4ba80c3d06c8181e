import Calculator.Json
import Calculator.Number.Literal

/-!
Reading JSON: every text of the standard grammar, with blanks between tokens and any escapes.
-/

namespace Calculator.Json

def skip (cs : List Char) : List Char :=
  cs.dropWhile fun c => c == ' ' || c == '\x09' || c == '\x0A' || c == '\x0D'

def hexDigit? (c : Char) : Option Nat :=
  if c.isDigit then some (c.toNat - 0x30)
  else if 'a' ≤ c ∧ c ≤ 'f' then some (c.toNat - 0x57)
  else if 'A' ≤ c ∧ c ≤ 'F' then some (c.toNat - 0x37)
  else none

def codeUnit? (a b c d : Char) : Option Nat := do
  return (((← hexDigit? a) * 16 + (← hexDigit? b)) * 16 + (← hexDigit? c)) * 16 + (← hexDigit? d)

def unescape? : Char → Option Char
  | '"' => some '"'
  | '\\' => some '\\'
  | '/' => some '/'
  | 'b' => some '\x08'
  | 'f' => some '\x0C'
  | 'n' => some '\x0A'
  | 'r' => some '\x0D'
  | 't' => some '\x09'
  | _ => none

/-- The character of one code unit, or of two that are surrogates of each other. -/
def ofCodeUnits? (high : Nat) (low : Option Nat) : Option Char :=
  match low with
  | none => if high < 0xD800 ∨ 0xE000 ≤ high then some (Char.ofNat high) else none
  | some low =>
    if 0xD800 ≤ high ∧ high < 0xDC00 ∧ 0xDC00 ≤ low ∧ low < 0xE000 then
      some (Char.ofNat (0x10000 + (high - 0xD800) * 0x400 + (low - 0xDC00)))
    else none

def readChar : List Char → Option (Char × List Char)
  | '\\' :: 'u' :: a :: b :: c :: d :: rest => do
    let unit ← codeUnit? a b c d
    match ofCodeUnits? unit none, rest with
    | some char, _ => some (char, rest)
    | none, '\\' :: 'u' :: e :: f :: g :: h :: rest => do
      let char ← ofCodeUnits? unit (some (← codeUnit? e f g h))
      some (char, rest)
    | none, _ => none
  | '\\' :: c :: rest => (unescape? c).map (·, rest)
  | c :: rest => if c.toNat < 0x20 then none else some (c, rest)
  | [] => none

/-- The characters up to the closing quote, with what follows it. The first argument bounds how
many there may be. -/
def readQuoted : Nat → List Char → Option (List Char × List Char)
  | _, '"' :: rest => some ([], rest)
  | 0, _ => none
  | n + 1, cs => do
    let (c, rest) ← readChar cs
    let (text, rest) ← readQuoted n rest
    return (c :: text, rest)

def isPower : List Char → Bool
  | [] => true
  | c :: cs =>
    let digits := (Number.splitSign cs).2
    (c == 'e' || c == 'E') && !digits.isEmpty && digits.all Char.isDigit

/-- Whether characters are a number without a sign: no needless zero in front, and a digit on either
side of the point and in the exponent. -/
def isUnsigned (cs : List Char) : Bool :=
  let whole := cs.takeWhile Char.isDigit
  !whole.isEmpty && (whole.head? != some '0' || whole.length == 1) &&
    match cs.dropWhile Char.isDigit with
    | '.' :: rest =>
      !(rest.takeWhile Char.isDigit).isEmpty && isPower (rest.dropWhile Char.isDigit)
    | rest => isPower rest

def isNumberPart (c : Char) : Bool :=
  c.isDigit || c == '-' || c == '+' || c == '.' || c == 'e' || c == 'E'

/-- The number that characters stand for, but for its sign. -/
def readUnsigned? (negative : Bool) (cs : List Char) : Option Json :=
  if isUnsigned cs then (Number.decimal? cs).map fun d => number (d.toFloat negative) else none

def readNumber (cs : List Char) : Option (Json × List Char) :=
  let value :=
    match cs.takeWhile isNumberPart with
    | '-' :: unsigned => readUnsigned? true unsigned
    | unsigned => readUnsigned? false unsigned
  value.map (·, cs.dropWhile isNumberPart)

mutual

/-- A value, with what follows it. The first argument bounds how many values there may be. -/
def readValue : Nat → List Char → Option (Json × List Char)
  | 0, _ => none
  | n + 1, cs =>
    match skip cs with
    | 'n' :: 'u' :: 'l' :: 'l' :: rest => some (null, rest)
    | 't' :: 'r' :: 'u' :: 'e' :: rest => some (bool true, rest)
    | 'f' :: 'a' :: 'l' :: 's' :: 'e' :: rest => some (bool false, rest)
    | '"' :: rest => do
      let (text, rest) ← readQuoted rest.length rest
      return (string (String.ofList text), rest)
    | '[' :: rest =>
      match skip rest with
      | ']' :: rest => some (array [], rest)
      | rest => do
        let (items, rest) ← readItems n rest
        return (array items, rest)
    | '\x7b' :: rest =>
      match skip rest with
      | '\x7d' :: rest => some (object [], rest)
      | rest => do
        let (fields, rest) ← readFields n rest
        return (object fields, rest)
    | rest => readNumber rest

def readItems : Nat → List Char → Option (List Json × List Char)
  | 0, _ => none
  | n + 1, cs => do
    let (item, rest) ← readValue n cs
    match skip rest with
    | ']' :: rest => return ([item], rest)
    | ',' :: rest =>
      let (items, rest) ← readItems n rest
      return (item :: items, rest)
    | _ => none

def readFields : Nat → List Char → Option (List (String × Json) × List Char)
  | 0, _ => none
  | n + 1, cs =>
    match skip cs with
    | '"' :: rest => do
      let (key, rest) ← readQuoted rest.length rest
      match skip rest with
      | ':' :: rest =>
        let (value, rest) ← readValue n rest
        let field := (String.ofList key, value)
        match skip rest with
        | '\x7d' :: rest => return ([field], rest)
        | ',' :: rest =>
          let (fields, rest) ← readFields n rest
          return (field :: fields, rest)
        | _ => none
      | _ => none
    | _ => none

end

def read? (cs : List Char) : Option Json :=
  match readValue (2 * cs.length + 1) cs with
  | some (value, rest) => if (skip rest).isEmpty then some value else none
  | none => none

end Calculator.Json
