/-!
Reading UTF-8. Bytes that are not well formed are split as the Unicode standard recommends: each
longest start of a well-formed sequence, and each byte that starts none, counts as one malformed
piece. Reading for display puts a replacement character in place of each; reading strictly allows
none.
-/

namespace Calculator.Text

def replacement : Char := '\uFFFD'

/-- How many bytes follow a first byte from beyond ASCII, and the range that the next of them lies
in. Bytes that start no character have none. -/
def following? (first : Nat) : Option (Nat × Nat × Nat) :=
  if first < 0xC2 then none
  else if first < 0xE0 then some (1, 0x80, 0xBF)
  else if first = 0xE0 then some (2, 0xA0, 0xBF)
  else if first = 0xED then some (2, 0x80, 0x9F)
  else if first < 0xF0 then some (2, 0x80, 0xBF)
  else if first = 0xF0 then some (3, 0x90, 0xBF)
  else if first < 0xF4 then some (3, 0x80, 0xBF)
  else if first = 0xF4 then some (3, 0x80, 0x8F)
  else none

/-- The bytes at the front, at most `count` of them, that can follow: the first in the given range
and the others from `0x80` to `0xBF`. -/
def continuation (low high : Nat) : Nat → List UInt8 → List Nat
  | 0, _ => []
  | _, [] => []
  | count + 1, b :: bs =>
    if low ≤ b.toNat ∧ b.toNat ≤ high then b.toNat :: continuation 0x80 0xBF count bs else []

/-- The character that starts at a byte, if its bytes are well formed, and how many bytes it or the
malformed piece takes from those that follow. -/
def firstChar (b : UInt8) (bs : List UInt8) : Option Char × Nat :=
  if b.toNat < 0x80 then (some (Char.ofNat b.toNat), 0)
  else
    match following? b.toNat with
    | none => (none, 0)
    | some (count, low, high) =>
      let tail := continuation low high count bs
      if tail.length = count then
        let lead := b.toNat % (1 <<< (6 - count))
        (some (Char.ofNat (tail.foldl (fun code b => code * 0x40 + b % 0x40) lead)), count)
      else (none, tail.length)

/-- The characters of bytes, with nothing in place of each malformed piece. -/
def pieces : List UInt8 → List (Option Char)
  | [] => []
  | b :: bs =>
    let (c, taken) := firstChar b bs
    c :: pieces (bs.drop taken)
termination_by bs => bs.length

/-- The characters of bytes, with the replacement character for each malformed piece. -/
def ofUtf8 (bytes : List UInt8) : List Char := (pieces bytes).map (·.getD replacement)

/-- The characters of bytes that are well formed throughout. -/
def ofUtf8? (bytes : List UInt8) : Option (List Char) := (pieces bytes).mapM id

def toUtf8 (cs : List Char) : List UInt8 := cs.flatMap String.utf8EncodeChar

end Calculator.Text
