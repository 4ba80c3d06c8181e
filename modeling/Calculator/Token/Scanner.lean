import Calculator.Fault
import Calculator.Number.Literal
import Calculator.Text.Blank
import Calculator.Token

/-!
Splitting a text into tokens, from left to right. Blanks separate tokens and are dropped; a run of
digits and points is one literal and a run of letters one name. A dash is the sign of a literal
unless a number stands directly before it, and that is all the scanner remembers of what it has
read.
-/

namespace Calculator.Token

/-- The characters of a literal behind its sign. -/
def isNumeral (c : Char) : Bool := c.isDigit || c == '.'

def isLetter (c : Char) : Bool := c.isAlpha

/-- The number token of a literal, which is quoted as written if it is none. -/
def ofLiteral (literal : List Char) : Except Fault Token :=
  match Number.ofLiteral? literal with
  | some x => .ok (number x)
  | none => .error (.invalidNumber (String.ofList literal))

def ofName (name : List Char) : Except Fault Token :=
  match Func.ofName? (String.ofList name) with
  | some f => .ok (func f)
  | none => .error (.unknownFunction (String.ofList name))

/-- The token that starts at the character `c`, which is no blank, with what follows it. -/
def first (afterNumber : Bool) (c : Char) (cs : List Char) : Except Fault (Token × List Char) :=
  if isNumeral c || (c == '-' && !afterNumber) then
    (ofLiteral (c :: cs.takeWhile isNumeral)).map (·, cs.dropWhile isNumeral)
  else if c == '(' then .ok (leftParen, cs)
  else if c == ')' then .ok (rightParen, cs)
  else if isLetter c then
    (ofName (c :: cs.takeWhile isLetter)).map (·, cs.dropWhile isLetter)
  else
    match BinaryOp.ofSymbol? c with
    | some op => .ok (binary op, cs)
    | none => .error (.invalidCharacter c)

theorem length_dropWhile_le (p : Char → Bool) (cs : List Char) :
    (cs.dropWhile p).length ≤ cs.length :=
  (List.dropWhile_sublist p).length_le

theorem length_le_of_first {afterNumber : Bool} {c : Char} {cs rest : List Char} {t : Token}
    (h : first afterNumber c cs = .ok (t, rest)) : rest.length ≤ cs.length := by
  unfold first at h
  split at h
  · cases hl : ofLiteral (c :: cs.takeWhile isNumeral) with
    | error e => simp [hl, Except.map] at h
    | ok t => simp only [hl, Except.map, Except.ok.injEq, Prod.mk.injEq] at h
              exact h.2 ▸ length_dropWhile_le _ _
  · split at h
    · cases h; exact Nat.le_refl _
    · split at h
      · cases h; exact Nat.le_refl _
      · split at h
        · cases hn : ofName (c :: cs.takeWhile isLetter) with
          | error e => simp [hn, Except.map] at h
          | ok t => simp only [hn, Except.map, Except.ok.injEq, Prod.mk.injEq] at h
                    exact h.2 ▸ length_dropWhile_le _ _
        · split at h
          · cases h; exact Nat.le_refl _
          · cases h

/-- The tokens of a text, where `afterNumber` says whether a number stands directly before it. -/
def scanAfter (afterNumber : Bool) : List Char → Except Fault (List Token)
  | [] => .ok []
  | c :: cs =>
    if Text.isBlank c then scanAfter afterNumber cs
    else
      match h : first afterNumber c cs with
      | .error fault => .error fault
      | .ok (t, rest) =>
        have : rest.length ≤ cs.length := length_le_of_first h
        (scanAfter t.isNumber rest).map (t :: ·)
termination_by cs => cs.length

def scan (cs : List Char) : Except Fault (List Token) := scanAfter false cs

end Calculator.Token
