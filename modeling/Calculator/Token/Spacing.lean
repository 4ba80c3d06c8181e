import Calculator.Number.Layout
import Calculator.Token

/-!
Writing tokens. A formula has a space on either side of its operators, but none around a power, and
a space between a function and an argument without parentheses. A queue has one space between
tokens.
-/

namespace Calculator.Token

def chars : Token → List Char
  | number x => Style.plain.chars x
  | binary op => [op.symbol]
  | func f => f.name.toList
  | leftParen => ['(']
  | rightParen => [')']

def text (t : Token) : String := String.ofList t.chars

/-- The text of a token with the spaces that a formula has around it when `next` follows. -/
def spacedChars (t : Token) (next : Option Token) : List Char :=
  match t, next with
  | binary .power, _ => t.chars
  | binary _, _ => ' ' :: t.chars ++ [' ']
  | func _, none | func _, some leftParen => t.chars
  | func _, some _ => t.chars ++ [' ']
  | number _, _ | leftParen, _ | rightParen, _ => t.chars

/-- The text of tokens as a formula. -/
def formulaChars : List Token → List Char
  | [] => []
  | t :: ts => t.spacedChars ts.head? ++ formulaChars ts

def formulaText (ts : List Token) : String := String.ofList (formulaChars ts)

/-- The text of tokens with one space between them. -/
def queueChars (ts : List Token) : List Char := [' '].intercalate (ts.map chars)

def queueText (ts : List Token) : String := String.ofList (queueChars ts)

end Calculator.Token
