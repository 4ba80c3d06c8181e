import Calculator.Expr.Formula
import Calculator.Expr.OfPostfix
import Calculator.Expr.Outline
import Calculator.Postfix.Reorder
import Calculator.Postfix.Value
import Calculator.Token.Scanner
import Calculator.Token.Spacing

/-!
What can be asked of the text of a formula: its tokens, its queue, its tree and its value, and how
queue and tree are written. A text of nothing but blanks stands for zero.
-/

namespace Calculator.Formula

def isBlank (text : String) : Bool := Text.isBlankText text.toList

/-- The tokens, in the order in which they are written. -/
def tokens (text : String) : Except Fault (List Token) := Token.scan text.toList

def queue (text : String) : Except Fault (List Token) :=
  if isBlank text then .ok [.number 0]
  else do
    let ts ← tokens text
    Postfix.ofFormula ts

def value (text : String) : Except Fault Float :=
  if isBlank text then .ok 0
  else do
    let ts ← queue text
    Postfix.value ts

def tree (text : String) : Except Fault Expr := do
  let ts ← queue text
  Expr.ofPostfix ts

def queueText (text : String) : Except Fault String := do
  let ts ← queue text
  return Token.queueText ts

/-- The formula as a text without parentheses that its grouping does not need. -/
def plainText (text : String) : Except Fault String := do
  let e ← tree text
  return Token.formulaText e.formula

end Calculator.Formula
