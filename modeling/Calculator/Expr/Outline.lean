import Calculator.Expr
import Calculator.Number.Layout
import Calculator.Outline

/-!
Drawing a tree as an outline, each node an item with its operands below it.
-/

namespace Calculator.Expr

def label : Expr → List Char
  | number x => Style.plain.chars x
  | binary op _ _ => [op.symbol]
  | apply f _ => f.name.toList

/-- Puts the tree below the open item. A node that has operands is open while they are put below
it. -/
def addTo (b : Outline.Builder) (e : Expr) : Outline.Builder :=
  match e with
  | number _ => b.addItem e.label
  | binary _ left right => (right.addTo (left.addTo (b.beginItem e.label))).endItem
  | apply _ argument => (argument.addTo (b.beginItem e.label)).endItem

/-- The drawing of a tree below the line `expression`. -/
def outline (e : Expr) : String := (e.addTo (.start "expression".toList)).build.draw

end Calculator.Expr
