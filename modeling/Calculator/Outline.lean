/-!
Outlines: items with other items below them, each a line of text. An outline is built from its first
line on; one item is open at any time, and what comes next is put below it. Drawn, each line shows
where its item hangs: a branch if more siblings follow it, a corner if none does, and before that a
bar for each item around it that has more to come.
-/

namespace Calculator

/-- An item with the items below it. -/
inductive Outline where
  | item (text : List Char) (below : List Outline)

namespace Outline

/-- An outline as far as it is built: the open item with what is below it so far, and the items
around it in the same way, from the inside outwards. -/
structure Builder where
  text : List Char
  below : List Outline
  around : List (List Char × List Outline)

namespace Builder

def start (text : List Char) : Builder := ⟨text, [], []⟩

/-- Puts an item below the open one. -/
def addItem (b : Builder) (text : List Char) : Builder :=
  { b with below := b.below ++ [item text []] }

/-- Puts an item below the open one and opens it. -/
def beginItem (b : Builder) (text : List Char) : Builder :=
  ⟨text, [], (b.text, b.below) :: b.around⟩

/-- Closes the open item, unless it is the outermost one. -/
def endItem (b : Builder) : Builder :=
  match b.around with
  | [] => b
  | (text, below) :: around => ⟨text, below ++ [item b.text b.below], around⟩

/-- The outline, with the items closed that are still open. -/
def build (b : Builder) : Outline :=
  b.around.foldl (fun inner (text, below) => item text (below ++ [inner])) (item b.text b.below)

end Builder

/-- The branch or corner that an item hangs from. -/
def hook (isLast : Bool) : List Char :=
  if isLast then ['└', '─', ' '] else ['├', '─', ' ']

/-- What stands in that place on the lines of what lies below the item. -/
def bar (isLast : Bool) : List Char :=
  if isLast then [' ', ' ', ' '] else ['│', ' ', ' ']

mutual

/-- The lines of an item that hangs behind `indent`. -/
def lines (indent : List Char) (isLast : Bool) : Outline → List (List Char)
  | item text below =>
    (indent ++ hook isLast ++ text) :: linesBelow (indent ++ bar isLast) below

/-- The lines of items that hang behind `indent`, one below the other. -/
def linesBelow (indent : List Char) : List Outline → List (List Char)
  | [] => []
  | o :: rest => o.lines indent rest.isEmpty ++ linesBelow indent rest

end

/-- The drawing. The outermost item hangs nowhere, and the items below it are not indented. -/
def draw : Outline → String
  | item text below => String.ofList ((text :: linesBelow [] below).flatMap (· ++ ['\n']))

end Outline

end Calculator
