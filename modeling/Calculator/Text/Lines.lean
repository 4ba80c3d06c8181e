/-!
The lines of a text. A line feed ends a line, and a carriage return directly before it belongs to
the end; what follows the last line feed is a line only if there is something.
-/

namespace Calculator.Text

/-- The lines of a text without their ends. -/
def lines : List Char → List (List Char)
  | [] => []
  | '\n' :: cs => [] :: lines cs
  | '\r' :: '\n' :: cs => [] :: lines cs
  | c :: cs =>
    match lines cs with
    | [] => [[c]]
    | line :: rest => (c :: line) :: rest

end Calculator.Text
