/-!
# Splitting texts

A text as the list of its lines, with and without their line ends, and a text cut at the first
occurrence of a character.
-/

namespace WgslKernel.Text

/-- The pieces between the occurrences of `sep`: one more than there are occurrences. -/
def splitAt (sep : Char) : List Char → List (List Char)
  | [] => [[]]
  | c :: cs =>
    if c = sep then [] :: splitAt sep cs
    else
      match splitAt sep cs with
      | [] => [[c]]
      | piece :: pieces => (c :: piece) :: pieces

/-- The lines of a text, cut at its line ends.  What follows the last one counts as a line even if
it is empty, and a carriage return stays on its line. -/
def lines (cs : List Char) : List (List Char) := splitAt '\n' cs

/-- The characters that end a line: line feed, vertical tab, form feed, carriage return, next
line, line separator and paragraph separator. -/
def isLineEnd (c : Char) : Bool := [0x0A, 0x0B, 0x0C, 0x0D, 0x85, 0x2028, 0x2029].contains c.toNat

/-- The lines of a text with their line ends.  A carriage return and line feed are one end. -/
def rawLines : List Char → List (List Char)
  | [] => []
  | '\r' :: '\n' :: cs => ['\r', '\n'] :: rawLines cs
  | c :: cs =>
    if isLineEnd c then [c] :: rawLines cs
    else
      match rawLines cs with
      | [] => [[c]]
      | line :: lines => (c :: line) :: lines

/-- The text before and after the first `sep`, if there is one. -/
def cut? (sep : Char) : List Char → Option (List Char × List Char)
  | [] => none
  | c :: cs =>
    if c = sep then some ([], cs)
    else (cut? sep cs).map fun (before, after) => (c :: before, after)

end WgslKernel.Text
