import ServerPages.Text.Blank
import ServerPages.Text.Lines

/-!
# The margin of embedded code

Code inside a template is usually indented to line up with the markup around it. Before it is
written at another depth, the lines below the first one are moved left by the indentation that they
share. If the first line, which follows an opening delimiter, holds code, they keep one column of
it.
-/

namespace ServerPages.Margin

/-- Whether a line holds only a comment. -/
def isComment (line : Text) : Bool := line.trimStart.head? = some '#'

/-- Whether a line holds more than blanks and a comment. -/
def isCode (line : Text) : Bool := !line.isBlank && !isComment line

/-- The least of some numbers. -/
def least? : List Nat → Option Nat
  | [] => none
  | n :: rest => some (rest.foldl Nat.min n)

/-- The indentation that all lines of code share, or none at all without code. -/
def width (lines : List Text) : Nat :=
  (least? ((lines.filter isCode).map fun line => line.leadingBlanks.length)).getD 0

/-- Remove the blanks at the beginning of a line that lie within a number of columns. -/
def stripColumns (columns : Nat) (line : Text) : Text :=
  Text.trimStart (line.take columns) ++ line.drop columns

/-- Move code to the left. The first line stays, trailing blanks of the others go, and all lines end
as the first one does. -/
def remove (code : Text) : Text :=
  match code.firstBreak? with
  | none => code
  | some (first, ending, rest) =>
    let lines := (Text.segments rest).map Text.trimEnd
    let columns := if isCode first then width lines - 1 else width lines
    first ++ lines.flatMap fun line => ending.text ++ stripColumns columns line

end ServerPages.Margin
