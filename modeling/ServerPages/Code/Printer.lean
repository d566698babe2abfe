import ServerPages.Options.Basic

/-!
# Printing code

A printer collects the text of the generated module and knows how far the next line is indented. The
indentation is one unit for each open level, and after it the indentation that a script may hand on
to what follows it. Levels at or below the floor cannot be closed, which keeps the page body inside
its method.
-/

namespace ServerPages

/-- The state of printing. -/
structure Printer where
  /-- What has been written, the latest character first. -/
  written : Text
  /-- The number of open levels. -/
  depth : Nat
  /-- The number of levels that stay open. -/
  floor : Nat
  /-- The block style. -/
  style : BlockStyle
  /-- The indentation width. -/
  spaces : Nat
  /-- The indentation that a script has handed on. -/
  userIndent : Text
  /-- The number of blocks that scripts have opened and not closed. -/
  blockCount : Nat
  deriving DecidableEq, Repr

namespace Printer

/-- Nothing written, and no level open. -/
def start (style : BlockStyle) (spaces : Nat) : Printer := ⟨[], 0, 0, style, spaces, [], 0⟩

/-- The text that has been written. -/
def text (p : Printer) : Text := p.written.reverse

/-- The indentation of one level. -/
def unit (p : Printer) : Text :=
  match p.style with
  | .tabs => ['\t']
  | .spaces | .braces => List.replicate p.spaces ' '

/-- The indentation of the next line. Without an open level there is none at all. -/
def indentation (p : Printer) : Text :=
  if p.depth = 0 then [] else (List.replicate p.depth p.unit).flatten ++ p.userIndent

/-- Write a text as it is. -/
def write (p : Printer) (t : Text) : Printer := { p with written := t.reverse ++ p.written }

/-- Write the indentation of a line. -/
def writeIndent (p : Printer) : Printer := p.write p.indentation

/-- End a line, or leave one empty. -/
def newline (p : Printer) : Printer := p.write ['\n']

/-- Write a line. An empty line is not indented. -/
def writeLine (p : Printer) (line : Text) : Printer :=
  if line = [] then p.newline else (p.writeIndent.write line).newline

/-- Write lines. -/
def writeLines (p : Printer) (lines : List Text) : Printer := lines.foldl writeLine p

/-- Open a level. -/
def indent (p : Printer) : Printer := { p with depth := p.depth + 1 }

/-- Close a level above the floor. -/
def dedent (p : Printer) : Printer :=
  if p.floor < p.depth then { p with depth := p.depth - 1 } else p

/-- Write lines one level deeper. -/
def writeInner (p : Printer) (lines : List Text) : Printer := (p.indent.writeLines lines).dedent

/-- Open a level for a block of a script. -/
def openBlock (p : Printer) : Printer := { p.indent with blockCount := p.blockCount + 1 }

/-- Close a level for a block of a script. -/
def closeBlock (p : Printer) : Printer := { p.dedent with blockCount := p.blockCount - 1 }

/-- Keep the levels that are open now. -/
def setFloor (p : Printer) : Printer := { p with floor := p.depth }

/-- Let every level be closed. -/
def clearFloor (p : Printer) : Printer := { p with floor := 0 }

/-- Close every level. -/
def closeAll (p : Printer) : Printer := { p.clearFloor with depth := 0 }

/-- Hand on an indentation. -/
def setUserIndent (p : Printer) (userIndent : Text) : Printer := { p with userIndent }

/-- Change the block style. -/
def setStyle (p : Printer) (style : BlockStyle) : Printer := { p with style }

/-- Change the indentation width. -/
def setSpaces (p : Printer) (spaces : Nat) : Printer := { p with spaces }

@[simp] theorem text_write (p : Printer) (t : Text) : (p.write t).text = p.text ++ t := by
  simp [text, write]

end Printer

end ServerPages
