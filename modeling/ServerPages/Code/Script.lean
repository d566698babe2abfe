import ServerPages.Code.BraceSyntax
import ServerPages.Code.Margin
import ServerPages.Text.Quoted

/-!
# Scripts

The statements of a script become lines of the page body. With brace syntax the blocks are delimited
in the script itself. Otherwise a script whose last statement ends in a colon opens a block, which a
later end tag, or a script that is just `pass`, closes.
-/

namespace ServerPages.Script

/-- The lines of code that stands outside the page body. -/
def codeLines (code : Text) : List Text := (Margin.remove code).unescapeClose.lines

/-- A single space after the opening delimiter is no indentation. -/
def dropSingleSpace (code : Text) : Text :=
  match code with
  | ' ' :: ' ' :: _ => code
  | ' ' :: rest => Text.trimStart rest
  | _ => code

/-- A dollar sign at the end of the last line is dropped, and hands on the indentation of its line,
or of the line before if it stands alone. -/
def handOn (lines : List Text) : List Text × Text :=
  match lines.reverse with
  | [] => ([], [])
  | last :: before =>
    if last.getLast? = some '$' then
      let kept := last.dropLast
      let model :=
        match kept, before with
        | [], previous :: _ => previous
        | _, _ => kept
      (before.reverse ++ [kept], model.leadingBlanks)
    else (lines, [])

/-- Whether the last line that is not blank ends in a colon, apart from a comment. -/
def opensBlock (lines : List Text) : Bool :=
  match lines.reverse.find? fun line => !Text.isBlank line with
  | some last => (Text.trimEnd (last.takeWhile (· ≠ '#'))).getLast? = some ':'
  | none => false

/-- Write a script with the block structure of its indentation. -/
def writeIndented (p : Printer) (code : Text) : Printer :=
  let code := (dropSingleSpace (Margin.remove code)).unescapeClose
  let (lines, userIndent) := handOn code.lines
  let p := (p.setUserIndent []).writeLines lines
  let p := if opensBlock lines then p.openBlock else p
  let p := if code.trim = "pass" ∧ 0 < p.blockCount then p.closeBlock else p
  p.setUserIndent userIndent

/-- Write a script in brace syntax. -/
def writeBraced (p : Printer) (code : Text) : Option Fault × Printer :=
  let (b, p) := BraceSyntax.start.lines p (codeLines code)
  (b.endFault?, p)

/-- Write a script in the block style of the printer. What was written before a fault stays. -/
def write (p : Printer) (code : Text) : Option Fault × Printer :=
  if p.style = .braces then writeBraced p code else (none, writeIndented p code)

end ServerPages.Script
