import ServerPages.Code.Script
import ServerPages.Proofs.Code.Printer

/-!
# Printing step by step

A printer is worked by a few elementary operations. What a script does to a printer is a list of
them, which is found without looking at what has been written. The list shows every state that the
printer passes on the way, also in the middle of a line that is laid out.
-/

namespace ServerPages

namespace Printer

/-- The elementary operations of a printer. -/
inductive Action where
  | write (t : Text)
  | writeIndent
  | indent
  | dedent
  | openBlock
  | closeBlock
  | handOn (userIndent : Text)
  deriving DecidableEq, Repr

/-- Carry out one operation. -/
def perform (p : Printer) : Action → Printer
  | .write t => p.write t
  | .writeIndent => p.writeIndent
  | .indent => p.indent
  | .dedent => p.dedent
  | .openBlock => p.openBlock
  | .closeBlock => p.closeBlock
  | .handOn userIndent => p.setUserIndent userIndent

/-- Carry out operations one after the other. -/
def performAll (p : Printer) : List Action → Printer
  | [] => p
  | a :: rest => (p.perform a).performAll rest

/-- The printers that are passed, the first and the last one included. -/
def passed (p : Printer) : List Action → List Printer
  | [] => [p]
  | a :: rest => p :: (p.perform a).passed rest

/-- Operations may be carried out in two rounds. -/
theorem performAll_append (p : Printer) (first second : List Action) :
    p.performAll (first ++ second) = (p.performAll first).performAll second := by
  induction first generalizing p with
  | nil => rfl
  | cons a first ih => exact ih (p.perform a)

/-- The operations that write a line. -/
def lineActions (line : Text) : List Action :=
  if line = [] then [.write ['\n']] else [.writeIndent, .write line, .write ['\n']]

/-- A line is written by its operations. -/
theorem performAll_lineActions (p : Printer) (line : Text) :
    p.performAll (lineActions line) = p.writeLine line := by
  rw [lineActions, writeLine]
  split <;> rfl

/-- Lines are written by the operations of each of them. -/
theorem performAll_flatMap_lineActions (p : Printer) (lines : List Text) :
    p.performAll (lines.flatMap lineActions) = p.writeLines lines := by
  induction lines generalizing p with
  | nil => rfl
  | cons line lines ih =>
    rw [List.flatMap_cons, performAll_append, performAll_lineActions, ih]
    rfl

end Printer

namespace BraceSyntax

open Printer

/-- The operation that indents a line when its first text is written. -/
def beginActions (started : Bool) : List Action := if started then [] else [.writeIndent]

theorem performAll_beginActions (p : Printer) (started : Bool) :
    p.performAll (beginActions started) = beginLine p started := by
  cases started <;> rfl

/-- What laying out does next: the operations, what is carried on, whether text of the current
output line has been written then, and the rest of the line. -/
structure Move where
  /-- The operations. -/
  actions : List Action
  /-- What is carried on. -/
  carried : BraceSyntax
  /-- Whether text of the current output line has been written. -/
  started : Bool
  /-- The rest of the line. -/
  rest : Text

/-- What laying out does at a character. -/
def move (b : BraceSyntax) (started : Bool) (c : Char) (more : Text) : Move :=
  match b.quote? with
  | some quote =>
    match quote.close? (c :: more) with
    | some (through, after) => ⟨[.write through], { b with quote? := none }, started, after⟩
    | none => ⟨[.write (c :: more)], b, started, []⟩
  | none =>
    if c = '#' then ⟨beginActions started ++ [.write (c :: more)], b, true, []⟩
    else if c = '\x7b' then
      ⟨beginActions started ++ [.write [c]], { b with level := b.level + 1 }, true, more⟩
    else if c = '\x7d' then
      if 0 < b.level then
        ⟨beginActions started ++ [.write [c]], { b with level := b.level - 1 }, true, more⟩
      else if started ∧ Text.trimStart more ≠ [] then
        ⟨[.dedent, .write ['\n']], b, false, Text.trimStart more⟩
      else ⟨[.dedent], b, started, Text.trimStart more⟩
    else if c = ':' then
      match if b.level = 0 then blockTail? more else none with
      | none => ⟨beginActions started ++ [.write [c]], b, true, more⟩
      | some [] => ⟨beginActions started ++ [.write [c], .indent], b, true, []⟩
      | some ('#' :: comment) =>
        ⟨beginActions started ++ [.write [c], .indent, .write (' ' :: '#' :: comment)], b, true, []⟩
      | some tail =>
        ⟨beginActions started ++ [.write [c], .indent, .write ['\n']], b, false, tail⟩
    else
      match Quote.open? (c :: more) with
      | some (quote, after) =>
        ⟨beginActions started ++ [.write quote.text], { b with quote? := some quote }, true, after⟩
      | none => ⟨beginActions started ++ [.write [c]], b, true, more⟩

/-- A move takes at least the character at which it is made. -/
theorem length_rest_move_le (b : BraceSyntax) (started : Bool) (c : Char) (more : Text) :
    (b.move started c more).rest.length ≤ more.length := by
  have htrim := length_trimStart_le more
  fun_cases move b started c more with
  | case1 _ _ _ _ hclose => exact Nat.le_of_lt_succ (Quote.length_close?_lt hclose)
  | case6 | case7 => exact htrim
  | case11 _ _ _ _ _ tail _ _ htail =>
    split at htail
    · exact length_blockTail?_le htail
    · cases htail
  | case12 _ _ _ _ _ _ _ hopen => exact Nat.le_of_lt_succ (Quote.length_open?_lt hopen)
  | _ => simp

theorem layOut_nil (b : BraceSyntax) (started : Bool) (p : Printer) :
    b.layOut started p [] = (b, p) := by
  rw [layOut]

/-- Laying out goes on where the move at the first character has led. -/
theorem layOut_cons (b : BraceSyntax) (started : Bool) (p : Printer) (c : Char) (more : Text) :
    b.layOut started p (c :: more) =
      (b.move started c more).carried.layOut (b.move started c more).started
        (p.performAll (b.move started c more).actions) (b.move started c more).rest := by
  have hbegin := performAll_beginActions p started
  rw [layOut]
  split
  · rename_i quote hq
    split
    · rename_i hclose
      simp only [move, hq, hclose, performAll, perform]
    · rename_i hclose
      simp only [move, hq, hclose, performAll, perform, layOut_nil]
  · rename_i hq
    by_cases hhash : c = '#'
    · simp only [move, hq, if_pos hhash, layOut_nil, performAll_append, hbegin, performAll, perform]
    by_cases hopen : c = '\x7b'
    · simp only [move, hq, if_neg hhash, if_pos hopen, performAll_append, hbegin, performAll,
        perform]
    by_cases hclose : c = '\x7d'
    · simp only [move, hq, if_neg hhash, if_neg hopen, if_pos hclose]
      split
      · simp only [performAll_append, hbegin, performAll, perform]
      · split <;> rfl
    by_cases hcolon : c = ':'
    · simp only [move, hq, if_neg hhash, if_neg hopen, if_neg hclose, if_pos hcolon]
      split <;> rename_i htail <;>
        simp only [htail, layOut_nil, performAll_append, hbegin, performAll, perform, newline]
    · simp only [move, hq, if_neg hhash, if_neg hopen, if_neg hclose, if_neg hcolon]
      split <;> rename_i hquote <;>
        simp only [hquote, performAll_append, hbegin, performAll, perform]

/-- The operations that lay out the rest of a line, behind what is carried on. -/
def layOutActions (b : BraceSyntax) (started : Bool) : Text → BraceSyntax × List Action
  | [] => (b, [])
  | c :: more =>
    let next := b.move started c more
    let (b, actions) := layOutActions next.carried next.started next.rest
    (b, next.actions ++ actions)
termination_by rest => rest.length
decreasing_by exact Nat.lt_succ_of_le (length_rest_move_le b started c more)

/-- Laying out the rest of a line is what its operations do. -/
theorem layOut_eq (b : BraceSyntax) (started : Bool) (p : Printer) (rest : Text) :
    b.layOut started p rest =
      ((b.layOutActions started rest).1, p.performAll (b.layOutActions started rest).2) := by
  fun_induction layOutActions b started rest generalizing p with
  | case1 b started => exact b.layOut_nil started p
  | case2 b started c more next last actions hrest ih =>
    rw [layOut_cons, ih, hrest, performAll_append]

/-- The operations that lay out a line, behind what is carried on. -/
def actionsOfLine (b : BraceSyntax) (l : Text) : BraceSyntax × List Action :=
  let started := b.quote?.isSome && !l.isEmpty
  let (b, actions) := b.layOutActions started (if started then l else l.trimStart)
  (b, actions ++ [.write ['\n']])

/-- Laying out a line is what its operations do. -/
theorem line_eq (b : BraceSyntax) (p : Printer) (l : Text) :
    b.line p l = ((b.actionsOfLine l).1, p.performAll (b.actionsOfLine l).2) := by
  simp only [line, layOut_eq, actionsOfLine, performAll_append]
  rfl

/-- The operations that lay out lines, behind what is carried on. -/
def actionsOfLines (b : BraceSyntax) : List Text → BraceSyntax × List Action
  | [] => (b, [])
  | l :: rest =>
    let (b, first) := b.actionsOfLine l
    let (b, actions) := actionsOfLines b rest
    (b, first ++ actions)

/-- Laying out lines is what their operations do. -/
theorem lines_eq (b : BraceSyntax) (p : Printer) (ls : List Text) :
    b.lines p ls = ((b.actionsOfLines ls).1, p.performAll (b.actionsOfLines ls).2) := by
  induction ls generalizing b p with
  | nil => rfl
  | cons l rest ih => simp only [lines, line_eq, ih, actionsOfLines, performAll_append]

end BraceSyntax

namespace Script

open Printer

/-- The operations that write a script with the block structure of its indentation. -/
def indentedActions (blockCount : Nat) (code : Text) : List Action :=
  let code := (dropSingleSpace (Margin.remove code)).unescapeClose
  let (lines, userIndent) := handOn code.lines
  let opening : List Action := if opensBlock lines then [.openBlock] else []
  let closing : List Action :=
    if code.trim = "pass" ∧ 0 < blockCount + opening.length then [.closeBlock] else []
  .handOn [] :: lines.flatMap lineActions ++ opening ++ closing ++ [.handOn userIndent]

/-- Writing a script with blocks by indentation is what its operations do. -/
theorem writeIndented_eq (p : Printer) (code : Text) :
    writeIndented p code = p.performAll (indentedActions p.blockCount code) := by
  rw [writeIndented, indentedActions]
  generalize (dropSingleSpace (Margin.remove code)).unescapeClose = code
  obtain ⟨lines, userIndent⟩ := handOn code.lines
  have hcount : ((p.setUserIndent []).writeLines lines).blockCount = p.blockCount :=
    ((Appends.refl (p.setUserIndent [])).writeLines lines).blockCount_eq
  have hlines := performAll_flatMap_lineActions (p.setUserIndent []) lines
  simp only [List.cons_append, performAll, performAll_append, perform, hlines]
  by_cases hopens : opensBlock lines = true
  · simp only [if_pos hopens, performAll, perform, openBlock, hcount, List.length_singleton]
    split <;> rfl
  · simp only [if_neg hopens, performAll, hcount, List.length_nil, Nat.add_zero]
    split <;> rfl

/-- The operations that write a script in the block style of a printer. -/
def actions (p : Printer) (code : Text) : List Action :=
  if p.style = .braces then (BraceSyntax.start.actionsOfLines (codeLines code)).2
  else indentedActions p.blockCount code

/-- Writing a script is what its operations do. -/
theorem write_eq (p : Printer) (code : Text) :
    (write p code).2 = p.performAll (actions p code) := by
  rw [write, actions]
  split
  · rw [writeBraced, BraceSyntax.lines_eq]
  · exact writeIndented_eq p code

end Script

end ServerPages
