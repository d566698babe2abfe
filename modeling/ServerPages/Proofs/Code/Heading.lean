import ServerPages.Code.Script
import ServerPages.Proofs.Code.Printer
import ServerPages.Proofs.Text.Line

/-!
# Headings of blocks

A script that is the heading of a block becomes one line of the page body and opens a level below
it, in whichever style the block is written. What closes the block closes just this level.
-/

namespace ServerPages

/-- Code on a single line, without blanks around it and without a closing delimiter, be it escaped
or not. -/
structure Phrase where
  /-- The code. -/
  text : Text
  /-- It begins with a character that is not blank. -/
  first : (text.head?.any fun c => !isBlank c) = true
  /-- It ends with a character that is not blank. -/
  last : (text.getLast?.any fun c => !isBlank c) = true
  /-- It holds no line break. -/
  oneLine : '\n' ∉ text ∧ '\r' ∉ text
  /-- It holds no closing delimiter. -/
  unclosed : ¬ "%>".toList <:+: text
  /-- It holds no escaped closing delimiter. -/
  unescaped : ¬ "%\\\\>".toList <:+: text

namespace Phrase

variable (e : Phrase)

theorem eq_cons : ∃ c rest, e.text = c :: rest ∧ isBlank c = false := Text.exists_eq_cons e.first

theorem eq_concat : ∃ w z, e.text = w ++ [z] ∧ isBlank z = false := Text.exists_eq_concat e.last

theorem trimStart_append (u : Text) : Text.trimStart (e.text ++ u) = e.text ++ u := by
  obtain ⟨c, rest, hc, hb⟩ := e.eq_cons
  rw [hc, List.cons_append, Text.trimStart_cons hb]

/-- Blanks behind a phrase are trimmed, and nothing else. -/
theorem trim_append {u : Text} (hu : Text.isBlank u = true) : Text.trim (e.text ++ u) = e.text := by
  obtain ⟨w, z, hz, hb⟩ := e.eq_concat
  rw [Text.trim, e.trimStart_append, hz, Text.trimEnd_append_blanks hb hu]

/-- Text without the last character of the delimiters does not complete one behind a phrase. -/
theorem unclosed_append {u : Text} (hu : '>' ∉ u) : ¬ "%>".toList <:+: e.text ++ u :=
  fun h => e.unclosed (Text.infix_of_infix_append (w := "%".toList) hu h)

theorem unescaped_append {u : Text} (hu : '>' ∉ u) : ¬ "%\\\\>".toList <:+: e.text ++ u :=
  fun h => e.unescaped (Text.infix_of_infix_append (w := "%\\\\".toList) hu h)

/-- A phrase does not begin with a space. -/
theorem isTagSpace_head (u : Text) : ((e.text ++ u).head?.all fun c => !isTagSpace c) = true := by
  obtain ⟨c, rest, hc, hb⟩ := e.eq_cons
  rw [hc]
  simpa using Text.isTagSpace_eq_false hb

end Phrase

/-- What stands behind a heading in its script. -/
def BlockStyle.headingEnd : BlockStyle → Text
  | braces => ":\x7b "
  | tabs | spaces => ": "

/-- How the line of a heading ends. -/
def BlockStyle.headingLineEnd : BlockStyle → Text
  | braces => ":\n"
  | tabs | spaces => ": \n"

namespace Printer

/-- The printer inside a block. Only blocks by indentation are counted. -/
def opened (p : Printer) : Printer := if p.style = .braces then p.indent else p.openBlock

variable {p : Printer}

theorem opened_of_braces (hs : p.style = .braces) : p.opened = p.indent := if_pos hs

theorem opened_of_indented (hs : p.style ≠ .braces) : p.opened = p.openBlock := if_neg hs

theorem style_opened : p.opened.style = p.style := by
  rw [opened]
  split <;> rfl

theorem unit_opened : p.opened.unit = p.unit := by
  rw [opened]
  split <;> rfl

theorem depth_opened : p.opened.depth = p.depth + 1 := by
  rw [opened]
  split <;> rfl

/-- A block may stand inside of a block. -/
theorem Ready.opened (h : p.Ready) : p.opened.Ready := by
  rw [Printer.opened]
  split
  · exact h.indent
  · exact h.openBlock

end Printer

/-- The characters that mean something in brace syntax. -/
def BraceSyntax.marks : Text := "\"'\x7b\x7d:#"

/-- The heading of a block, up to its colon. -/
structure Heading extends Phrase where
  /-- It holds no quote, brace, colon or comment. -/
  unmarked : (text.all fun c => !BraceSyntax.marks.contains c) = true

theorem Heading.not_mem_marks (h : Heading) : ∀ c ∈ h.text, c ∉ BraceSyntax.marks := by
  simpa using h.unmarked

/-- A string begins with one of two quotation marks. -/
theorem Quote.open?_eq_none {c : Char} (hd : c ≠ '"') (hs : c ≠ '\'') (more : Text) :
    open? (c :: more) = none := by
  unfold open?
  split
  · exact absurd (by simp_all) hs
  · exact absurd (by simp_all) hd
  · exact absurd (by simp_all) hs
  · exact absurd (by simp_all) hd
  · rfl

namespace BraceSyntax

/-- A character without a meaning is written as it is, behind the indentation if it is the first. -/
theorem layOut_char {b : BraceSyntax} (hb : b.quote? = none) {c : Char} (hc : c ∉ marks)
    (started : Bool) (p : Printer) (more : Text) :
    b.layOut started p (c :: more) = b.layOut true ((beginLine p started).write [c]) more := by
  have hne : ∀ d ∈ marks, c ≠ d := fun d hd he => hc (he ▸ hd)
  have hopen := hne '\x7b' (by decide)
  have hclose := hne '\x7d' (by decide)
  have hcolon := hne ':' (by decide)
  have hcomment := hne '#' (by decide)
  rw [layOut]
  simp only [hb, if_neg hcomment, if_neg hopen, if_neg hclose, if_neg hcolon]
  split
  · rename_i hquote
    rw [Quote.open?_eq_none (hne '"' (by decide)) (hne '\'' (by decide))] at hquote
    cases hquote
  · rfl

/-- Characters without a meaning go on a line. -/
theorem layOut_append {b : BraceSyntax} (hb : b.quote? = none) {t : Text}
    (ht : ∀ c ∈ t, c ∉ marks) (p : Printer) (more : Text) :
    b.layOut true p (t ++ more) = b.layOut true (p.write t) more := by
  induction t generalizing p with
  | nil => rfl
  | cons c t ih =>
    rw [List.forall_mem_cons] at ht
    rw [List.cons_append, layOut_char hb ht.1, ih ht.2, beginLine, if_pos rfl, Printer.write_write]
    rfl

/-- The brace of a block, with only blanks behind it, opens a level. -/
theorem layOut_open (p : Printer) {more : Text} (hm : more.trimStart = []) :
    start.layOut true p (':' :: '\x7b' :: more) = (start, (p.write [':']).indent) := by
  have htail : blockTail? ('\x7b' :: more) = some [] := by
    have hbrace : Text.trimStart ('\x7b' :: more) = '\x7b' :: more :=
      Text.trimStart_cons (by decide) more
    simp [blockTail?, hbrace, hm]
  rw [layOut]
  simp only [start, beginLine, Char.reduceEq, ↓reduceIte, ↓dreduceIte]
  split <;> simp_all

/-- The end of a block, with only blanks behind it, closes a level. -/
theorem layOut_close (p : Printer) {more : Text} (hm : more.trimStart = []) :
    start.layOut false p ('\x7d' :: more) = (start, p.dedent) := by
  rw [layOut]
  simp [start, hm, layOut]

end BraceSyntax

namespace Script

/-- Code on a single line without an escaped delimiter is its only line. -/
theorem codeLines_eq_singleton {code : Text} (hne : code ≠ []) (hn : '\n' ∉ code)
    (hr : '\r' ∉ code) (hi : ¬ "%\\\\>".toList <:+: code) : codeLines code = [code] := by
  have hmargin : Margin.remove code = code := by
    rw [Margin.remove, Text.firstBreak?_eq_none hn hr]
  rw [codeLines, hmargin, Text.unescapeClose_eq_self hi, Text.lines_eq_singleton hne hn hr]

section Heading

variable (h : Heading)

/-- A single space in front of a heading is dropped. -/
theorem dropSingleSpace_heading (u : Text) :
    dropSingleSpace (' ' :: (h.text ++ u)) = h.text ++ u := by
  obtain ⟨c, rest, hc, hb⟩ := h.eq_cons
  have hspace : c ≠ ' ' := fun he => by
    rw [he] at hb
    cases hb
  rw [hc, List.cons_append, dropSingleSpace, Text.trimStart_cons hb]
  intro tail ht
  exact hspace (List.cons.inj ht).1

theorem trimEnd_heading : Text.trimEnd (h.text ++ ": ") = h.text ++ [':'] := by
  have htrim := Text.trimEnd_append_blanks (z := ':') (by decide) (u := [' ']) (by decide) h.text
  rwa [List.append_assoc] at htrim

/-- A heading with its colon opens a block. -/
theorem opensBlock_heading : opensBlock [h.text ++ ": "] = true := by
  obtain ⟨c, rest, hc, hb⟩ := h.eq_cons
  have hblank : Text.isBlank (h.text ++ ": ") = false := by simp [Text.isBlank, hc, hb]
  have hcomment : (h.text ++ ": ").takeWhile (· ≠ '#') = h.text ++ ": " := by
    have hplain : ∀ c ∈ h.text, decide (c ≠ '#') = true := fun c hm =>
      decide_eq_true fun he => h.not_mem_marks c hm (he ▸ by decide)
    rw [List.takeWhile_append_of_pos hplain]
    rfl
  have hfind : ([h.text ++ ": "].reverse.find? fun line => !Text.isBlank line) =
      some (h.text ++ ": ") := List.find?_cons_of_pos (by rw [hblank]; rfl)
  rw [opensBlock, hfind]
  simp only [hcomment, trimEnd_heading]
  simp

variable {p : Printer}

/-- With blocks by indentation a heading is written as a line, and a block is opened. -/
theorem writeIndented_heading (hp : p.Ready) :
    writeIndented p (' ' :: (h.text ++ ": ")) =
      (p.write (p.indentation ++ (h.text ++ ": \n"))).openBlock := by
  obtain ⟨hn, hr⟩ := h.oneLine
  have hmargin : Margin.remove (' ' :: (h.text ++ ": ")) = ' ' :: (h.text ++ ": ") := by
    rw [Margin.remove, Text.firstBreak?_eq_none (by simpa using hn) (by simpa using hr)]
  have hlines : Text.lines (h.text ++ ": ") = [h.text ++ ": "] :=
    Text.lines_eq_singleton (by simp) (by simpa using hn) (by simpa using hr)
  have hhand : handOn [h.text ++ ": "] = ([h.text ++ ": "], []) := by simp [handOn]
  have hpass : Text.trim (h.text ++ ": ") ≠ "pass" := by
    rw [Text.trim, h.trimStart_append, trimEnd_heading]
    intro he
    have hlast := congrArg List.getLast? he
    rw [List.getLast?_concat] at hlast
    cases hlast
  have hcode : Text.unescapeClose (h.text ++ ": ") = h.text ++ ": " :=
    Text.unescapeClose_eq_self (h.unescaped_append (by decide))
  have hline : p.writeLines [h.text ++ ": "] = p.write (p.indentation ++ (h.text ++ ": \n")) := by
    rw [Printer.writeLines, List.foldl_cons, List.foldl_nil,
      Printer.writeLine_of_ne_nil p (by simp), List.append_assoc h.text]
    rfl
  simp only [writeIndented, hmargin, dropSingleSpace_heading, hcode, hlines, hhand,
    opensBlock_heading, hpass, hp.setUserIndent, hline, false_and, if_true, if_false]
  exact (hp.write _).openBlock.setUserIndent

/-- A script of one line in brace syntax is laid out from its first character that is not blank. -/
theorem writeBraced_of_layOut {q : Printer} {code : Text} (hlines : codeLines code = [code])
    (hlay : BraceSyntax.start.layOut false p code.trimStart = (BraceSyntax.start, q)) :
    writeBraced p code = (none, q.newline) := by
  have hline : BraceSyntax.start.line p code = (BraceSyntax.start, q.newline) := by
    rw [BraceSyntax.line]
    simp only [BraceSyntax.start, Option.isSome_none, Bool.false_and] at hlay ⊢
    simp [hlay]
  rw [writeBraced, hlines, BraceSyntax.lines, hline]
  rfl

/-- With braces a heading is written as a line, and a level is opened. -/
theorem writeBraced_heading :
    writeBraced p (' ' :: (h.text ++ ":\x7b ")) =
      (none, (p.write (p.indentation ++ (h.text ++ ":\n"))).indent) := by
  have hlines : codeLines (' ' :: (h.text ++ ":\x7b ")) = [' ' :: (h.text ++ ":\x7b ")] := by
    refine codeLines_eq_singleton (by simp) ?_ ?_ ?_
    · simpa using h.oneLine.1
    · simpa using h.oneLine.2
    · exact Text.not_infix_cons (by decide) (h.unescaped_append (by decide))
  have htrim : Text.trimStart (' ' :: (h.text ++ ":\x7b ")) = h.text ++ ":\x7b " :=
    (List.dropWhile_cons_of_pos (by decide)).trans (h.trimStart_append _)
  have hlay : BraceSyntax.start.layOut false p (h.text ++ ":\x7b ") =
      (BraceSyntax.start, (p.write (p.indentation ++ (h.text ++ [':']))).indent) := by
    obtain ⟨c, rest, hc, -⟩ := h.eq_cons
    have hu := h.not_mem_marks
    rw [hc, List.forall_mem_cons] at hu
    rw [hc, List.cons_append, BraceSyntax.layOut_char rfl hu.1, BraceSyntax.layOut_append rfl hu.2]
    refine (BraceSyntax.layOut_open _ (by decide)).trans ?_
    simp [BraceSyntax.beginLine, Printer.writeIndent]
  rw [writeBraced_of_layOut hlines (htrim ▸ hlay), Printer.newline]
  simp [← Printer.indent_write]

/-- The heading of a block is written as a line, and the block is opened. -/
theorem write_heading (hp : p.Ready) :
    write p (' ' :: (h.text ++ p.style.headingEnd)) =
      (none, (p.write (p.indentation ++ (h.text ++ p.style.headingLineEnd))).opened) := by
  cases hs : p.style with
  | braces =>
    rw [Printer.opened_of_braces (p := p.write _) hs, write, if_pos hs]
    exact writeBraced_heading h
  | tabs | spaces =>
    have hindented : p.style ≠ .braces := by simp [hs]
    rw [Printer.opened_of_indented (p := p.write _) hindented, write, if_neg hindented]
    exact congrArg (Prod.mk none) (writeIndented_heading h hp)

/-- A brace alone closes a block and ends a line. -/
theorem writeBraced_close : writeBraced p " \x7d " = (none, p.dedent.newline) :=
  writeBraced_of_layOut (by decide) (BraceSyntax.layOut_close p (by decide))

end Heading

end Script

end ServerPages
