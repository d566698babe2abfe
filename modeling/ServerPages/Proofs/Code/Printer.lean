import ServerPages.Code.Printer

/-!
# What printing leaves alone

Writing only adds text. A part that is written one level deeper, and closed again, therefore leaves
the printer as if its text had been written at once, as long as the floor lies below the part.
-/

namespace ServerPages.Printer

@[simp] theorem write_write (p : Printer) (t u : Text) :
    (p.write t).write u = p.write (t ++ u) := by
  simp [write]

theorem indent_write (p : Printer) (t : Text) : (p.write t).indent = p.indent.write t := rfl

/-- A line that is not empty is its indentation, its text and a line feed. -/
theorem writeLine_of_ne_nil (p : Printer) {line : Text} (h : line ≠ []) :
    p.writeLine line = p.write (p.indentation ++ (line ++ ['\n'])) := by
  rw [writeLine, if_neg h, writeIndent, newline, write_write, write_write]

theorem dedent_indent {p : Printer} (h : p.floor ≤ p.depth) : p.indent.dedent = p :=
  if_pos (Nat.lt_succ_of_le h)

theorem written_closeBlock (p : Printer) : p.closeBlock.written = p.written := by
  rw [closeBlock, dedent]
  split <;> rfl

/-- Closing a block leads to no deeper level. -/
theorem depth_closeBlock_le (p : Printer) : p.closeBlock.depth ≤ p.depth := by
  rw [closeBlock, dedent]
  split
  · exact Nat.sub_le _ _
  · exact Nat.le_refl _

/-- The second printer has written more than the first one, and is in the same state otherwise. -/
def Appends (p q : Printer) : Prop := ∃ t, q = p.write t

theorem appends_write (p : Printer) (t : Text) : p.Appends (p.write t) := ⟨t, rfl⟩

theorem Appends.refl (p : Printer) : p.Appends p := ⟨[], rfl⟩

/-- Text may be added in two rounds. -/
theorem Appends.trans {p q r : Printer} (h : p.Appends q) (h' : q.Appends r) : p.Appends r := by
  obtain ⟨t, rfl⟩ := h
  obtain ⟨u, rfl⟩ := h'
  exact ⟨t ++ u, write_write p t u⟩

theorem Appends.newline {p q : Printer} (h : p.Appends q) : p.Appends q.newline :=
  h.trans (appends_write q _)

/-- Writing a line only adds text. -/
theorem Appends.writeLine {p q : Printer} (h : p.Appends q) (line : Text) :
    p.Appends (q.writeLine line) := by
  by_cases hl : line = []
  · rw [Printer.writeLine, if_pos hl]
    exact h.newline
  · rw [writeLine_of_ne_nil q hl]
    exact h.trans (appends_write q _)

/-- The last of several lines stands at the end of what has been written. -/
theorem Appends.exists_writeLine_eq {p q : Printer} (h : p.Appends q) {line : Text}
    (hl : line ≠ []) :
    ∃ t, q.writeLine line = p.write (t ++ (p.indentation ++ (line ++ ['\n']))) := by
  obtain ⟨t, rfl⟩ := h
  refine ⟨t, ?_⟩
  rw [writeLine_of_ne_nil _ hl, write_write]
  rfl

/-- Writing lines only adds text. -/
theorem Appends.writeLines {p q : Printer} (h : p.Appends q) (lines : List Text) :
    p.Appends (q.writeLines lines) := by
  induction lines generalizing q with
  | nil => exact h
  | cons line lines ih => exact ih (h.writeLine line)

theorem Appends.indent {p q : Printer} (h : p.Appends q) : p.indent.Appends q.indent := by
  obtain ⟨t, rfl⟩ := h
  exact ⟨t, indent_write p t⟩

/-- A part that has been written one level deeper and is closed. -/
theorem Appends.dedent {p q : Printer} (h : p.indent.Appends q) (hf : p.floor ≤ p.depth) :
    p.Appends q.dedent := by
  obtain ⟨t, rfl⟩ := h
  refine ⟨t, ?_⟩
  rw [← indent_write, dedent_indent (p := p.write t) hf]

theorem Appends.depth_eq {p q : Printer} (h : p.Appends q) : q.depth = p.depth := by
  obtain ⟨t, rfl⟩ := h
  rfl

theorem Appends.floor_eq {p q : Printer} (h : p.Appends q) : q.floor = p.floor := by
  obtain ⟨t, rfl⟩ := h
  rfl

theorem Appends.blockCount_eq {p q : Printer} (h : p.Appends q) : q.blockCount = p.blockCount := by
  obtain ⟨t, rfl⟩ := h
  rfl

/-- Levels that can be closed can be closed after text has been added. -/
theorem Appends.floor_le {p q : Printer} (h : p.Appends q) (hf : p.floor ≤ p.depth) :
    q.floor ≤ q.depth := by
  obtain ⟨t, rfl⟩ := h
  exact hf

theorem Appends.writeInner {p q : Printer} (h : p.Appends q) (hf : p.floor ≤ p.depth)
    (lines : List Text) : p.Appends (q.writeInner lines) :=
  h.trans (((Appends.refl q.indent).writeLines lines).dedent (h.floor_le hf))

/-- Without an indentation that is handed on, a line is indented by one unit for each level. -/
theorem indentation_eq {p : Printer} (h : p.userIndent = []) :
    p.indentation = (List.replicate p.depth p.unit).flatten := by
  rw [indentation, h, List.append_nil]
  split
  · rename_i hd
    rw [hd]
    rfl
  · rfl

theorem newline_not_mem_unit (p : Printer) : '\n' ∉ p.unit := by
  rw [unit]
  split <;> simp

/-- A printer inside an open level that hands on no indentation. -/
structure Ready (p : Printer) : Prop where
  /-- Nothing is handed on. -/
  userIndent : p.userIndent = []
  /-- A level is open. -/
  inside : 0 < p.depth
  /-- A level that is opened now can be closed. -/
  floor : p.floor ≤ p.depth

namespace Ready

variable {p : Printer}

theorem write (h : p.Ready) (t : Text) : (p.write t).Ready := ⟨h.userIndent, h.inside, h.floor⟩

theorem indent (h : p.Ready) : p.indent.Ready :=
  ⟨h.userIndent, Nat.succ_pos _, Nat.le_succ_of_le h.floor⟩

theorem openBlock (h : p.Ready) : p.openBlock.Ready :=
  ⟨h.userIndent, h.indent.inside, h.indent.floor⟩

/-- A block that is opened and closed at once changes nothing. -/
theorem closeBlock_openBlock (h : p.Ready) : p.openBlock.closeBlock = p := by
  have hd : p.openBlock.dedent = { p with blockCount := p.blockCount + 1 } :=
    if_pos (Nat.lt_succ_of_le h.floor)
  rw [closeBlock, hd]
  rfl

theorem indentation (h : p.Ready) : p.indentation = (List.replicate p.depth p.unit).flatten :=
  indentation_eq h.userIndent

theorem setUserIndent (h : p.Ready) : p.setUserIndent [] = p := by
  rw [Printer.setUserIndent, ← h.userIndent]

end Ready

end ServerPages.Printer
