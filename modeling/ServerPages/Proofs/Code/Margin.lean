import Mathlib.Data.List.TakeWhile
import Mathlib.Order.Bounds.Basic
import ServerPages.Code.Margin
import ServerPages.Proofs.Text.Lined

/-!
# Removing the margin

Removing the margin of some code moves all lines behind the first one to the left by the same number
of columns: by the least indentation of a line that holds code, or by one column less if the first
line holds code as well. Lines that are indented less lose the blanks they have. So the shape of the
code is kept, and since the least indentation that is left calls for no further move, removing the
margin again changes nothing.
-/

namespace ServerPages

namespace Margin

/-- Whether a line has a character that is not blank, the first of which begins no comment. -/
def holdsCode (line : Text) : Bool := (line.find? fun c => !ServerPages.isBlank c).any (· ≠ '#')

/-- The indentations of the lines that hold code. -/
def indentations (lines : List Text) : Set Nat :=
  {n | ∃ line ∈ lines, holdsCode line = true ∧ line.leadingBlanks.length = n}

/-- The number of columns by which the lines behind a first line are to be moved to the left. -/
structure IsShift (first : Text) (lines : List Text) (columns : Nat) : Prop where
  /-- Without code nothing is moved. -/
  without_code : (∀ line ∈ lines, holdsCode line = false) → columns = 0
  /-- The line with the least indentation is moved to the edge, or to the column next to it. -/
  with_code : ∀ n, IsLeast (indentations lines) n →
    columns = if holdsCode first then n - 1 else n

/-- A line without the blanks in front of it that lie within some columns. -/
def shorten (columns : Nat) (line : Text) : Text :=
  line.drop (min columns line.leadingBlanks.length)

theorem holdsCode_eq (line : Text) : holdsCode line = line.trimStart.head?.any (· ≠ '#') := by
  rw [holdsCode, Text.find?_eq_head?_trimStart]

/-- The lines that count for the margin are those that hold code. -/
theorem isCode_eq_holdsCode (line : Text) : isCode line = holdsCode line := by
  have hblank : line.isBlank = line.trimStart.isEmpty := by
    rw [Bool.eq_iff_iff, Text.isBlank, List.all_eq_true, List.isEmpty_iff, Text.trimStart,
      List.dropWhile_eq_nil_iff]
  rw [isCode, isComment, holdsCode_eq, hblank]
  cases line.trimStart with
  | nil => rfl
  | cons c rest => simp

/-- Columns are stripped as far as they are blank. -/
theorem stripColumns_eq_shorten (columns : Nat) (line : Text) :
    stripColumns columns line = shorten columns line := by
  induction line generalizing columns with
  | nil => simp [stripColumns, shorten, Text.trimStart]
  | cons c line ih =>
    cases columns with
    | zero => simp [stripColumns, shorten, Text.trimStart]
    | succ columns =>
      cases hc : ServerPages.isBlank c with
      | true =>
        have hrest := ih columns
        simp only [stripColumns, shorten, Text.trimStart, Text.leadingBlanks] at hrest
        simp [stripColumns, shorten, Text.trimStart, Text.leadingBlanks, hc, hrest,
          Nat.add_min_add_right]
      | false => simp [stripColumns, shorten, Text.trimStart, Text.leadingBlanks, hc]

section Shorten

variable (columns : Nat) (line : Text)

theorem holdsCode_shorten : holdsCode (shorten columns line) = holdsCode line := by
  rw [holdsCode_eq, holdsCode_eq, shorten, Text.trimStart_drop (Nat.min_le_right ..)]

/-- Moving a line to the left takes some of its leading blanks. -/
theorem length_leadingBlanks_shorten :
    (shorten columns line).leadingBlanks.length = line.leadingBlanks.length - columns := by
  rw [shorten, Text.leadingBlanks_drop (Nat.min_le_right ..), List.length_drop]
  omega

theorem visible_shorten : (shorten columns line).visible = line.visible :=
  Text.visible_drop (Nat.min_le_right ..)

theorem shorten_sublist : (shorten columns line).Sublist line := List.drop_sublist ..

theorem shorten_zero : shorten 0 line = line := by rw [shorten, Nat.zero_min, List.drop_zero]

end Shorten

/-- Some lines hold no code, or one of those that hold code is indented least. -/
theorem without_code_or_isLeast (lines : List Text) :
    ((∀ line ∈ lines, holdsCode line = false) ∧ width lines = 0) ∨
      IsLeast (indentations lines) (width lines) := by
  have hwidth : width lines =
      (((lines.filter holdsCode).map fun line => line.leadingBlanks.length).min?).getD 0 := by
    rw [width, funext isCode_eq_holdsCode]
    cases (lines.filter holdsCode).map fun line => line.leadingBlanks.length <;> rfl
  cases hmin : ((lines.filter holdsCode).map fun line => line.leadingBlanks.length).min? with
  | none =>
    left
    refine ⟨fun line hline => ?_, by rw [hwidth, hmin]; rfl⟩
    rw [List.min?_eq_none_iff, List.map_eq_nil_iff, List.filter_eq_nil_iff] at hmin
    simpa using hmin line hline
  | some n =>
    right
    rw [hwidth, hmin]
    obtain ⟨hmem, hle⟩ := List.min?_eq_some_iff.mp hmin
    constructor
    · obtain ⟨line, hline, hn⟩ := List.mem_map.mp hmem
      obtain ⟨hline, hcode⟩ := List.mem_filter.mp hline
      exact ⟨line, hline, hcode, hn⟩
    · rintro _ ⟨line, hline, hcode, rfl⟩
      exact hle _ (List.mem_map.mpr ⟨line, List.mem_filter.mpr ⟨hline, hcode⟩, rfl⟩)

/-- The columns that the margin takes are those that the lines ask for. -/
theorem isShift_width (first : Text) (lines : List Text) :
    IsShift first lines (if isCode first then width lines - 1 else width lines) := by
  rw [isCode_eq_holdsCode]
  rcases without_code_or_isLeast lines with ⟨hnone, hwidth⟩ | hleast
  · constructor
    · intro _
      simp [hwidth]
    · rintro n ⟨⟨line, hline, hcode, -⟩, -⟩
      rw [hnone line hline] at hcode
      cases hcode
  · constructor
    · intro hnone
      obtain ⟨line, hline, hcode, -⟩ := hleast.1
      rw [hnone line hline] at hcode
      cases hcode
    · intro n hn
      rw [hleast.unique hn]

namespace IsShift

variable {first : Text} {lines : List Text} {columns : Nat} (h : IsShift first lines columns)

include h

/-- There is only one number of columns to move by. -/
theorem unique {others : Nat} (ho : IsShift first lines others) : columns = others := by
  rcases without_code_or_isLeast lines with ⟨hnone, -⟩ | hleast
  · rw [h.without_code hnone, ho.without_code hnone]
  · rw [h.with_code _ hleast, ho.with_code _ hleast]

/-- Lines that hold code have as many blanks in front as are taken. -/
theorem le_indentation {line : Text} (hline : line ∈ lines) (hcode : holdsCode line = true) :
    columns ≤ line.leadingBlanks.length := by
  rcases without_code_or_isLeast lines with ⟨hnone, -⟩ | hleast
  · rw [h.without_code hnone]
    exact Nat.zero_le _
  · have hle := hleast.2 ⟨line, hline, hcode, rfl⟩
    rw [h.with_code _ hleast]
    split <;> omega

/-- Lines that have been moved need not be moved again. -/
theorem map_shorten : IsShift first (lines.map (shorten columns)) 0 := by
  refine ⟨fun _ => rfl, fun n hn => ?_⟩
  obtain ⟨⟨_, hmem, hcode, rfl⟩, hle⟩ := hn
  obtain ⟨line, hline, rfl⟩ := List.mem_map.mp hmem
  rw [holdsCode_shorten] at hcode
  -- The line that is indented least is so before and after the move.
  rcases without_code_or_isLeast lines with ⟨hnone, -⟩ | hleast
  · rw [hnone line hline] at hcode
    cases hcode
  · obtain ⟨least, hmin, hmincode, hwidth⟩ := hleast.1
    have hbound : (shorten columns line).leadingBlanks.length ≤
        (shorten columns least).leadingBlanks.length :=
      hle ⟨_, List.mem_map_of_mem hmin, (holdsCode_shorten ..).trans hmincode, rfl⟩
    have hcolumns := h.with_code _ hleast
    rw [length_leadingBlanks_shorten, length_leadingBlanks_shorten] at hbound
    rw [length_leadingBlanks_shorten]
    by_cases hfirst : holdsCode first = true
    · rw [if_pos hfirst] at hcolumns ⊢
      omega
    · rw [if_neg hfirst] at hcolumns ⊢
      omega

end IsShift

end Margin

namespace Lined

/-- The lines behind the first one, without the blanks at their ends. -/
def trimmed (l : Lined) : List Text := l.further.map Text.trimEnd

variable (l : Lined) (ending : LineBreak) (columns : Nat)

/-- A line without the blanks at its end is a line. -/
theorem isLine_of_mem_trimmed {line : Text} (h : line ∈ l.trimmed) : line.IsLine := by
  obtain ⟨whole, hwhole, rfl⟩ := List.mem_map.mp h
  obtain ⟨next, hnext, rfl⟩ := List.mem_map.mp hwhole
  exact (l.rest_isLine next hnext).sublist (Text.trimEnd_sublist _)

/-- The lines behind the first one moved to the left, each with the same break in front. -/
def moved : Lined where
  first := l.first
  rest := l.trimmed.map fun line => (ending, Margin.shorten columns line)
  first_isLine := l.first_isLine
  rest_isLine := by
    intro next hnext
    obtain ⟨line, hline, rfl⟩ := List.mem_map.mp hnext
    exact (l.isLine_of_mem_trimmed hline).sublist (Margin.shorten_sublist columns line)
  paired := by
    rw [List.isChain_map]
    refine List.Pairwise.isChain (List.pairwise_of_forall fun _ _ => ?_)
    rintro ⟨hcr, -, hlf⟩
    cases hcr.symm.trans hlf

theorem text_moved : (l.moved ending columns).text =
    l.first ++ l.trimmed.flatMap fun line => ending.text ++ Margin.shorten columns line := by
  rw [text, moved, List.flatMap_map]

/-- Lines that have been moved have no blanks at their ends. -/
theorem trimmed_moved :
    (l.moved ending columns).trimmed = l.trimmed.map (Margin.shorten columns) := by
  rw [trimmed, further, moved, List.map_map, List.map_map]
  refine List.map_congr_left fun line hline => ?_
  obtain ⟨whole, -, rfl⟩ := List.mem_map.mp hline
  exact Text.trimEnd_drop_trimEnd _ whole

variable {ending} in
/-- Lines that have been moved are broken as before. -/
theorem ending?_moved (h : l.ending? = some ending) :
    (l.moved ending columns).ending? = some ending := by
  obtain ⟨next, hnext, -⟩ := Option.map_eq_some_iff.mp h
  simp [ending?, moved, trimmed, further, hnext]

/-- The characters that are not blank stay. -/
theorem visible_moved : (l.moved ending columns).text.visible = l.text.visible := by
  have hbreak : ∀ b : LineBreak, b.text.visible = [] := by
    intro b
    cases b <;> rfl
  have hrest : ∀ rest : List (LineBreak × Text),
      Text.visible (rest.flatMap fun next =>
        ending.text ++ Margin.shorten columns next.2.trimEnd) =
        Text.visible (rest.flatMap fun next => next.1.text ++ next.2) := by
    intro rest
    induction rest with
    | nil => rfl
    | cons next rest ih =>
      simp only [List.flatMap_cons, Text.visible_append, hbreak, Margin.visible_shorten,
        Text.visible_trimEnd, ih]
  rw [text_moved, trimmed, further, List.flatMap_map, List.flatMap_map, text, Text.visible_append,
    Text.visible_append, hrest]

end Lined

namespace Margin

/-- Removing the margin moves the lines behind the first one. -/
theorem remove_text {l : Lined} {ending : LineBreak} (h : l.ending? = some ending) :
    ∃ columns, IsShift l.first l.trimmed columns ∧
      remove l.text = (l.moved ending columns).text := by
  cases l using Lined.induction with
  | single line hline => cases h
  | above line hline other below hpair =>
    obtain rfl : other = ending := Option.some.inj h
    refine ⟨_, isShift_width .., ?_⟩
    rw [remove, Lined.text_above, Text.firstBreak?_append hline hpair, Lined.text_moved]
    simp only [Lined.segments_text, stripColumns_eq_shorten]
    rfl

/-- A text without line breaks has no margin. -/
theorem remove_line {code : Text} (h : code.IsLine) : remove code = code := by
  rw [remove, Text.firstBreak?_eq_none h.1 h.2]

/-- A text that a cut text becomes when the lines behind its first one are moved to the left. -/
structure Removes (l : Lined) (ending : LineBreak) (columns : Nat) (code : Text) : Prop where
  /-- The first line stays, and behind it the others follow without the blanks at their ends, each
  behind the same break and without the blanks in front of it that lie within the columns. -/
  text_eq : code = l.first ++ l.trimmed.flatMap fun line =>
    ending.text ++ shorten columns line
  /-- There are as many lines as before. -/
  lines : ∃ out : Lined, out.text = code ∧ out.further.length = l.further.length
  /-- Lines of code lose just the columns. -/
  length_eq : ∀ line ∈ l.trimmed, holdsCode line = true →
    (shorten columns line).length + columns = line.length
  /-- Lines of code keep their indentation relative to each other. -/
  relative : ∀ line ∈ l.trimmed, ∀ other ∈ l.trimmed, holdsCode line = true →
    holdsCode other = true →
    ((shorten columns line).leadingBlanks.length : Int) -
        (shorten columns other).leadingBlanks.length =
      line.leadingBlanks.length - other.leadingBlanks.length
  /-- The characters that are not blank stay. -/
  visible_eq : code.visible = l.text.visible

/-- Code with a line break is cut into lines in one way. Removing its margin keeps the first line
and moves the others to the left by as many columns as they ask for, so that the lines of code keep
their places relative to each other and nothing but blanks is lost. -/
theorem remove_shifts_lines {code : Text} (h : '\n' ∈ code ∨ '\r' ∈ code) :
    ∃ (l : Lined) (ending : LineBreak) (columns : Nat),
      l.text = code ∧ (∀ other : Lined, other.text = code → other = l) ∧
        l.ending? = some ending ∧ IsShift l.first l.trimmed columns ∧
        Removes l ending columns (remove code) := by
  obtain ⟨l, rfl⟩ := Lined.exists_text_eq code
  have hbroken : ¬ l.text.IsLine := fun hline => h.elim hline.1 hline.2
  obtain ⟨ending, hending⟩ := Lined.exists_ending? hbroken
  obtain ⟨columns, hshift, hremove⟩ := remove_text hending
  refine ⟨l, ending, columns, rfl, fun _ => Lined.text_injective, hending, hshift, ?_⟩
  constructor
  · rw [hremove, Lined.text_moved]
  · refine ⟨l.moved ending columns, hremove.symm, ?_⟩
    simp [Lined.further, Lined.moved, Lined.trimmed]
  · intro line hline hcode
    have hle := hshift.le_indentation hline hcode
    have hblanks := (List.takeWhile_sublist ServerPages.isBlank (l := line)).length_le
    rw [shorten, List.length_drop]
    rw [← Text.leadingBlanks] at hblanks
    omega
  · intro line hline other hother hcode hothercode
    have hle := hshift.le_indentation hline hcode
    have hle' := hshift.le_indentation hother hothercode
    rw [length_leadingBlanks_shorten, length_leadingBlanks_shorten]
    omega
  · rw [hremove, Lined.visible_moved]

/-- Code on the first line, all kinds of breaks, a comment that has fewer blanks in front than are
taken, and a blank line. -/
theorem remove_shifts_lines_below_code :
    let code : Text := " if x:\r\n\t\t\ty = 1  \r # note\n \n\t\t\t  z"
    ('\n' ∈ code ∨ '\r' ∈ code) ∧
      remove code = " if x:\r\n\ty = 1\r\n# note\r\n\r\n\t  z".toList ∧
      ∃ (l : Lined) (ending : LineBreak) (columns : Nat),
        l.text = code ∧ (∀ other : Lined, other.text = code → other = l) ∧
          l.ending? = some ending ∧ IsShift l.first l.trimmed columns ∧
          Removes l ending columns (remove code) :=
  ⟨by decide +kernel, by decide +kernel, remove_shifts_lines (by decide +kernel)⟩

/-- Removing the margin a second time changes nothing. -/
theorem remove_remove (code : Text) : remove (remove code) = remove code := by
  by_cases hline : code.IsLine
  · rw [remove_line hline, remove_line hline]
  · obtain ⟨l, rfl⟩ := Lined.exists_text_eq code
    obtain ⟨ending, hending⟩ := Lined.exists_ending? hline
    obtain ⟨columns, hshift, hremove⟩ := remove_text hending
    obtain ⟨again, hagain, hsecond⟩ := remove_text (l.ending?_moved columns hending)
    rw [Lined.trimmed_moved] at hagain
    obtain rfl : again = 0 := hagain.unique hshift.map_shorten
    rw [hremove, hsecond, Lined.text_moved, Lined.text_moved, Lined.trimmed_moved,
      List.flatMap_map]
    simp only [shorten_zero]
    rfl

end Margin

end ServerPages
