import ServerPages.Proofs.Code.Weaving
import ServerPages.Proofs.Page.OpenString

/-!
# Methods and their statements

A method is written as a line with its head and, one level deeper, the lines of its body. Before
that the body loses its margin and its escapes, but each of its lines still begins with the same
character that is not blank, if it has one. A body that is all blank becomes a statement that does
nothing. A body of blanks and comments does not, and leaves a method without a statement.
-/

namespace ServerPages

namespace Text

/-- The first characters that are not blank, of all lines that have one. -/
def lineHeads (lines : List Text) : List Char := lines.filterMap fun line => line.visible.head?

theorem isBlank_iff_visible {t : Text} : t.isBlank = true ↔ t.visible.head? = none := by
  rw [List.head?_eq_none_iff, visible, List.filter_eq_nil_iff, isBlank, List.all_eq_true]
  simp only [Bool.not_eq_true, Bool.not_eq_false']

/-- Lines are blank if none of them shows anything. -/
theorem forall_isBlank_iff {lines : List Text} :
    (∀ line ∈ lines, line.isBlank = true) ↔ lineHeads lines = [] := by
  rw [lineHeads, List.filterMap_eq_nil_iff]
  simp only [isBlank_iff_visible]

/-- A line of code is told from a blank line and from a comment by its first character that is not
blank. -/
theorem holdsCode_iff_visible {line : Text} :
    Margin.holdsCode line = true ↔ ∃ c, line.visible.head? = some c ∧ c ≠ '#' := by
  rw [Margin.holdsCode, ← List.head?_filter, ← visible, Option.any_eq_true]
  simp only [decide_eq_true_eq]

/-- Some line holds code if it shows something that begins no comment. -/
theorem exists_holdsCode_iff {lines : List Text} :
    (∃ line ∈ lines, Margin.holdsCode line = true) ↔ ∃ c ∈ lineHeads lines, c ≠ '#' := by
  simp only [holdsCode_iff_visible, lineHeads, List.mem_filterMap]
  constructor
  · rintro ⟨line, hline, c, hc, hne⟩
    exact ⟨c, ⟨line, hline, hc⟩, hne⟩
  · rintro ⟨c, ⟨line, hline, hc⟩, hne⟩
    exact ⟨line, hline, c, hc, hne⟩

/-- The lines of a text are its segments, up to an empty one at the end. -/
theorem lineHeads_lines (t : Text) : lineHeads t.lines = lineHeads t.segments := by
  obtain ⟨l, rfl⟩ := Lined.exists_text_eq t
  induction l using Lined.induction with
  | single line hline =>
    rw [Lined.text_single, segments_line hline]
    by_cases hempty : line = []
    · rw [hempty]
      rfl
    · rw [lines_eq_singleton hempty hline.1 hline.2]
  | above line hline ending below hpair ih =>
    rw [Lined.text_above, lines_append hline hpair, segments_append hline hpair, lineHeads,
      lineHeads, List.filterMap_cons, List.filterMap_cons, ← lineHeads, ← lineHeads, ih]

/-- No line of a text holds a line break. -/
theorem isLine_of_mem_lines {t line : Text} (h : line ∈ t.lines) : line.IsLine := by
  obtain ⟨l, rfl⟩ := Lined.exists_text_eq t
  induction l using Lined.induction with
  | single single hsingle =>
    rw [Lined.text_single] at h
    by_cases hempty : single = []
    · rw [hempty] at h
      exact absurd h List.not_mem_nil
    · rw [lines_eq_singleton hempty hsingle.1 hsingle.2, List.mem_singleton] at h
      rwa [h]
  | above first hfirst ending below hpair ih =>
    rw [Lined.text_above, lines_append hfirst hpair, List.mem_cons] at h
    rcases h with rfl | h
    · exact hfirst
    · exact ih h

theorem unlines_append (first second : List Text) :
    unlines (first ++ second) = unlines first ++ unlines second :=
  List.flatMap_append

/-- Lines that are ended one after the other are found again. -/
theorem lines_unlines {ls : List Text} (h : ∀ line ∈ ls, line.IsLine) :
    lines (unlines ls) = ls := by
  induction ls with
  | nil => rfl
  | cons line ls ih =>
    obtain ⟨hline, hrest⟩ := List.forall_mem_cons.mp h
    have hcut := @lines_append line (unlines ls) .lf hline fun h => by cases h
    rw [unlines_cons]
    exact hcut.trans (congrArg (line :: ·) (ih hrest))

theorem head?_unescapeClose (t : Text) : t.unescapeClose.head? = t.head? := by
  fun_cases unescapeClose t <;> rfl

/-- Removing escapes keeps the first visible character. -/
theorem head?_visible_unescapeClose (t : Text) :
    t.unescapeClose.visible.head? = t.visible.head? := by
  simp only [visible, List.head?_filter]
  fun_induction unescapeClose t with
  | case1 => rfl
  | case2 rest ih => rfl
  | case3 c rest _ ih => rw [List.find?_cons, List.find?_cons, ih]

/-- No escape lies across the beginning of a text that begins with no character of an escape but its
first. -/
theorem unescapeClose_append {t u : Text} (hslash : u.head? ≠ some '\\')
    (hgt : u.head? ≠ some '>') : (t ++ u).unescapeClose = t.unescapeClose ++ u.unescapeClose := by
  fun_induction unescapeClose t with
  | case1 => rfl
  | case2 rest ih => simp only [List.cons_append, unescapeClose, ih]
  | case3 c rest hno ih =>
    rw [List.cons_append, unescapeClose, ih, List.cons_append]
    intro more hc hescape
    match rest with
    | [] => exact hslash (congrArg List.head? hescape)
    | [_] => exact hslash (congrArg (List.head? ∘ List.tail) hescape)
    | [_, _] => exact hgt (congrArg (List.head? ∘ List.tail ∘ List.tail) hescape)
    | a :: b :: d :: tail =>
      obtain ⟨rfl, rfl, rfl, -⟩ : a = '\\' ∧ b = '\\' ∧ d = '>' ∧ tail ++ u = more := by
        simpa using hescape
      exact hno tail hc rfl

theorem IsLine.unescapeClose {line : Text} (h : line.IsLine) : line.unescapeClose.IsLine :=
  ⟨fun hm => h.1 (mem_of_mem_unescapeClose hm), fun hm => h.2 (mem_of_mem_unescapeClose hm)⟩

/-- Escapes are restored line by line. -/
theorem segments_unescapeClose (t : Text) :
    t.unescapeClose.segments = t.segments.map Text.unescapeClose := by
  obtain ⟨l, rfl⟩ := Lined.exists_text_eq t
  induction l using Lined.induction with
  | single line hline =>
    rw [Lined.text_single, segments_line hline, segments_line hline.unescapeClose]
    rfl
  | above line hline ending below hpair ih =>
    have hcut : (line ++ (ending.text ++ below.text)).unescapeClose =
        line.unescapeClose ++ (ending.text ++ below.text.unescapeClose) := by
      rw [unescapeClose_append]
      · cases ending <;> rfl
      · cases ending <;> simp [LineBreak.text]
      · cases ending <;> simp [LineBreak.text]
    have hpair' : ending = .cr → below.text.unescapeClose.head? ≠ some '\n' := by
      rw [head?_unescapeClose]
      exact hpair
    rw [Lined.text_above, hcut, segments_append hline.unescapeClose hpair',
      segments_append hline hpair, ih, List.map_cons]

end Text

/-- Removing the margin keeps the first characters of the lines. -/
theorem Margin.lineHeads_remove (code : Text) :
    Text.lineHeads (remove code).segments = Text.lineHeads code.segments := by
  obtain ⟨l, rfl⟩ := Lined.exists_text_eq code
  by_cases hline : l.text.IsLine
  · rw [remove_line hline]
  · obtain ⟨ending, hending⟩ := Lined.exists_ending? hline
    obtain ⟨columns, -, hremove⟩ := remove_text hending
    have hfurther : (l.moved ending columns).further = l.trimmed.map (shorten columns) := by
      rw [Lined.further, Lined.moved, List.map_map]
      rfl
    rw [hremove, Lined.segments_text, Lined.segments_text, hfurther, Lined.trimmed]
    simp only [Text.lineHeads, List.filterMap_cons, List.filterMap_map, Function.comp_def,
      visible_shorten, Text.visible_trimEnd]
    rfl

/-- The lines of code outside the page body begin as those of the template do. -/
theorem Script.lineHeads_codeLines (code : Text) :
    Text.lineHeads (codeLines code) = Text.lineHeads code.lines := by
  have hescapes : ∀ lines : List Text,
      Text.lineHeads (lines.map Text.unescapeClose) = Text.lineHeads lines := by
    intro lines
    simp only [Text.lineHeads, List.filterMap_map, Function.comp_def,
      Text.head?_visible_unescapeClose]
  rw [codeLines, Text.lineHeads_lines, Text.segments_unescapeClose, hescapes,
    Margin.lineHeads_remove, Text.lineHeads_lines]

namespace Printer

/-- A line with the indentation that it gets. An empty line gets none. -/
def indented (p : Printer) (line : Text) : Text := if line = [] then [] else p.indentation ++ line

/-- A line is written with its indentation and a line feed. -/
theorem writeLine_eq (p : Printer) (line : Text) :
    p.writeLine line = p.write (p.indented line ++ ['\n']) := by
  by_cases h : line = []
  · rw [writeLine, if_pos h, indented, if_pos h]
    rfl
  · rw [writeLine_of_ne_nil p h, indented, if_neg h, List.append_assoc]

/-- Lines are written with their indentations and line feeds. -/
theorem writeLines_eq (p : Printer) (lines : List Text) :
    p.writeLines lines = p.write (Text.unlines (lines.map p.indented)) := by
  induction lines generalizing p with
  | nil => rfl
  | cons line lines ih =>
    have hrest := ih (p.writeLine line)
    rw [writeLine_eq] at hrest
    rw [writeLines, List.foldl_cons, ← writeLines, writeLine_eq, hrest, write_write, List.map_cons,
      Text.unlines_cons, List.append_assoc]
    rfl

theorem isLine_unit (p : Printer) : p.unit.IsLine := by
  rw [unit]
  split <;> simp [Text.IsLine]

/-- An indentation breaks no line. -/
theorem isLine_indentation {p : Printer} (h : p.userIndent.IsLine) : p.indentation.IsLine := by
  have hunits : ∀ c ∈ (List.replicate p.depth p.unit).flatten, c ∈ p.unit := by
    intro c hc
    obtain ⟨unit, hunit, hmem⟩ := List.mem_flatten.mp hc
    rwa [List.eq_of_mem_replicate hunit] at hmem
  rw [indentation]
  split
  · exact ⟨List.not_mem_nil, List.not_mem_nil⟩
  · constructor
    · intro hm
      exact (List.mem_append.mp hm).elim (fun hm => p.isLine_unit.1 (hunits _ hm)) h.1
    · intro hm
      exact (List.mem_append.mp hm).elim (fun hm => p.isLine_unit.2 (hunits _ hm)) h.2

/-- An indented line is a line. -/
theorem isLine_indented {p : Printer} (h : p.userIndent.IsLine) {line : Text}
    (hline : line.IsLine) : (p.indented line).IsLine := by
  have hindent := isLine_indentation h
  rw [indented]
  split
  · exact ⟨List.not_mem_nil, List.not_mem_nil⟩
  · constructor
    · intro hm
      exact (List.mem_append.mp hm).elim hindent.1 hline.1
    · intro hm
      exact (List.mem_append.mp hm).elim hindent.2 hline.2

/-- A printer that differs from the first one in what it has written, and in levels that are open
besides. -/
structure Inside (p q : Printer) : Prop where
  /-- All levels are still open. -/
  depth_le : p.depth ≤ q.depth
  /-- A level is indented as before. -/
  unit_eq : q.unit = p.unit
  /-- The same is handed on. -/
  userIndent_eq : q.userIndent = p.userIndent

theorem inside_write (p : Printer) (t : Text) : p.Inside (p.write t) := ⟨Nat.le_refl _, rfl, rfl⟩

/-- Lines that are written one level deeper. The level is closed again if it lies above the
floor. -/
theorem Inside.writeInner {p q : Printer} (h : p.Inside q) (lines : List Text) :
    p.Inside (q.writeInner lines) ∧
      (q.writeInner lines).text = q.text ++ Text.unlines (lines.map q.indent.indented) := by
  have htext := text_write q (Text.unlines (lines.map q.indent.indented))
  rw [Printer.writeInner, writeLines_eq, dedent]
  split
  · exact ⟨⟨h.depth_le, h.unit_eq, h.userIndent_eq⟩, htext⟩
  · exact ⟨⟨Nat.le_succ_of_le h.depth_le, h.unit_eq, h.userIndent_eq⟩, htext⟩

/-- A statement that is indented at least one unit deeper than the next line of a printer. -/
def IsInnerStatement (p : Printer) (line : Text) : Prop :=
  Margin.holdsCode line = true ∧ (List.replicate (p.depth + 1) p.unit).flatten <+: line

instance (p : Printer) (line : Text) : Decidable (p.IsInnerStatement line) :=
  inferInstanceAs (Decidable (_ ∧ _))

/-- A line that is written one level deeper is an inner statement just if it holds code. -/
theorem Inside.isInnerStatement_iff {p q : Printer} (h : p.Inside q)
    (hblank : p.userIndent.isBlank = true) (line : Text) :
    p.IsInnerStatement (q.indent.indented line) ↔ Margin.holdsCode line = true := by
  by_cases hempty : line = []
  · subst hempty
    exact ⟨And.left, fun hcode => by cases hcode⟩
  · have hindent : Text.isBlank q.indent.indentation = true :=
      isBlank_indentation (h.userIndent_eq ▸ hblank)
    have hcode : Margin.holdsCode (q.indent.indentation ++ line) = Margin.holdsCode line := by
      rw [Bool.eq_iff_iff, Text.holdsCode_iff_visible, Text.holdsCode_iff_visible,
        Text.visible_append, Text.visible_of_isBlank hindent, List.nil_append]
    have hunits : (List.replicate (p.depth + 1) p.unit).flatten <+: q.indent.indentation := by
      obtain ⟨more, hmore⟩ := Nat.exists_eq_add_of_le h.depth_le
      have hdepth : q.depth + 1 = p.depth + 1 + more := by omega
      have hinner : q.indent.indentation =
          (List.replicate (q.depth + 1) q.unit).flatten ++ q.userIndent :=
        if_neg (Nat.succ_ne_zero q.depth)
      have hsplit : List.replicate (p.depth + 1 + more) p.unit =
          List.replicate (p.depth + 1) p.unit ++ List.replicate more p.unit :=
        List.replicate_add ..
      rw [hinner, hdepth, h.unit_eq, hsplit, List.flatten_append, List.append_assoc]
      exact List.prefix_append ..
    rw [indented, if_neg hempty, IsInnerStatement, hcode]
    exact and_iff_left (hunits.trans (List.prefix_append ..))

/-- Some line that is written one level deeper is an inner statement just if it holds code. -/
theorem Inside.exists_isInnerStatement_iff {p q : Printer} (h : p.Inside q)
    (hblank : p.userIndent.isBlank = true) {lines : List Text} :
    (∃ line ∈ lines.map q.indent.indented, p.IsInnerStatement line) ↔
      ∃ line ∈ lines, Margin.holdsCode line = true := by
  constructor
  · rintro ⟨_, hmem, hstatement⟩
    obtain ⟨line, hline, rfl⟩ := List.mem_map.mp hmem
    exact ⟨line, hline, (h.isInnerStatement_iff hblank line).mp hstatement⟩
  · rintro ⟨line, hline, hcode⟩
    exact ⟨_, List.mem_map_of_mem hline, (h.isInnerStatement_iff hblank line).mpr hcode⟩

/-- Lines that are written one level deeper are lines. -/
theorem Inside.isLine_of_mem {p q : Printer} (h : p.Inside q) (hline : p.userIndent.IsLine)
    {lines : List Text} (hlines : ∀ line ∈ lines, line.IsLine) :
    ∀ line ∈ lines.map q.indent.indented, line.IsLine := by
  intro _ hmem
  obtain ⟨line, hinner, rfl⟩ := List.mem_map.mp hmem
  have hsame : q.indent.userIndent.IsLine := h.userIndent_eq ▸ hline
  exact isLine_indented hsame (hlines line hinner)

end Printer

namespace Fragment

/-- The statements of a method: those of the template, or the one that does nothing. A body of
blanks and comments has none. -/
theorem exists_holdsCode_methodLines_iff (body : Text) :
    (∃ line ∈ methodLines body, Margin.holdsCode line = true) ↔
      (∃ line ∈ body.lines, Margin.holdsCode line = true) ∨
        ∀ line ∈ body.lines, line.isBlank = true := by
  have hall : (Script.codeLines body).all Text.isBlank = true ↔
      ∀ line ∈ body.lines, line.isBlank = true := by
    rw [List.all_eq_true, Text.forall_isBlank_iff, Script.lineHeads_codeLines,
      Text.forall_isBlank_iff]
  rw [methodLines]
  split
  · rename_i hblank
    exact iff_of_true ⟨"pass", List.mem_singleton_self _, rfl⟩ (.inr (hall.mp hblank))
  · rename_i hsome
    rw [Text.exists_holdsCode_iff, Script.lineHeads_codeLines, ← Text.exists_holdsCode_iff]
    exact (or_iff_left fun hblank => hsome (hall.mpr hblank)).symm

/-- The lines of a method are lines. -/
theorem isLine_methodLines (body : Text) : ∀ line ∈ methodLines body, line.IsLine := by
  intro line h
  rw [methodLines] at h
  split at h
  · rw [List.mem_singleton.mp h]
    decide
  · exact Text.isLine_of_mem_lines h

/-- The line with which a method that wakes the page begins. -/
def wakingLines (name : Text) : List Text := if name = "awake" then ["self.initPSP()"] else []

theorem isLine_wakingLines (name : Text) : ∀ line ∈ wakingLines name, line.IsLine := by
  rw [wakingLines]
  split <;> decide

/-- Only the method of one name begins with a statement that wakes the page. -/
theorem exists_holdsCode_wakingLines_iff {name : Text} :
    (∃ line ∈ wakingLines name, Margin.holdsCode line = true) ↔ name = "awake" := by
  rw [wakingLines]
  split
  · rename_i hawake
    exact iff_of_true ⟨_, List.mem_singleton_self _, by decide⟩ hawake
  · rename_i hother
    exact iff_of_false (fun ⟨_, hmem, _⟩ => List.not_mem_nil hmem) hother

/-- The head of a method is written as a line, behind which the page may be woken. -/
theorem emit_methodHead (p : Printer) (name : Text) (params? : Option Text) :
    let head := p.writeLine (methodLine name params?)
    let after := ((methodHead name params?).emit p).2
    p.Inside head ∧ p.Inside after ∧
      after.text = head.text ++ Text.unlines ((wakingLines name).map head.indent.indented) := by
  intro head after
  have hhead : p.Inside head := by
    simp only [head, Printer.writeLine_eq]
    exact p.inside_write _
  obtain ⟨hinside, htext⟩ := hhead.writeInner ["self.initPSP()"]
  refine ⟨hhead, ?_⟩
  simp only [after, emit, wakingLines]
  split
  · exact ⟨hinside, htext⟩
  · exact ⟨hhead, (List.append_nil _).symm⟩

/-- Behind the line with its head, a method is written as lines that stand one level deeper and an
empty line. -/
theorem exists_text_emit_method (p : Printer) (name : Text) (params? : Option Text) (body : Text) :
    ∃ q r : Printer, p.Inside q ∧ p.Inside r ∧
      ((methodBody body).emit ((methodHead name params?).emit p).2).2.text =
        (p.writeLine (methodLine name params?)).text ++
          Text.unlines ((wakingLines name).map q.indent.indented ++
            ((methodLines body).map r.indent.indented ++ [[]])) := by
  obtain ⟨hq, hr, htext⟩ := emit_methodHead p name params?
  have hbody := (hr.writeInner (methodLines body)).2
  refine ⟨_, _, hq, hr, ?_⟩
  change (((methodHead name params?).emit p).2.writeInner (methodLines body)).newline.text = _
  rw [Printer.newline, Printer.text_write, hbody, htext, Text.unlines_append, Text.unlines_append,
    List.append_assoc, List.append_assoc]
  rfl

/-- Behind the line with its head, a method has a statement that stands one level deeper just if it
wakes the page, a line of its body holds code, or all of them are blank. -/
theorem emit_method_has_statement_iff {p : Printer} (hblank : p.userIndent.isBlank = true)
    (hline : p.userIndent.IsLine) (name : Text) (params? : Option Text) (body : Text) :
    ∃ below, ((methodBody body).emit ((methodHead name params?).emit p).2).2.text =
        (p.writeLine (methodLine name params?)).text ++ below ∧
      ((∃ line ∈ below.lines, p.IsInnerStatement line) ↔
        name = "awake" ∨ (∃ line ∈ body.lines, Margin.holdsCode line = true) ∨
          ∀ line ∈ body.lines, line.isBlank = true) := by
  obtain ⟨q, r, hq, hr, htext⟩ := exists_text_emit_method p name params? body
  refine ⟨_, htext, ?_⟩
  have hwaking := hq.isLine_of_mem hline (isLine_wakingLines name)
  have hbody := hr.isLine_of_mem hline (isLine_methodLines body)
  have hlast : ¬ p.IsInnerStatement [] := fun h => by cases h.1
  rw [Text.lines_unlines]
  · simp only [List.mem_append, or_and_right, exists_or, hq.exists_isInnerStatement_iff hblank,
      hr.exists_isInnerStatement_iff hblank, List.mem_singleton, exists_eq_left, hlast, or_false,
      exists_holdsCode_wakingLines_iff, exists_holdsCode_methodLines_iff]
  · intro line hmem
    rcases List.mem_append.mp hmem with hmem | hmem
    · exact hwaking line hmem
    · rcases List.mem_append.mp hmem with hmem | hmem
      · exact hbody line hmem
      · rw [List.mem_singleton.mp hmem]
        exact ⟨List.not_mem_nil, List.not_mem_nil⟩

/-- A body with a comment on the first line, a carriage return between two lines, and code on the
second one. -/
theorem emit_method_has_statement_behind_comment :
    let p := (Printer.start .spaces 2).indent
    let body : Text := " # note\r    x = 1 \n"
    Text.isBlank p.userIndent = true ∧ Text.IsLine p.userIndent ∧
      Fragment.methodLines body = [" # note".toList, "x = 1".toList] ∧
      ∃ below, ((methodBody body).emit ((methodHead "f" none).emit p).2).2.text =
          (p.writeLine (methodLine "f" none)).text ++ below ∧
        ∃ line ∈ below.lines, p.IsInnerStatement line := by
  intro p body
  have hblank : Text.isBlank p.userIndent = true := rfl
  have hline : Text.IsLine p.userIndent := by decide
  obtain ⟨below, htext, hiff⟩ := emit_method_has_statement_iff hblank hline "f" none body
  refine ⟨hblank, hline, by decide +kernel, below, htext, hiff.mpr (.inr (.inl ?_))⟩
  exact ⟨"    x = 1 ".toList, by decide +kernel, by decide +kernel⟩

/-- A body that is a comment alone leaves a method without a statement. -/
theorem emit_method_of_comment_lacks_statement :
    let p := Printer.start .tabs 4
    let below : Text := "\t# todo\n\n"
    ((methodBody "# todo").emit ((methodHead "f" none).emit p).2).2.text =
        (p.writeLine (methodLine "f" none)).text ++ below ∧
      ¬ ∃ line ∈ below.lines, p.IsInnerStatement line := by
  decide +kernel

end Fragment

end ServerPages
