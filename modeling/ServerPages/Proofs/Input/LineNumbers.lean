import ServerPages.Proofs.Input.Position
import ServerPages.Proofs.Text.Breaks
import ServerPages.Proofs.Text.Lined

/-!
# Line breaks and line numbers

Line breaks are treated in two ways. A file that is opened has them unified, by replacing first the
pairs of a carriage return and a line feed and then the carriage returns that are left. A script is
cut into lines at one break after the other, whatever they are. Both find the same breaks: the lines
of a text stay the same when its breaks are unified, and the line feeds in front of a place are as
many as the breaks in front of it were before. So the line numbers that are reported are those of
the file on disk.
-/

namespace ServerPages

namespace Text

/-- Replace every occurrence of a literal that begins with the given character, from left to right
and without overlaps. -/
def replaceAll (first : Char) (more new : Text) : Text → Text
  | [] => []
  | c :: rest =>
    match _h : after? (first :: more) (c :: rest) with
    | some after => new ++ replaceAll first more new after
    | none => c :: replaceAll first more new rest
termination_by t => t.length
decreasing_by
  · rw [after?_eq_some_iff.mp _h, List.length_append, List.length_cons]
    omega
  · exact Nat.lt_succ_self _

/-- The first line, the first break and what follows make up the text. -/
theorem eq_append_of_firstBreak? {t line rest : Text} {ending : LineBreak}
    (h : t.firstBreak? = some (line, ending, rest)) : t = line ++ (ending.text ++ rest) := by
  fun_induction firstBreak? t generalizing line with
  | case1 => cases h
  | case2 | case3 | case4 =>
    cases h
    rfl
  | case5 c more _ _ _ ih =>
    obtain ⟨⟨front, found⟩, hfound, he⟩ := Option.map_eq_some_iff.mp h
    cases he
    rw [ih hfound, List.cons_append]

/-- The lines of a text, by cutting it at its first break as long as there is one. -/
def linesInTurn (t : Text) : List Text :=
  if t = [] then []
  else
    match _h : t.firstBreak? with
    | some (line, _, rest) => line :: linesInTurn rest
    | none => [t]
termination_by t.length
decreasing_by
  rename_i ending
  have hending : ending.text ≠ [] := by cases ending <;> exact List.cons_ne_nil _ _
  have hpos := List.length_pos_iff.mpr hending
  rw [eq_append_of_firstBreak? _h, List.length_append, List.length_append]
  omega

/-- The line breaks of a text, in order. -/
def breaks : Text → List LineBreak
  | [] => []
  | '\r' :: '\n' :: rest => .crlf :: breaks rest
  | '\r' :: rest => .cr :: breaks rest
  | '\n' :: rest => .lf :: breaks rest
  | _ :: rest => breaks rest

section Replace

variable {first : Char} {more new : Text}

/-- An occurrence at the beginning of a text is replaced. -/
theorem replaceAll_append (t : Text) :
    replaceAll first more new (first :: more ++ t) = new ++ replaceAll first more new t := by
  rw [List.cons_append, replaceAll]
  split
  · rename_i after hafter
    rw [← List.cons_append, after?_append] at hafter
    rw [Option.some.inj hafter]
  · rename_i hnone
    rw [← List.cons_append, after?_append] at hnone
    cases hnone

/-- A character at which no occurrence begins stays. -/
theorem replaceAll_cons {c : Char} {t : Text} (h : ¬ first :: more <+: c :: t) :
    replaceAll first more new (c :: t) = c :: replaceAll first more new t := by
  rw [replaceAll]
  split
  · rename_i after hafter
    rw [after?_eq_none_iff.mpr h] at hafter
    cases hafter
  · rfl

theorem replaceAll_cons_of_ne {c : Char} (h : c ≠ first) (t : Text) :
    replaceAll first more new (c :: t) = c :: replaceAll first more new t :=
  replaceAll_cons fun hp => h (List.cons_prefix_cons.mp hp).1.symm

end Replace

/-- Unifying line breaks is replacing the pairs first and then the single carriage returns. -/
theorem unifyBreaks_eq_replaceAll (t : Text) :
    t.unifyBreaks = replaceAll '\r' [] ['\n'] (replaceAll '\r' ['\n'] ['\n'] t) := by
  have hfeed : '\n' ≠ '\r' := by decide
  fun_induction unifyBreaks t with
  | case1 => simp only [replaceAll]
  | case2 rest ih =>
    have hpair := @replaceAll_append '\r' ['\n'] ['\n'] rest
    rw [List.cons_append, List.singleton_append] at hpair
    rw [hpair, List.singleton_append, replaceAll_cons_of_ne hfeed, ih]
  | case3 rest hlf ih =>
    have hsingle : ¬ ['\r', '\n'] <+: '\r' :: rest := by
      intro hp
      obtain ⟨after, hafter⟩ := (List.cons_prefix_cons.mp hp).2
      exact hlf after hafter.symm
    have hlone := @replaceAll_append '\r' [] ['\n']
      (replaceAll '\r' ['\n'] ['\n'] rest)
    rw [List.singleton_append, List.singleton_append] at hlone
    rw [replaceAll_cons hsingle, hlone, ih]
  | case4 c rest _ hcr ih =>
    rw [replaceAll_cons_of_ne hcr, replaceAll_cons_of_ne hcr, ih]

/-- Cutting at one break after the other gives the lines. -/
theorem linesInTurn_text (l : Lined) : linesInTurn l.text = lines l.text := by
  induction l using Lined.induction with
  | single line hline =>
    rw [Lined.text_single, linesInTurn]
    split
    · rename_i hempty
      rw [hempty]
      rfl
    · rename_i hne
      rw [lines_eq_singleton hne hline.1 hline.2]
      split
      · rename_i hfound
        rw [firstBreak?_eq_none hline.1 hline.2] at hfound
        cases hfound
      · rfl
  | above line hline ending below hpair ih =>
    rw [Lined.text_above, lines_append hline hpair, linesInTurn]
    split
    · rename_i hempty
      cases ending <;> simp [LineBreak.text] at hempty
    · split
      · rename_i hfound
        rw [firstBreak?_append hline hpair] at hfound
        cases hfound
        rw [ih]
      · rename_i hnone
        rw [firstBreak?_append hline hpair] at hnone
        cases hnone

/-- Unifying the line breaks of a text keeps its lines. -/
theorem lines_unifyBreaks (t : Text) : t.unifyBreaks.lines = t.lines := by
  fun_induction unifyBreaks t with
  | case1 => rfl
  | case2 rest ih => simp only [lines, ih]
  | case3 rest hlf ih =>
    rw [lines, lines, ih]
    exact hlf
  | case4 c rest _ hcr ih =>
    by_cases hn : c = '\n'
    · subst hn
      rw [lines, lines, ih]
    · rw [lines_cons hn hcr, lines_cons hn hcr, ih]

/-- Other characters are no line breaks. -/
theorem breaks_cons {c : Char} (hn : c ≠ '\n') (hr : c ≠ '\r') (t : Text) :
    breaks (c :: t) = breaks t := by
  rw [breaks]
  · exact fun _ h _ => hr h
  · exact hr
  · exact hn

/-- A carriage return that no line feed follows is a line break. -/
theorem breaks_cr {rest : Text} (h : rest.head? ≠ some '\n') :
    breaks ('\r' :: rest) = .cr :: breaks rest := by
  rw [breaks]
  rintro more rfl
  exact h rfl

/-- The breaks of two texts are those of the whole, unless a pair lies across the place where they
meet. -/
theorem breaks_append {t u : Text} (h : ¬ SplitsPair t u) :
    (t ++ u).breaks = t.breaks ++ u.breaks := by
  fun_induction breaks t with
  | case1 => rfl
  | case2 rest ih =>
    have hrest : ¬ SplitsPair rest u := fun hs => h ((hs.cons _).cons _)
    simp only [List.cons_append, breaks, ih hrest]
  | case3 rest hlf ih =>
    rw [List.cons_append, breaks_cr (head?_append_ne_newline hlf h), ih fun hs => h (hs.cons _),
      List.cons_append]
  | case4 rest ih =>
    simp only [List.cons_append, breaks, ih fun hs => h (hs.cons _)]
  | case5 c rest _ hcr hn ih =>
    rw [List.cons_append, breaks_cons hn hcr, ih fun hs => h (hs.cons _)]

/-- A line has no line breaks. -/
theorem breaks_line {line : Text} (h : line.IsLine) : line.breaks = [] := by
  induction line with
  | nil => rfl
  | cons c line ih =>
    obtain ⟨hn, hr, hrest⟩ := h.of_cons
    rw [breaks_cons hn hr, ih hrest]

/-- The breaks of a text are those at which it is cut into lines. -/
theorem breaks_text (l : Lined) : l.text.breaks = l.rest.map Prod.fst := by
  induction l using Lined.induction with
  | single line hline => rw [Lined.text_single, breaks_line hline]; rfl
  | above line hline ending below hpair ih =>
    have hbreak : (ending.text ++ below.text).breaks = ending :: below.text.breaks := by
      cases ending with
      | lf => rfl
      | crlf => rfl
      | cr => exact breaks_cr (hpair rfl)
    have hmeet : ¬ SplitsPair line (ending.text ++ below.text) :=
      fun hs => hline.2 (List.mem_of_getLast? hs.1)
    rw [Lined.text_above, breaks_append hmeet, breaks_line hline, hbreak, ih]
    rfl

/-- Each break becomes one line feed, and no line feed comes from elsewhere. -/
theorem count_unifyBreaks (t : Text) : t.unifyBreaks.count '\n' = t.breaks.length := by
  fun_induction breaks t with
  | case1 => rfl
  | case2 rest ih => rw [unifyBreaks, List.count_cons_self, ih, List.length_cons]
  | case3 rest hlf ih =>
    rw [unifyBreaks, List.count_cons_self, ih, List.length_cons]
    exact hlf
  | case4 rest ih =>
    rw [unifyBreaks_cons (by decide), List.count_cons_self, ih, List.length_cons]
  | case5 c rest _ hcr hn ih =>
    rw [unifyBreaks_cons hcr, List.count_cons_of_ne hn, ih]

/-- The two treatments of line breaks agree. Unifying them replaces the pairs and then the single
carriage returns; it leaves none of these, changes nothing the second time and keeps the lines,
which are cut at one break after the other. Where a text is cut and not inside a pair, the parts
can be unified on their own, and the line feeds in front of that place, which number its line, are
as many as the breaks in front of it. -/
theorem unifyBreaks_agrees_with_lines (t : Text) :
    t.unifyBreaks = replaceAll '\r' [] ['\n'] (replaceAll '\r' ['\n'] ['\n'] t) ∧
      '\r' ∉ t.unifyBreaks ∧ t.unifyBreaks.unifyBreaks = t.unifyBreaks ∧
      t.lines = t.linesInTurn ∧ t.unifyBreaks.lines = t.lines ∧
      (∀ l : Lined, l.text = t → t.breaks = l.rest.map Prod.fst) ∧
      ∀ front rest, t = front ++ rest → ¬ SplitsPair front rest →
        t.unifyBreaks = front.unifyBreaks ++ rest.unifyBreaks ∧
        t.breaks = front.breaks ++ rest.breaks ∧
        (t.unifyBreaks.take front.unifyBreaks.length).count '\n' = front.breaks.length ∧
        ∀ file, (Position.ofOffset file t.unifyBreaks front.unifyBreaks.byteLength).line =
          front.breaks.length + 1 := by
  refine ⟨unifyBreaks_eq_replaceAll t, cr_not_mem_unifyBreaks t, unifyBreaks_unifyBreaks t, ?_,
    lines_unifyBreaks t, ?_, ?_⟩
  · obtain ⟨l, rfl⟩ := Lined.exists_text_eq t
    exact (linesInTurn_text l).symm
  · rintro l rfl
    exact breaks_text l
  · rintro front rest rfl hmeet
    have hunify := unifyBreaks_append hmeet
    refine ⟨hunify, breaks_append hmeet, ?_, fun file => ?_⟩
    · rw [hunify, List.take_left, count_unifyBreaks]
    · rw [hunify, Position.line_ofOffset_byteLength, count_unifyBreaks]

/-- A carriage return in front of a pair, a line feed in front of a carriage return, and a carriage
return at the end. The place behind the first carriage return lies on the second line. -/
theorem unifyBreaks_agrees_with_lines_of_mixed_breaks :
    let front : Text := "é\r"
    let rest : Text := "\r\nb\n\r"
    let t := front ++ rest
    ¬ SplitsPair front rest ∧ t.unifyBreaks = "é\n\nb\n\n" ∧
      t.unifyBreaks.lines = t.lines ∧ t.lines = [['é'], [], ['b'], []] ∧
      t.breaks = [.cr, .crlf, .lf, .cr] ∧
      t.unifyBreaks = front.unifyBreaks ++ rest.unifyBreaks ∧
      (t.unifyBreaks.take front.unifyBreaks.length).count '\n' = front.breaks.length ∧
      (Position.ofOffset [] t.unifyBreaks front.unifyBreaks.byteLength).line = 2 := by
  intro front rest t
  obtain ⟨-, -, -, -, hlines, -, hparts⟩ := unifyBreaks_agrees_with_lines t
  have hmeet : ¬ SplitsPair front rest := by decide
  obtain ⟨hunify, -, hcount, hline⟩ := hparts front rest rfl hmeet
  exact ⟨hmeet, by decide, hlines, by decide, by decide, hunify, hcount, hline []⟩

end Text

end ServerPages
