import ServerPages.Proofs.Text.Line

/-!
# Splitting into lines

A text that is split at its line feeds can be put together again. What a reader sees of a text is
its lines that are not blank, without the blanks at their ends.
-/

namespace ServerPages.Text

/-- A character is put in front of the first piece, whatever pieces follow. -/
theorem consFirst_append (c : Char) {pieces : List Text} (h : pieces ≠ []) (others : List Text) :
    consFirst c (pieces ++ others) = consFirst c pieces ++ others := by
  cases pieces with
  | nil => exact absurd rfl h
  | cons piece pieces => rfl

/-- There is always a piece, even of an empty text. -/
theorem splitOn_ne_nil (separator : Char) (t : Text) : splitOn separator t ≠ [] := by
  cases t with
  | nil => exact nofun
  | cons c t =>
    rw [splitOn]
    split
    · exact nofun
    · cases splitOn separator t <;> exact nofun

/-- No piece holds the separator. -/
theorem not_mem_of_mem_splitOn {separator : Char} {t : Text} :
    ∀ piece ∈ splitOn separator t, separator ∉ piece := by
  induction t with
  | nil => simp [splitOn]
  | cons c t ih =>
    rw [splitOn]
    split
    · rw [List.forall_mem_cons]
      exact ⟨List.not_mem_nil, ih⟩
    · rename_i hc
      cases hp : splitOn separator t with
      | nil => exact absurd hp (splitOn_ne_nil separator t)
      | cons piece pieces =>
        rw [hp, List.forall_mem_cons] at ih
        rw [consFirst, List.forall_mem_cons]
        refine ⟨fun hm => ?_, ih.2⟩
        rcases List.mem_cons.mp hm with he | hm
        · exact hc he.symm
        · exact ih.1 hm

/-- The pieces between line feeds give the text back, with one more line feed at its end. -/
theorem unlines_splitOn (t : Text) : unlines (splitOn '\n' t) = t ++ ['\n'] := by
  induction t with
  | nil => rfl
  | cons c t ih =>
    rw [splitOn]
    split
    · rename_i hc
      rw [unlines_cons, ih, hc]
      rfl
    · cases hp : splitOn '\n' t with
      | nil => exact absurd hp (splitOn_ne_nil '\n' t)
      | cons piece pieces =>
        rw [hp] at ih
        rw [consFirst, unlines_cons, List.cons_append, ← unlines_cons, ih]
        rfl

/-- A text is split at every separator. -/
theorem splitOn_append_cons (separator : Char) (t u : Text) :
    splitOn separator (t ++ separator :: u) = splitOn separator t ++ splitOn separator u := by
  induction t with
  | nil => simp [splitOn]
  | cons c t ih =>
    rw [List.cons_append, splitOn, splitOn, ih]
    split
    · rfl
    · exact consFirst_append c (splitOn_ne_nil separator t) _

/-- A text without separators is a single piece. -/
theorem splitOn_eq_singleton {separator : Char} {t : Text} (h : separator ∉ t) :
    splitOn separator t = [t] := by
  induction t with
  | nil => rfl
  | cons c t ih =>
    rw [List.mem_cons, not_or] at h
    rw [splitOn, if_neg (Ne.symm h.1), ih h.2]
    rfl

/-- Text without a separator goes to the last piece. -/
theorem exists_splitOn_append (separator : Char) (t : Text) :
    ∃ pieces last, ∀ u, separator ∉ u → splitOn separator (t ++ u) = pieces ++ [last ++ u] := by
  induction t with
  | nil => exact ⟨[], [], fun u hu => splitOn_eq_singleton hu⟩
  | cons c t ih =>
    obtain ⟨pieces, last, h⟩ := ih
    by_cases hc : c = separator
    · refine ⟨[] :: pieces, last, fun u hu => ?_⟩
      rw [List.cons_append, splitOn, if_pos hc, h u hu]
      rfl
    · cases pieces with
      | nil =>
        refine ⟨[], c :: last, fun u hu => ?_⟩
        rw [List.cons_append, splitOn, if_neg hc, h u hu]
        rfl
      | cons piece pieces =>
        refine ⟨(c :: piece) :: pieces, last, fun u hu => ?_⟩
        rw [List.cons_append, splitOn, if_neg hc, h u hu]
        rfl

/-- The lines that are not blank, without the blanks at their ends. -/
def shownLines (t : Text) : List Text :=
  ((t.splitOn '\n').filter fun line => !isBlank line).map trimEnd

theorem shownLines_append_break (t u : Text) :
    shownLines (t ++ '\n' :: u) = shownLines t ++ shownLines u := by
  rw [shownLines, splitOn_append_cons, List.filter_append, List.map_append, shownLines, shownLines]

theorem shownLines_newline (t : Text) : shownLines (t ++ ['\n']) = shownLines t := by
  have hnil : shownLines [] = [] := by simp [shownLines, splitOn, isBlank]
  rw [shownLines_append_break, hnil, List.append_nil]

/-- A single line that ends with a character that is not blank. -/
theorem shownLines_line {t : Text} {z : Char} (hn : '\n' ∉ t ++ [z])
    (hz : ServerPages.isBlank z = false) : shownLines (t ++ [z]) = [t ++ [z]] := by
  have htrim : trimEnd (t ++ [z]) = t ++ [z] := by
    have h := trimEnd_append_blanks hz (u := []) rfl t
    rwa [List.append_nil] at h
  simp [shownLines, splitOn_eq_singleton hn, isBlank, hz, htrim]

/-- A blank at the end of a line is not shown. -/
theorem shownLines_append_blank {c : Char} (hn : c ≠ '\n') (hc : ServerPages.isBlank c = true)
    (t : Text) : shownLines (t ++ [c]) = shownLines t := by
  obtain ⟨pieces, last, h⟩ := exists_splitOn_append '\n' t
  have hself := h [] List.not_mem_nil
  have hblank := h [c] (by simpa using hn.symm)
  rw [List.append_nil, List.append_nil] at hself
  simp only [shownLines, hself, hblank, List.filter_append, List.map_append]
  congr 1
  have hlast : isBlank (last ++ [c]) = isBlank last := by simp [isBlank, hc]
  have htrim : trimEnd (last ++ [c]) = trimEnd last := by simp [trimEnd, hc]
  cases hl : isBlank last <;> simp [hlast, htrim, hl]

end ServerPages.Text
