import ServerPages.Proofs.Text.Search
import ServerPages.Text.Quoted

/-!
# Trimming and single lines

Trimming stops at the first character that is not blank. A text without line breaks is a line of its
own, and a text that holds no escaped closing delimiter is its own unescaped form.
-/

namespace ServerPages.Text

/-- The lines one after the other, with a line feed behind each. -/
def unlines (lines : List Text) : Text := lines.flatMap fun line => line ++ ['\n']

theorem unlines_cons (line : Text) (lines : List Text) :
    unlines (line :: lines) = line ++ '\n' :: unlines lines := by
  simp [unlines]

/-- A text whose first character is not blank. -/
theorem exists_eq_cons {t : Text} (h : (t.head?.any fun c => !ServerPages.isBlank c) = true) :
    ∃ c rest, t = c :: rest ∧ ServerPages.isBlank c = false := by
  cases t with
  | nil => cases h
  | cons c rest => exact ⟨c, rest, rfl, by simpa using h⟩

/-- A text whose last character is not blank. -/
theorem exists_eq_concat {t : Text} (h : (t.getLast?.any fun c => !ServerPages.isBlank c) = true) :
    ∃ w z, t = w ++ [z] ∧ ServerPages.isBlank z = false := by
  cases hz : t.getLast? with
  | none => simp [hz] at h
  | some z =>
    obtain ⟨w, hw⟩ := List.getLast?_eq_some_iff.mp hz
    exact ⟨w, z, hw, by simpa [hz] using h⟩

theorem trimStart_cons {c : Char} (h : ServerPages.isBlank c = false) (t : Text) :
    trimStart (c :: t) = c :: t :=
  List.dropWhile_cons_of_neg (by simp [h])

theorem isBlank_cons {c : Char} {t : Text} :
    isBlank (c :: t) = true ↔ ServerPages.isBlank c = true ∧ isBlank t = true := by
  rw [isBlank, List.all_cons, Bool.and_eq_true, isBlank]

/-- Blank texts one after the other are blank. -/
theorem isBlank_append {t u : Text} (ht : isBlank t = true) (hu : isBlank u = true) :
    isBlank (t ++ u) = true := by
  rw [isBlank, List.all_append, Bool.and_eq_true]
  exact ⟨ht, hu⟩

/-- The characters of a text that are not blank. -/
def visible (t : Text) : Text := t.filter fun c => !ServerPages.isBlank c

@[simp] theorem visible_append (t u : Text) : visible (t ++ u) = visible t ++ visible u :=
  List.filter_append ..

theorem visible_of_isBlank {t : Text} (h : isBlank t = true) : visible t = [] := by
  simpa [visible, isBlank] using h

theorem leadingBlanks_append_trimStart (t : Text) : t.leadingBlanks ++ t.trimStart = t :=
  List.takeWhile_append_dropWhile

theorem isBlank_leadingBlanks (t : Text) : t.leadingBlanks.isBlank = true := List.all_takeWhile

theorem not_mem_leadingBlanks {c : Char} {t : Text} (h : c ∉ t) : c ∉ t.leadingBlanks :=
  fun hm => h ((List.takeWhile_sublist _).subset hm)

theorem not_mem_trimStart {c : Char} {t : Text} (h : c ∉ t) : c ∉ t.trimStart :=
  fun hm => h ((List.dropWhile_sublist _).subset hm)

/-- Behind the leading blanks stands a visible character. -/
theorem head?_trimStart (t : Text) : ∀ c ∈ t.trimStart.head?, ServerPages.isBlank c = false := by
  intro c hc
  have hfirst := List.head?_dropWhile_not ServerPages.isBlank t
  rw [show (t.dropWhile ServerPages.isBlank).head? = some c from hc] at hfirst
  exact hfirst

/-- Blanks behind the last character that is not blank are trimmed. -/
theorem trimEnd_append_blanks {z : Char} (h : ServerPages.isBlank z = false) {u : Text}
    (hu : isBlank u = true) (w : Text) : trimEnd (w ++ [z] ++ u) = w ++ [z] := by
  have hr : ∀ c ∈ u.reverse, ServerPages.isBlank c = true := by
    simpa [isBlank] using hu
  rw [trimEnd, List.reverse_append, List.dropWhile_append_of_pos hr, List.reverse_append,
    List.reverse_singleton, List.singleton_append, List.dropWhile_cons_of_neg (by simp [h])]
  simp

/-- Leading blanks are cut off all at once. -/
theorem trimStart_trimStart (t : Text) : t.trimStart.trimStart = t.trimStart := by
  have hhead := head?_trimStart t
  cases ht : t.trimStart with
  | nil => rfl
  | cons c rest =>
    rw [ht] at hhead
    exact trimStart_cons (hhead c rfl) rest

/-- No leading blanks are left once they have been cut off. -/
theorem leadingBlanks_trimStart (t : Text) : t.trimStart.leadingBlanks = [] := by
  have hhead := head?_trimStart t
  cases ht : t.trimStart with
  | nil => rfl
  | cons c rest =>
    rw [ht] at hhead
    exact List.takeWhile_cons_of_neg (by simp [hhead c rfl])

/-- The first character that is not blank is the one at which trimming stops. -/
theorem find?_eq_head?_trimStart (t : Text) :
    (t.find? fun c => !ServerPages.isBlank c) = t.trimStart.head? := by
  induction t with
  | nil => rfl
  | cons c t ih =>
    cases hc : ServerPages.isBlank c with
    | true =>
      rw [List.find?_cons_of_neg (by simp [hc]), ih, trimStart, trimStart,
        List.dropWhile_cons_of_pos hc]
    | false =>
      rw [List.find?_cons_of_pos (by simp [hc]), trimStart_cons hc]
      rfl

theorem isBlank_of_mem_drop_leadingBlanks {t : Text} {n : Nat} :
    ∀ c ∈ t.leadingBlanks.drop n, ServerPages.isBlank c = true :=
  fun c hc => List.all_eq_true.mp (isBlank_leadingBlanks t) c (List.mem_of_mem_drop hc)

section Drop

variable {t : Text} {n : Nat} (h : n ≤ t.leadingBlanks.length)

include h

theorem drop_eq_append : t.drop n = t.leadingBlanks.drop n ++ t.trimStart := by
  rw [← List.drop_append_of_le_length h, leadingBlanks_append_trimStart]

theorem trimStart_drop : trimStart (t.drop n) = t.trimStart := by
  rw [drop_eq_append h, trimStart, List.dropWhile_append_of_pos isBlank_of_mem_drop_leadingBlanks]
  exact trimStart_trimStart t

/-- The leading blanks that are left are those that are not dropped. -/
theorem leadingBlanks_drop : leadingBlanks (t.drop n) = t.leadingBlanks.drop n := by
  rw [drop_eq_append h, leadingBlanks,
    List.takeWhile_append_of_pos isBlank_of_mem_drop_leadingBlanks]
  exact (congrArg _ (leadingBlanks_trimStart t)).trans (List.append_nil _)

/-- Dropping leading blanks takes nothing away that is visible. -/
theorem visible_drop : visible (t.drop n) = t.visible := by
  have hblank : isBlank (t.leadingBlanks.drop n) = true :=
    List.all_eq_true.mpr isBlank_of_mem_drop_leadingBlanks
  calc
    visible (t.drop n) = visible t.trimStart := by
      rw [drop_eq_append h, visible_append, visible_of_isBlank hblank, List.nil_append]
    _ = visible (t.leadingBlanks ++ t.trimStart) := by
      rw [visible_append, visible_of_isBlank (isBlank_leadingBlanks t), List.nil_append]
    _ = t.visible := by rw [leadingBlanks_append_trimStart]

end Drop

/-- Nothing is cut off behind a visible character. -/
theorem trimEnd_eq_self {t : Text} (h : ∀ c ∈ t.getLast?, ServerPages.isBlank c = false) :
    t.trimEnd = t := by
  rcases List.eq_nil_or_concat t with rfl | ⟨front, z, rfl⟩
  · rfl
  · rw [List.concat_eq_append] at h ⊢
    have hz := h z (by simp)
    simpa using trimEnd_append_blanks hz (u := []) rfl front

/-- A text that has been trimmed at its end ends with a visible character. -/
theorem getLast?_trimEnd (t : Text) : ∀ c ∈ t.trimEnd.getLast?, ServerPages.isBlank c = false := by
  intro c hc
  rw [trimEnd, List.getLast?_reverse] at hc
  exact head?_trimStart t.reverse c hc

/-- What is left of a trimmed text has no blanks at its end. -/
theorem trimEnd_drop_trimEnd (n : Nat) (t : Text) :
    trimEnd (t.trimEnd.drop n) = t.trimEnd.drop n := by
  apply trimEnd_eq_self
  intro c hc
  rw [List.getLast?_drop] at hc
  split at hc
  · cases hc
  · exact getLast?_trimEnd t c hc

theorem trimEnd_append_takeWhile (t : Text) :
    t.trimEnd ++ (t.reverse.takeWhile ServerPages.isBlank).reverse = t := by
  rw [trimEnd, ← List.reverse_append, List.takeWhile_append_dropWhile, List.reverse_reverse]

theorem trimEnd_sublist (t : Text) : t.trimEnd.Sublist t := by
  have h := List.sublist_append_left t.trimEnd (t.reverse.takeWhile ServerPages.isBlank).reverse
  rwa [trimEnd_append_takeWhile] at h

/-- Trimming the end of a text takes nothing away that is visible. -/
theorem visible_trimEnd (t : Text) : t.trimEnd.visible = t.visible := by
  have hblank : isBlank (t.reverse.takeWhile ServerPages.isBlank).reverse = true := by
    rw [isBlank, List.all_reverse]
    exact List.all_takeWhile
  have h := congrArg visible (trimEnd_append_takeWhile t)
  rwa [visible_append, visible_of_isBlank hblank, List.append_nil] at h

/-- Trimming the beginning of a text takes nothing away that is visible. -/
theorem visible_trimStart (t : Text) : t.trimStart.visible = t.visible := by
  have h := visible_append t.leadingBlanks t.trimStart
  rwa [leadingBlanks_append_trimStart, visible_of_isBlank (isBlank_leadingBlanks t),
    List.nil_append, eq_comm] at h

/-- Trimming takes away nothing that is not blank. -/
theorem mem_trim {c : Char} {t : Text} (hc : ServerPages.isBlank c = false) (h : c ∈ t) :
    c ∈ t.trim := by
  have hvisible : c ∈ t.trim.visible := by
    rw [trim, visible_trimEnd, visible_trimStart]
    exact List.mem_filter.mpr ⟨h, by simp [hc]⟩
  exact (List.mem_filter.mp hvisible).1

/-- A text without line breaks is a single line. -/
theorem lines_eq_singleton {t : Text} (ht : t ≠ []) (hn : '\n' ∉ t) (hr : '\r' ∉ t) :
    lines t = [t] := by
  fun_induction lines t with
  | case1 => exact absurd rfl ht
  | case2 => simp at hr
  | case3 => simp at hr
  | case4 => simp at hn
  | case5 c rest _ _ _ ih =>
    cases rest with
    | nil => rfl
    | cons d rest =>
      rw [ih (List.cons_ne_nil d rest) (fun h => hn (List.mem_cons_of_mem c h))
        fun h => hr (List.mem_cons_of_mem c h)]
      rfl

/-- The lines of a text hold its characters only. -/
theorem mem_of_mem_lines {c : Char} {t : Text} : ∀ line ∈ t.lines, c ∈ line → c ∈ t := by
  fun_induction lines t with
  | case1 => simp
  | case2 rest ih => simpa using fun line hl hc => .inr (.inr (ih line hl hc))
  | case3 rest _ ih => simpa using fun line hl hc => .inr (ih line hl hc)
  | case4 rest ih => simpa using fun line hl hc => .inr (ih line hl hc)
  | case5 d rest _ _ _ ih =>
    cases hr : lines rest with
    | nil => simpa [consFirst] using Or.inl
    | cons first others =>
      rw [hr, List.forall_mem_cons] at ih
      rw [consFirst, List.forall_mem_cons]
      refine ⟨fun hc => ?_, fun line hl hc => List.mem_cons_of_mem d (ih.2 line hl hc)⟩
      rcases List.mem_cons.mp hc with rfl | hc
      · exact List.mem_cons_self
      · exact List.mem_cons_of_mem d (ih.1 hc)

/-- A text without line break characters has no line break. -/
theorem firstBreak?_eq_none {t : Text} (hn : '\n' ∉ t) (hr : '\r' ∉ t) : firstBreak? t = none := by
  fun_induction firstBreak? t with
  | case1 => rfl
  | case2 => simp at hr
  | case3 => simp at hr
  | case4 => simp at hn
  | case5 c rest _ _ _ ih =>
    rw [ih fun h => hn (List.mem_cons_of_mem c h), Option.map_none]
    exact fun h => hr (List.mem_cons_of_mem c h)

/-- A text that holds no escaped closing delimiter stays as it is. -/
theorem unescapeClose_eq_self {t : Text} (h : ¬ "%\\\\>".toList <:+: t) : unescapeClose t = t := by
  fun_induction unescapeClose t with
  | case1 => rfl
  | case2 rest => exact absurd (List.prefix_append "%\\\\>".toList rest).isInfix h
  | case3 c rest _ ih => rw [ih fun hi => h (hi.trans (List.suffix_cons c rest).isInfix)]

/-- A literal that occurs in a text, but ends in a character that the end of the text does not hold,
occurs before this end. -/
theorem infix_of_infix_append {w t u : Text} {z : Char} (hz : z ∉ u)
    (h : w ++ [z] <:+: t ++ u) : w ++ [z] <:+: t := by
  obtain ⟨before, after, he⟩ := h
  rcases List.append_eq_append_iff.mp he with ⟨excess, rfl, -⟩ | ⟨excess, hexcess, rfl⟩
  · exact ⟨before, excess, rfl⟩
  · rcases List.eq_nil_or_concat excess with rfl | ⟨front, a, rfl⟩
    · exact ⟨before, [], by simpa using hexcess⟩
    · have hlast : z = a := by simpa using congrArg List.getLast? hexcess
      exact absurd (by simp [hlast]) hz

/-- A literal that does not begin with the first character of a text does not occur there. -/
theorem not_infix_cons {a c : Char} {w t : Text} (hne : a ≠ c) (h : ¬ a :: w <:+: t) :
    ¬ a :: w <:+: c :: t := by
  rw [List.infix_cons_iff]
  rintro (hp | hi)
  · exact hne (List.cons_prefix_cons.mp hp).1
  · exact h hi

/-- Spaces inside of tags are blanks. -/
theorem isTagSpace_eq_false {c : Char} (h : ServerPages.isBlank c = false) :
    isTagSpace c = false := by
  rw [Bool.eq_false_iff]
  intro hs
  have hcases : c = ' ' ∨ c = '\n' ∨ c = '\t' ∨ c = '\r' := by simpa [isTagSpace, or_assoc] using hs
  rcases hcases with rfl | rfl | rfl | rfl <;> cases h

end ServerPages.Text
