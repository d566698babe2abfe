import ServerPages.Proofs.Text.Search

/-!
# Line breaks between two texts

The line breaks of two texts can be unified one text after the other, unless a carriage return and a
line feed meet where the second text begins. What stands in one line at the end or at the beginning
of a text is not touched, so a tag that stands there is still the same tag.
-/

namespace ServerPages.Text

/-- The pair of a carriage return and a line feed lies across the place where two texts meet. -/
def SplitsPair (t u : Text) : Prop := t.getLast? = some '\r' ∧ u.head? = some '\n'

instance (t u : Text) : Decidable (SplitsPair t u) := inferInstanceAs (Decidable (_ ∧ _))

/-- A pair that is split stays split if more text stands in front. -/
theorem SplitsPair.cons {t u : Text} (h : SplitsPair t u) (c : Char) : SplitsPair (c :: t) u := by
  obtain ⟨front, rfl⟩ := List.getLast?_eq_some_iff.mp h.1
  refine ⟨?_, h.2⟩
  rw [← List.cons_append]
  exact List.getLast?_concat

/-- Every character but a carriage return stays as it is. -/
theorem unifyBreaks_cons {c : Char} (hc : c ≠ '\r') (rest : Text) :
    unifyBreaks (c :: rest) = c :: unifyBreaks rest := by
  rw [unifyBreaks]
  · rintro more rfl
    exact fun _ => hc rfl
  · exact hc

/-- A carriage return that no line feed follows becomes a line feed. -/
theorem unifyBreaks_cr {rest : Text} (h : rest.head? ≠ some '\n') :
    unifyBreaks ('\r' :: rest) = '\n' :: unifyBreaks rest := by
  rw [unifyBreaks]
  rintro more rfl
  exact h rfl

/-- A carriage return that is not followed by a line feed in one text is not followed by one across
the place where two texts meet either. -/
theorem head?_append_ne_newline {rest u : Text} (hlf : ∀ more, rest ≠ '\n' :: more)
    (h : ¬ SplitsPair ('\r' :: rest) u) : (rest ++ u).head? ≠ some '\n' := by
  cases rest with
  | nil => exact fun hu => h ⟨rfl, hu⟩
  | cons c rest => exact fun hc => hlf rest (congrArg (· :: rest) (Option.some.inj hc))

/-- Line breaks may be unified part by part unless the parts split a pair. -/
theorem unifyBreaks_append {t u : Text} (h : ¬ SplitsPair t u) :
    (t ++ u).unifyBreaks = t.unifyBreaks ++ u.unifyBreaks := by
  fun_induction unifyBreaks t with
  | case1 => rfl
  | case2 rest ih =>
    have hrest : ¬ SplitsPair rest u := fun hs => h ((hs.cons _).cons _)
    simp only [List.cons_append, unifyBreaks, ih hrest]
  | case3 rest hlf ih =>
    rw [List.cons_append, unifyBreaks_cr (head?_append_ne_newline hlf h),
      ih fun hs => h (hs.cons _), List.cons_append]
  | case4 c rest hpair hcr ih =>
    rw [List.cons_append, unifyBreaks_cons hcr, ih fun hs => h (hs.cons _), List.cons_append]

/-- Nothing is split in front of a text that does not begin with a line feed. -/
theorem unifyBreaks_append_of_head {t u : Text} (h : u.head? ≠ some '\n') :
    (t ++ u).unifyBreaks = t.unifyBreaks ++ u.unifyBreaks :=
  unifyBreaks_append fun hs => h hs.2

/-- A text without carriage returns stays as it is, whatever follows it. -/
theorem unifyBreaks_append_of_cr {t : Text} (h : '\r' ∉ t) (u : Text) :
    (t ++ u).unifyBreaks = t ++ u.unifyBreaks := by
  rw [unifyBreaks_append fun hs => h (List.mem_of_getLast? hs.1), unifyBreaks_eq_self h]

/-- Blanks of a tag are still blanks when their line breaks have been unified. -/
theorem all_isTagSpace_unifyBreaks {t : Text} (h : t.all isTagSpace = true) :
    t.unifyBreaks.all isTagSpace = true := by
  fun_induction unifyBreaks t with
  | case1 => exact h
  | case2 rest ih =>
    simp only [List.all_cons, Bool.and_eq_true] at h ⊢
    exact ⟨by decide, ih h.2.2⟩
  | case3 rest _ ih =>
    simp only [List.all_cons, Bool.and_eq_true] at h ⊢
    exact ⟨by decide, ih h.2⟩
  | case4 c rest _ _ ih =>
    simp only [List.all_cons, Bool.and_eq_true] at h ⊢
    exact ⟨h.1, ih h.2⟩

/-- Every carriage return becomes a line feed. -/
theorem unifyBreaks_eq_self_of_lf {t : Text} (h : '\n' ∉ t.unifyBreaks) : t.unifyBreaks = t := by
  fun_induction unifyBreaks t with
  | case1 => rfl
  | case2 rest => exact absurd List.mem_cons_self h
  | case3 rest => exact absurd List.mem_cons_self h
  | case4 c rest _ _ ih => rw [ih fun hm => h (List.mem_cons_of_mem _ hm)]

/-- The last line of a text stays as it is. -/
theorem suffix_of_suffix_unifyBreaks {t line : Text} (hline : '\n' ∉ line)
    (h : line <:+ t.unifyBreaks) : line <:+ t := by
  fun_induction unifyBreaks t with
  | case1 => exact h
  | case2 rest ih =>
    rcases List.suffix_cons_iff.mp h with rfl | h
    · exact absurd List.mem_cons_self hline
    · exact (ih h).trans ((List.suffix_cons _ rest).trans (List.suffix_cons _ _))
  | case3 rest _ ih =>
    rcases List.suffix_cons_iff.mp h with rfl | h
    · exact absurd List.mem_cons_self hline
    · exact (ih h).trans (List.suffix_cons _ rest)
  | case4 c rest _ _ ih =>
    rcases List.suffix_cons_iff.mp h with rfl | h
    · have hself := unifyBreaks_eq_self_of_lf fun hm => hline (List.mem_cons_of_mem _ hm)
      exact ⟨[], congrArg (c :: ·) hself⟩
    · exact (ih h).trans (List.suffix_cons _ rest)

/-- The first line of a text stays as it is. -/
theorem prefix_of_prefix_unifyBreaks {t line : Text} (hline : '\n' ∉ line)
    (h : line <+: t.unifyBreaks) : line <+: t := by
  fun_induction unifyBreaks t generalizing line with
  | case1 => exact h
  | case2 rest =>
    rcases List.prefix_cons_iff.mp h with rfl | ⟨line, rfl, -⟩
    · exact List.nil_prefix
    · exact absurd List.mem_cons_self hline
  | case3 rest =>
    rcases List.prefix_cons_iff.mp h with rfl | ⟨line, rfl, -⟩
    · exact List.nil_prefix
    · exact absurd List.mem_cons_self hline
  | case4 c rest _ _ ih =>
    rcases List.prefix_cons_iff.mp h with rfl | ⟨line, rfl, hrest⟩
    · exact List.nil_prefix
    · exact List.cons_prefix_cons.mpr ⟨rfl, ih (fun hm => hline (List.mem_cons_of_mem _ hm)) hrest⟩

/-- What stands in one line of a text stays as it is. -/
theorem infix_of_infix_unifyBreaks {t line : Text} (hline : '\n' ∉ line)
    (h : line <:+: t.unifyBreaks) : line <:+: t := by
  have hbreak : ∀ {rest : Text}, line <+: '\n' :: rest → line = [] := by
    intro rest hp
    rcases List.prefix_cons_iff.mp hp with hnil | ⟨tail, rfl, -⟩
    · exact hnil
    · exact absurd List.mem_cons_self hline
  fun_induction unifyBreaks t with
  | case1 => exact h
  | case2 rest ih =>
    rcases List.infix_cons_iff.mp h with hp | hi
    · rw [hbreak hp]
      exact List.nil_infix
    · exact (ih hi).trans ((List.suffix_cons _ rest).trans (List.suffix_cons _ _)).isInfix
  | case3 rest _ ih =>
    rcases List.infix_cons_iff.mp h with hp | hi
    · rw [hbreak hp]
      exact List.nil_infix
    · exact (ih hi).trans (List.suffix_cons _ rest).isInfix
  | case4 c rest _ hcr ih =>
    rcases List.infix_cons_iff.mp h with hp | hi
    · rw [← unifyBreaks_cons hcr] at hp
      exact (prefix_of_prefix_unifyBreaks hline hp).isInfix
    · exact (ih hi).trans (List.suffix_cons _ rest).isInfix

end ServerPages.Text
