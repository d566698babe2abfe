import ServerPages.Text.Blank
import ServerPages.Text.Lines

/-!
# Searching and measuring texts

A closing delimiter ends in a character that occurs nowhere else in it. Such a delimiter cannot
overlap itself, so its first occurrence after a body that does not hold it is the one that was
written there. Byte offsets cut a text where a character ends, and unified line breaks leave no
carriage return.
-/

namespace ServerPages.Text

@[simp] theorem after?_append (literal rest : Text) :
    after? literal (literal ++ rest) = some rest :=
  after?_eq_some_iff.mpr rfl

theorem suffix_of_after? {literal t rest : Text} (h : after? literal t = some rest) : rest <:+ t :=
  ⟨literal, (after?_eq_some_iff.mp h).symm⟩

/-- A literal is missed exactly when the text does not begin with it. -/
theorem after?_eq_none_iff {literal t : Text} : after? literal t = none ↔ ¬ literal <+: t := by
  rw [Option.eq_none_iff_forall_ne_some]
  constructor
  · rintro h ⟨rest, rfl⟩
    exact h rest (after?_append literal rest)
  · intro h rest hr
    exact h ⟨rest, (after?_eq_some_iff.mp hr).symm⟩

/-- An occurrence that begins before a delimiter and ends inside it would meet the last character of
the delimiter too early. -/
private theorem not_prefix_of_overlap {w body rest : Text} {z : Char} (hz : z ∉ w)
    (hb : body ≠ []) (hi : ¬ w ++ [z] <:+: body) :
    ¬ w ++ [z] <+: body ++ (w ++ [z] ++ rest) := by
  intro h
  rcases List.prefix_or_prefix_of_prefix h (List.prefix_append _ _) with hp | ⟨y, hy⟩
  · exact hi hp.isInfix
  · rw [← hy, List.prefix_append_right_inj, hy, List.append_assoc] at h
    rcases List.eq_nil_or_concat y with rfl | ⟨front, a, rfl⟩
    · rw [List.append_nil] at hy
      exact hi (hy ▸ List.infix_rfl)
    · rw [List.concat_eq_append] at h hy
      have ha : body ++ front = w ∧ a = z := by simpa [← List.append_assoc] using hy
      obtain ⟨hw, rfl⟩ := ha
      have hlen : (front ++ [a]).length ≤ w.length := by
        have := List.length_pos_iff.mpr hb
        simp only [← hw, List.length_append, List.length_singleton]
        omega
      have hp := List.prefix_of_prefix_length_le h (List.prefix_append _ _) hlen
      exact hz (hp.subset (by simp))

/-- The first occurrence of a delimiter after a body that does not hold it is the one behind the
body. -/
theorem splitFirst?_append {w body : Text} {z : Char} (hz : z ∉ w) (hi : ¬ w ++ [z] <:+: body)
    (rest : Text) : splitFirst? (w ++ [z]) (body ++ (w ++ [z] ++ rest)) = some (body, rest) := by
  induction body with
  | nil =>
    cases h : w ++ [z] ++ rest with
    | nil => simp at h
    | cons c more => rw [List.nil_append, splitFirst?, ← h, after?_append]
  | cons c body ih =>
    have hn : after? (w ++ [z]) (c :: body ++ (w ++ [z] ++ rest)) = none :=
      after?_eq_none_iff.mpr (not_prefix_of_overlap hz (List.cons_ne_nil c body) hi)
    have hb := ih fun h => hi (h.trans (List.suffix_cons c body).isInfix)
    rw [List.cons_append] at hn ⊢
    rw [splitFirst?, hn]
    simp only [hb, Option.map_some]

/-- A literal that is not found does not occur. -/
theorem not_infix_of_splitFirst?_eq_none {literal t : Text} (h : splitFirst? literal t = none) :
    ¬ literal <:+: t := by
  fun_induction splitFirst? literal t with
  | case1 =>
    rw [List.infix_nil]
    rintro rfl
    cases h
  | case2 c rest after ha => cases h
  | case3 c rest ha ih =>
    rw [List.infix_cons_iff, not_or]
    exact ⟨after?_eq_none_iff.mp ha, ih (Option.map_eq_none_iff.mp h)⟩

/-- A literal does not occur before its first occurrence. -/
theorem not_infix_of_splitFirst?_eq_some {literal t before after : Text} (hl : literal ≠ [])
    (h : splitFirst? literal t = some (before, after)) : ¬ literal <:+: before := by
  fun_induction splitFirst? literal t generalizing before with
  | case1 =>
    obtain ⟨rest, -, he⟩ := Option.map_eq_some_iff.mp h
    cases he
    rwa [List.infix_nil]
  | case2 c rest found hf =>
    cases h
    rwa [List.infix_nil]
  | case3 c rest ha ih =>
    obtain ⟨⟨front, found⟩, hs, he⟩ := Option.map_eq_some_iff.mp h
    cases he
    rw [List.infix_cons_iff, not_or]
    refine ⟨?_, ih hs⟩
    intro hp
    have hrest : rest = front ++ (literal ++ after) := by
      rw [eq_append_of_splitFirst? hs, List.append_assoc]
    apply after?_eq_none_iff.mp ha
    rw [hrest, ← List.cons_append]
    exact hp.trans (List.prefix_append _ _)

/-- Every character takes at least one byte. -/
theorem byteLength_pos {t : Text} (h : t ≠ []) : 0 < t.byteLength := by
  obtain ⟨c, rest, rfl⟩ := List.exists_cons_of_ne_nil h
  rw [byteLength_cons]
  exact Nat.lt_of_lt_of_le c.utf8Size_pos (Nat.le_add_right ..)

/-- Of two beginnings of a text, the one with fewer bytes is a beginning of the other. -/
theorem prefix_of_byteLength_le {t u w : Text} (ht : t <+: w) (hu : u <+: w)
    (h : t.byteLength ≤ u.byteLength) : t <+: u := by
  rcases List.prefix_or_prefix_of_prefix ht hu with hp | ⟨excess, rfl⟩
  · exact hp
  · by_cases hexcess : excess = []
    · simp only [hexcess, List.append_nil, List.prefix_rfl]
    · have hpos := byteLength_pos hexcess
      rw [byteLength_append] at h
      omega

private theorem takeBytes_zero (t : Text) : takeBytes 0 t = [] := by
  cases t with
  | nil => rfl
  | cons c t => rw [takeBytes, if_neg (Nat.not_le.mpr c.utf8Size_pos)]

/-- The bytes of the first part of a text hold just that part. -/
theorem takeBytes_append (t u : Text) : takeBytes t.byteLength (t ++ u) = t := by
  induction t with
  | nil => exact takeBytes_zero u
  | cons c t ih =>
    rw [byteLength_cons, List.cons_append, takeBytes, if_pos (Nat.le_add_right ..),
      Nat.add_sub_cancel_left, ih]

/-- The number of bytes of a beginning cuts off just this beginning. -/
@[simp] theorem takeBytes?_append (t u : Text) : takeBytes? t.byteLength (t ++ u) = some t := by
  simp [takeBytes?, takeBytes_append]

/-- Unified line breaks leave no carriage return. -/
theorem cr_not_mem_unifyBreaks (t : Text) : '\r' ∉ t.unifyBreaks := by
  fun_induction unifyBreaks t with
  | case1 => simp
  | case2 rest ih => simpa using ih
  | case3 rest _ ih => simpa using ih
  | case4 c rest _ hc ih =>
    rw [List.mem_cons, not_or]
    exact ⟨fun h => hc h.symm, ih⟩

/-- A text without carriage returns has its line breaks unified already. -/
theorem unifyBreaks_eq_self {t : Text} (h : '\r' ∉ t) : t.unifyBreaks = t := by
  fun_induction unifyBreaks t with
  | case1 => rfl
  | case2 rest => simp at h
  | case3 rest => simp at h
  | case4 c rest _ _ ih => rw [ih fun hm => h (List.mem_cons_of_mem _ hm)]

/-- Line breaks are unified all at once. -/
theorem unifyBreaks_unifyBreaks (t : Text) : t.unifyBreaks.unifyBreaks = t.unifyBreaks :=
  unifyBreaks_eq_self (cr_not_mem_unifyBreaks t)

/-- Spaces in front of a text are skipped with the spaces of the text. -/
theorem skipSpaces_append {gap : Text} (h : gap.all isTagSpace) (t : Text) :
    skipSpaces (gap ++ t) = skipSpaces t :=
  List.dropWhile_append_of_pos (by simpa using h)

/-- Spaces are skipped all at once. -/
theorem skipSpaces_skipSpaces (t : Text) : t.skipSpaces.skipSpaces = t.skipSpaces := by
  induction t with
  | nil => rfl
  | cons c t ih =>
    by_cases hc : isTagSpace c = true
    · rwa [show skipSpaces (c :: t) = skipSpaces t from List.dropWhile_cons_of_pos hc]
    · have hself : skipSpaces (c :: t) = c :: t := List.dropWhile_cons_of_neg hc
      rw [hself, hself]

theorem takeWhile_isTagSpace_append (t : Text) :
    t.takeWhile isTagSpace ++ t.skipSpaces = t :=
  List.takeWhile_append_dropWhile

/-- A character that is no space is not skipped. -/
theorem mem_skipSpaces {c : Char} {t : Text} (hc : isTagSpace c = false) (h : c ∈ t) :
    c ∈ t.skipSpaces := by
  rw [← takeWhile_isTagSpace_append t, List.mem_append] at h
  refine h.resolve_left fun hs => ?_
  have hspace : isTagSpace c = true := List.all_eq_true.mp List.all_takeWhile c hs
  rw [hc] at hspace
  cases hspace

end ServerPages.Text
