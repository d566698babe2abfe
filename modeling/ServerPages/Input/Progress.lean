import ServerPages.Input.Stack

/-!
# Progress in the input

The lengths of the unread texts, from the root template up, measure what is left to do. Reading
makes progress when one of these lengths becomes smaller while those below it stay; files on top of
it may come and go. Since files nest only so deep, progress cannot go on forever.
-/

namespace ServerPages.Stack

/-- The lengths of the unread texts, the root template first. -/
def lengths (s : Stack) : List Nat := (s.map fun r => r.unread.length).reverse

/-- At the first place where two lists differ, both have a number and the first one's is smaller. -/
def Descends : List Nat → List Nat → Prop
  | a :: l, b :: m => a < b ∨ a = b ∧ Descends l m
  | _, _ => False

theorem Descends.append {l m : List Nat} (h : Descends l m) (l' m' : List Nat) :
    Descends (l ++ l') (m ++ m') := by
  fun_induction Descends l m with
  | case1 a l b m ih => exact h.imp_right fun ⟨he, hd⟩ => ⟨he, ih hd⟩
  | case2 => exact h.elim

theorem Descends.trans {l m n : List Nat} (h : Descends l m) (hn : Descends m n) :
    Descends l n := by
  induction l generalizing m n with
  | nil => exact h.elim
  | cons a l ih =>
    cases m with
    | nil => exact h.elim
    | cons b m =>
      cases n with
      | nil => exact hn.elim
      | cons c n =>
        rcases h with h | ⟨rfl, h⟩
        · rcases hn with hn | ⟨rfl, -⟩
          · exact Or.inl (Nat.lt_trans h hn)
          · exact Or.inl h
        · exact hn.imp_right fun ⟨he, hn⟩ => ⟨he, ih h hn⟩

theorem descends_concat (front : List Nat) {a b : Nat} (h : a < b) :
    Descends (front ++ [a]) (front ++ [b]) := by
  induction front with
  | nil => exact Or.inl h
  | cons c front ih => exact Or.inr ⟨rfl, ih⟩

/-- Lists that stay within a length cannot descend forever. -/
theorem acc_descends (bound : Nat) (l : List Nat) :
    Acc (fun l m => Descends l m ∧ l.length ≤ bound) l := by
  induction bound generalizing l with
  | zero =>
    refine ⟨l, fun m ⟨hd, hm⟩ => ?_⟩
    rw [List.length_eq_zero_iff.mp (Nat.le_zero.mp hm)] at hd
    exact hd.elim
  | succ bound ih =>
    cases l with
    | nil => exact ⟨[], fun m ⟨hd, _⟩ => by cases m <;> exact hd.elim⟩
    | cons a l =>
      induction a using Nat.strongRecOn generalizing l with
      | ind a outer =>
        induction ih l with
        | intro l _ inner =>
          refine ⟨a :: l, fun m ⟨hd, hm⟩ => ?_⟩
          cases m with
          | nil => exact hd.elim
          | cons b m =>
            rcases hd with hlt | ⟨rfl, hd⟩
            · exact outer b hlt m
            · exact inner m ⟨hd, Nat.le_of_succ_le_succ hm⟩

/-- One stack is ahead of another in reading. -/
def Ahead (s' s : Stack) : Prop := Descends s'.lengths s.lengths

/-- One stack is ahead of another and files are not nested deeper than they may be. -/
def Within (s' s : Stack) : Prop := Ahead s' s ∧ s'.length ≤ Nat.max maxDepth s.length

theorem length_lengths (s : Stack) : s.lengths.length = s.length := by simp [lengths]

/-- Reading with bounded nesting comes to an end. -/
theorem wellFounded_within : WellFounded Within := by
  refine ⟨fun s => ?_⟩
  suffices h : ∀ (bound : Nat) (l : List Nat),
      Acc (fun l m => Descends l m ∧ l.length ≤ bound) l →
      ∀ s : Stack, s.lengths = l → s.length ≤ bound → maxDepth ≤ bound → Acc Within s from
    h (Nat.max maxDepth s.length) _ (acc_descends _ _) s rfl (Nat.le_max_right ..)
      (Nat.le_max_left ..)
  intro bound l hl
  induction hl with
  | intro l _ ih =>
    rintro s rfl hs hb
    refine ⟨s, fun s' ⟨ha, hlen⟩ => ?_⟩
    have hs' : s'.length ≤ bound := Nat.le_trans hlen (Nat.max_le.mpr ⟨hb, hs⟩)
    exact ih s'.lengths ⟨ha, by rw [length_lengths]; exact hs'⟩ s' rfl hs' hb

instance : WellFoundedRelation Stack := ⟨Within, wellFounded_within⟩

/-- The innermost file has less unread text, and nothing else has changed. -/
def Nearer (s' s : Stack) : Prop :=
  ∃ r below t, s = r :: below ∧ s' = { r with unread := t } :: below ∧
    t.length < r.unread.length

/-- The innermost file has no more unread text than before, and nothing else has changed. -/
def Stays (s' s : Stack) : Prop :=
  s = [] ∧ s' = [] ∨ ∃ r below t, s = r :: below ∧ s' = { r with unread := t } :: below ∧
    t.length ≤ r.unread.length

theorem Nearer.ahead {s' s : Stack} (h : Nearer s' s) : Ahead s' s := by
  obtain ⟨r, below, t, rfl, rfl, ht⟩ := h
  simpa [Ahead, lengths] using descends_concat _ ht

theorem Nearer.length_eq {s' s : Stack} (h : Nearer s' s) : s'.length = s.length := by
  obtain ⟨r, below, t, rfl, rfl, -⟩ := h
  rfl

theorem Nearer.stays {s' s : Stack} (h : Nearer s' s) : Stays s' s := by
  obtain ⟨r, below, t, rfl, rfl, ht⟩ := h
  exact Or.inr ⟨r, below, t, rfl, rfl, Nat.le_of_lt ht⟩

theorem Stays.refl (s : Stack) : Stays s s := by
  cases s with
  | nil => exact Or.inl ⟨rfl, rfl⟩
  | cons r below => exact Or.inr ⟨r, below, r.unread, rfl, rfl, Nat.le_refl _⟩

theorem Stays.trans {s'' s' s : Stack} (h : Stays s'' s') (h' : Stays s' s) : Stays s'' s := by
  rcases h' with ⟨rfl, rfl⟩ | ⟨r, below, t, rfl, rfl, ht⟩
  · exact h
  · rcases h with ⟨h, -⟩ | ⟨r', below', t', he, rfl, ht'⟩
    · cases h
    · cases he
      exact Or.inr ⟨r, below, t', rfl, rfl, Nat.le_trans ht' ht⟩

theorem Nearer.of_stays {s'' s' s : Stack} (h : Stays s'' s') (h' : Nearer s' s) :
    Nearer s'' s := by
  obtain ⟨r, below, t, rfl, rfl, ht⟩ := h'
  rcases h with ⟨h, -⟩ | ⟨r', below', t', he, rfl, ht'⟩
  · cases h
  · cases he
    exact ⟨r, below, t', rfl, rfl, Nat.lt_of_le_of_lt ht' ht⟩

theorem stays_setUnread {t : Text} {s : Stack} (h : t.length ≤ s.unread.length) :
    Stays (s.setUnread t) s := by
  cases s with
  | nil => exact Or.inl ⟨rfl, rfl⟩
  | cons r below => exact Or.inr ⟨r, below, t, rfl, rfl, h⟩

theorem stays_skipSpaces (s : Stack) : Stays s.skipSpaces s :=
  stays_setUnread (List.dropWhile_sublist _).length_le

/-- Accepting a literal that is not empty brings the end nearer. -/
theorem nearer_of_accept? {literal : Text} {s s' : Stack} (hl : literal ≠ [])
    (h : s.accept? literal = some s') : Nearer s' s := by
  cases s with
  | nil => cases h
  | cons r below =>
    obtain ⟨t, ht, rfl⟩ := Option.map_eq_some_iff.mp h
    refine ⟨r, below, t, rfl, rfl, ?_⟩
    rw [Text.after?_eq_some_iff.mp ht, List.length_append]
    have := List.length_pos_iff.mpr hl
    omega

theorem nearer_skipPlainText {s : Stack} (h : s.unread ≠ []) : Nearer s.skipPlainText s := by
  cases s with
  | nil => exact absurd rfl h
  | cons r below =>
    cases hu : r.unread with
    | nil => exact absurd hu h
    | cons c rest =>
      refine ⟨r, below, rest.dropWhile (· ≠ '<'), rfl, by simp [skipPlainText, unread, hu,
        setUnread], ?_⟩
      have := (List.dropWhile_sublist (fun x : Char => decide (x ≠ '<')) (l := rest)).length_le
      rw [hu, List.length_cons]
      omega

theorem ahead_cons {s' s : Stack} (r : Reading) (h : Ahead s' s) : Ahead s' (r :: s) := by
  simpa [Ahead, lengths] using h.append [] [r.unread.length]

theorem Ahead.push {s' s : Stack} (h : Ahead s' s) (r : Reading) : Ahead (r :: s') s := by
  simpa [Ahead, lengths] using h.append [r.unread.length] []

private theorem length_after_lt {literal t before after : Text} (hl : literal ≠ [])
    (h : Text.splitFirst? literal t = some (before, after)) : after.length < t.length := by
  rw [Text.eq_append_of_splitFirst? h]
  have := List.length_pos_iff.mpr hl
  simp only [List.length_append]
  omega

/-- Finding a literal that is not empty is progress, and takes files off at most. -/
theorem ahead_of_findLiteral {crossing : Bool} {literal : Text} (hl : literal ≠ [])
    {s before after : Stack} (h : findLiteral crossing literal s = (some before, after)) :
    Ahead after s ∧ after.length ≤ s.length := by
  fun_induction findLiteral crossing literal s with
  | case1 => simp [hl] at h
  | case2 r found rest hf =>
    obtain ⟨-, rfl⟩ := Prod.mk.inj h
    exact ⟨Nearer.ahead ⟨r, [], rest, rfl, rfl, length_after_lt hl hf⟩, Nat.le_refl _⟩
  | case3 => simp at h
  | case4 r next below found rest hf =>
    obtain ⟨-, rfl⟩ := Prod.mk.inj h
    exact ⟨Nearer.ahead ⟨r, next :: below, rest, rfl, rfl, length_after_lt hl hf⟩, Nat.le_refl _⟩
  | case5 r next below hf hc ih =>
    obtain ⟨ha, hlen⟩ := ih h
    exact ⟨ahead_cons r ha, Nat.le_succ_of_le hlen⟩
  | case6 => simp at h

theorem ahead_of_skipUntil {crossing : Bool} {literal : Text} (hl : literal ≠ [])
    {s before after : Stack} (h : s.skipUntil crossing literal = (.ok before, after)) :
    Ahead after s ∧ after.length ≤ s.length := by
  unfold skipUntil at h
  split at h
  · rename_i b a hf
    cases h
    exact ahead_of_findLiteral hl hf
  · cases h

/-- Taking off files that are used up never delays the end. -/
theorem ahead_of_settle {s' s : Stack} (h : Ahead s' s.settle) : Ahead s' s := by
  fun_induction settle s with
  | case1 => exact h
  | case2 => exact h
  | case3 r next below _ ih => exact ahead_cons r (ih h)
  | case4 => exact h

theorem length_settle_le (s : Stack) : s.settle.length ≤ s.length := by
  fun_induction settle s with
  | case1 => exact Nat.le_refl _
  | case2 => exact Nat.le_refl _
  | case3 r next below _ ih => exact Nat.le_succ_of_le ih
  | case4 => exact Nat.le_refl _

end ServerPages.Stack
