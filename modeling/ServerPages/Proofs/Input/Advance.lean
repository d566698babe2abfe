import Mathlib.Data.Nat.PSub
import ServerPages.Input.Progress
import ServerPages.Proofs.Input.Conservation

/-!
# Reading many characters at once

Reading a number of characters at once leads to the same place as reading them one by one, although
files are taken off at different moments: one by one, a file that is used up is taken off before the
next character is read; at once, it is taken off only if further characters are wanted. Both stop at
the end of an included file when no more is wanted there.
-/

namespace ServerPages.Stack

/-- Read characters one by one: what is read each time, and the stack behind all of it. -/
def nexts : Nat → Stack → List (Option Char) × Stack
  | 0, s => ([], s)
  | n + 1, s => (s.next?.2.nexts n).map (s.next?.1 :: ·) id

/-- Behind all text only the root template is left. -/
def exhausted (s : Stack) : Stack :=
  s.getLast?.toList.map fun root => { root with unread := [] }

theorem remaining_nil : remaining [] = [] := rfl

theorem remaining_cons (r : Reading) (below : Stack) :
    remaining (r :: below) = r.unread ++ below.remaining := rfl

/-- The next character is the first one that is left of the innermost file. -/
theorem next?_cons {r : Reading} {c : Char} {rest : Text} (h : r.unread = c :: rest)
    (below : Stack) : next? (r :: below) = (some c, { r with unread := rest } :: below) := by
  have hsettle : settle (r :: below) = r :: below := by
    cases below with
    | nil => rfl
    | cons next below => rw [settle, if_neg (by simp [h])]
  simp only [next?, hsettle, h]

/-- A file that is used up is taken off before a character is read. -/
theorem next?_of_unread_nil {r : Reading} (h : r.unread = []) (next : Reading) (below : Stack) :
    next? (r :: next :: below) = next? (next :: below) := by
  simp only [next?, settle, if_pos h]

/-- Characters may be read in two rounds. -/
theorem nexts_add (m n : Nat) (s : Stack) :
    s.nexts (m + n) = ((s.nexts m).2.nexts n).map ((s.nexts m).1 ++ ·) id := by
  induction m generalizing s with
  | zero =>
    rw [Nat.zero_add]
    rfl
  | succ m ih =>
    rw [Nat.succ_add, nexts, ih, nexts]
    rfl

/-- Characters of the innermost file are read from its unread text. -/
theorem nexts_within {n : Nat} {r : Reading} (h : n ≤ r.unread.length) (below : Stack) :
    nexts n (r :: below) =
      ((r.unread.take n).map some, { r with unread := r.unread.drop n } :: below) := by
  induction n generalizing r with
  | zero => rfl
  | succ n ih =>
    cases hr : r.unread with
    | nil =>
      rw [hr] at h
      exact absurd h (Nat.not_succ_le_zero n)
    | cons c rest =>
      rw [hr] at h
      rw [nexts, next?_cons hr, ih (Nat.le_of_succ_le_succ h)]
      rfl

/-- Characters that the innermost file does not have are read below it. -/
theorem nexts_beyond {n : Nat} {r : Reading} (h : r.unread.length < n) (next : Reading)
    (below : Stack) :
    nexts n (r :: next :: below) =
      (nexts (n - r.unread.length) (next :: below)).map (r.unread.map some ++ ·) id := by
  obtain ⟨k, rfl⟩ := Nat.exists_eq_add_of_lt h
  have hdiff : r.unread.length + k + 1 - r.unread.length = k + 1 := by omega
  have hnext := next?_of_unread_nil (r := { r with unread := r.unread.drop r.unread.length })
    List.drop_length next below
  rw [hdiff, Nat.add_assoc, nexts_add, nexts_within (Nat.le_refl _), List.take_length]
  simp only [nexts, hnext]

/-- As long as text is left, reading at once is reading one by one. -/
theorem advance_of_le {n : Nat} {s : Stack} (h : n ≤ s.remaining.length) :
    s.advance n = (.ok (), (s.nexts n).2) ∧ (s.nexts n).1 = (s.remaining.take n).map some := by
  fun_induction advance n s with
  | case1 n =>
    obtain rfl : n = 0 := Nat.le_zero.mp h
    exact ⟨rfl, rfl⟩
  | case2 n r hn =>
    rw [nexts_within hn]
    exact ⟨rfl, by rw [remaining_cons, remaining_nil, List.append_nil]⟩
  | case3 n r hn =>
    rw [remaining_cons, remaining_nil, List.append_nil] at h
    exact absurd h hn
  | case4 n r next below hn =>
    rw [nexts_within hn]
    refine ⟨rfl, ?_⟩
    rw [remaining_cons, List.take_append_of_le_length hn]
  | case5 n r next below hn ih =>
    rw [remaining_cons, List.length_append] at h
    obtain ⟨hstack, hread⟩ := ih (Nat.sub_le_iff_le_add'.mpr h)
    have htake : (remaining (r :: next :: below)).take n =
        r.unread ++ (remaining (next :: below)).take (n - r.unread.length) := by
      rw [remaining_cons, List.take_append, List.take_of_length_le (Nat.le_of_not_le hn)]
    rw [nexts_beyond (Nat.lt_of_not_le hn), htake, List.map_append, ← hread]
    exact ⟨hstack, rfl⟩

/-- With too little text left, reading at once fails behind all of it. -/
theorem advance_of_lt {n : Nat} {s : Stack} (h : s.remaining.length < n) :
    s.advance n = (.error (s.exhausted.failure .endOfInput), s.exhausted) := by
  fun_induction advance n s with
  | case1 n =>
    have hn : n ≠ 0 := Nat.ne_of_gt h
    rw [if_neg hn]
    rfl
  | case2 n r hn =>
    rw [remaining_cons, remaining_nil, List.append_nil] at h
    exact absurd hn (Nat.not_le_of_lt h)
  | case3 n r hn => rfl
  | case4 n r next below hn =>
    rw [remaining_cons, List.length_append] at h
    omega
  | case5 n r next below hn ih =>
    rw [remaining_cons, List.length_append] at h
    have hlast : exhausted (r :: next :: below) = exhausted (next :: below) := by
      rw [exhausted, exhausted, List.getLast?_cons_cons]
    rw [hlast]
    exact ih (by omega)

/-- Text that is left below the innermost file lies in fewer files. -/
theorem length_settle_setUnread_lt {s : Stack} (h : (s.setUnread []).settle.unread ≠ []) :
    (s.setUnread []).settle.length < s.length := by
  match s with
  | [] => exact absurd rfl h
  | [r] => exact absurd rfl h
  | r :: next :: below => exact Nat.lt_succ_of_le (length_settle_le (next :: below))

/-- Reading at once goes in rounds, one for each file. A round takes what is wanted, or all that the
innermost file has, and counts that off from what is wanted; files that are used up are taken off
before the next round. Without a result, more would have been counted off than was wanted. -/
def advanceInRounds (wanted : Nat) (s : Stack) : Option (Except Failure Unit × Stack) :=
  if wanted < s.unread.length then some (.ok (), s.setUnread (s.unread.drop wanted))
  else
    match wanted.psub s.unread.length with
    | none => none
    | some 0 => some (.ok (), s.setUnread [])
    | some (more + 1) =>
      if _h : (s.setUnread []).settle.unread = [] then
        some (.error ((s.setUnread []).settle.failure .endOfInput), (s.setUnread []).settle)
      else advanceInRounds (more + 1) (s.setUnread []).settle
termination_by s.length
decreasing_by exact length_settle_setUnread_lt _h

/-- Going on inside of the innermost file only shortens what is left of it. -/
theorem advance_of_le_unread {n : Nat} {s : Stack} (h : n ≤ s.unread.length) :
    s.advance n = (.ok (), s.setUnread (s.unread.drop n)) := by
  match s with
  | [] =>
    obtain rfl : n = 0 := Nat.le_zero.mp h
    rfl
  | [r] => exact if_pos h
  | r :: next :: below => exact if_pos h

/-- All text of the innermost file may be taken first. -/
theorem advance_of_unread_lt {n : Nat} {s : Stack} (h : s.unread.length < n) :
    s.advance n = (s.setUnread []).advance (n - s.unread.length) := by
  have hn : ¬ n ≤ s.unread.length := Nat.not_le_of_lt h
  have hmore : ¬ n - s.unread.length ≤ 0 := by omega
  match s with
  | [] => rfl
  | [r] => exact (if_neg hn).trans (if_neg hmore).symm
  | r :: next :: below => exact (if_neg hn).trans (if_neg hmore).symm

/-- Files that are used up may be taken off first if any text is wanted. -/
theorem advance_settle (n : Nat) (s : Stack) : s.settle.advance (n + 1) = s.advance (n + 1) := by
  fun_induction settle s with
  | case1 => rfl
  | case2 r => rfl
  | case3 r next below hr ih =>
    have hn : ¬ n + 1 ≤ r.unread.length := by simp [hr]
    rw [ih, advance.eq_3, if_neg hn, hr]
    rfl
  | case4 r next below hr => rfl

/-- Where all text has been read, no more can be read. -/
theorem advance_of_settle {s : Stack} (h : s.settle.unread = []) (n : Nat) :
    s.settle.advance (n + 1) = (.error (s.settle.failure .endOfInput), s.settle) := by
  by_cases hs : s = []
  · subst hs
    rfl
  · obtain ⟨r, hr, hread⟩ := exists_settle_eq hs h
    have hroot : { r with unread := [] } = r := by rw [← hread]
    have hn : ¬ n + 1 ≤ r.unread.length := by simp [hread]
    rw [hr, advance, if_neg hn, hroot]

/-- The rounds never count off more than is wanted, and together they read at once. -/
theorem advanceInRounds_eq (wanted : Nat) (s : Stack) :
    s.advanceInRounds wanted = some (s.advance wanted) := by
  fun_induction advanceInRounds wanted s with
  | case1 wanted s h => rw [advance_of_le_unread (Nat.le_of_lt h)]
  | case2 wanted s h hsub =>
    rw [Nat.psub_eq_none] at hsub
    exact absurd hsub h
  | case3 wanted s h hsub =>
    have hwanted : 0 + s.unread.length = wanted := Nat.psub_eq_some.mp hsub
    rw [Nat.zero_add] at hwanted
    rw [advance_of_le_unread (Nat.le_of_eq hwanted.symm), ← hwanted, List.drop_length]
  | case4 wanted s h more hsub hsettle =>
    have hwanted : more + 1 + s.unread.length = wanted := Nat.psub_eq_some.mp hsub
    have hlt : s.unread.length < wanted := by omega
    have hmore : wanted - s.unread.length = more + 1 := by omega
    rw [advance_of_unread_lt hlt, hmore, ← advance_settle]
    rw [advance_of_settle hsettle]
  | case5 wanted s h more hsub hsettle ih =>
    have hwanted : more + 1 + s.unread.length = wanted := Nat.psub_eq_some.mp hsub
    have hlt : s.unread.length < wanted := by omega
    have hmore : wanted - s.unread.length = more + 1 := by omega
    rw [ih, advance_settle, advance_of_unread_lt hlt, hmore]

/-- Reading a number of characters at once succeeds just if so many are left in all files together,
and is reading them one by one then, each of which gives a character. Otherwise it fails at the end
of the input, where only the root template is left. It never counts off more than is wanted. -/
theorem advance_eq_nexts (s : Stack) (n : Nat) :
    ((s.advance n).1 = .ok () ↔ n ≤ s.remaining.length) ∧
      (n ≤ s.remaining.length → (s.advance n).2 = (s.nexts n).2 ∧
        (s.nexts n).1 = (s.remaining.take n).map some ∧ (s.nexts n).1.length = n) ∧
      (s.remaining.length < n → ∃ last,
        s.advance n = (.error (last.failure .endOfInput), last) ∧
          (s = [] ∧ last = [] ∨ ∃ root, s.getLast? = some root ∧
            last = [{ root with unread := [] }] ∧
            last.cursor = root.source.content.byteLength)) ∧
      s.advanceInRounds n = some (s.advance n) := by
  refine ⟨⟨fun hok => ?_, fun hle => ?_⟩, fun hle => ?_, fun hlt => ?_, advanceInRounds_eq n s⟩
  · apply Nat.le_of_not_lt
    intro hlt
    rw [advance_of_lt hlt] at hok
    cases hok
  · rw [(advance_of_le hle).1]
  · obtain ⟨hstack, hread⟩ := advance_of_le hle
    refine ⟨by rw [hstack], hread, ?_⟩
    rw [hread, List.length_map, List.length_take_of_le hle]
  · refine ⟨s.exhausted, advance_of_lt hlt, ?_⟩
    cases hlast : s.getLast? with
    | none =>
      left
      exact ⟨List.getLast?_eq_none_iff.mp hlast, by rw [exhausted, hlast]; rfl⟩
    | some root =>
      right
      have hroot : s.exhausted = [{ root with unread := [] }] := by rw [exhausted, hlast]; rfl
      refine ⟨root, rfl, hroot, ?_⟩
      rw [hroot]
      exact Nat.sub_zero _

/-- One character ends just at the end of an included file, which stays. Two go on below it, and
four are too many. -/
theorem advance_eq_nexts_at_file_end :
    let s := (Session.run false [.openText "page" "ab" [], .openText "part" "é" []]).input.stack
    s.remaining = "éab" ∧
      ((s.advance 1).2 = (s.nexts 1).2 ∧ (s.advance 1).2.map Reading.unread = [[], ['a', 'b']]) ∧
      ((s.advance 2).2 = (s.nexts 2).2 ∧ (s.advance 2).2.map Reading.unread = [['b']]) ∧
      s.advanceInRounds 2 = some (s.advance 2) ∧
      ∃ last, s.advance 4 = (.error (last.failure .endOfInput), last) ∧
        ∃ root, s.getLast? = some root ∧ last = [{ root with unread := [] }] ∧ last.cursor = 2 := by
  intro s
  obtain ⟨-, hone, -, -⟩ := advance_eq_nexts s 1
  obtain ⟨-, htwo, -, hrounds⟩ := advance_eq_nexts s 2
  obtain ⟨-, -, hfour, -⟩ := advance_eq_nexts s 4
  refine ⟨by decide +kernel, ⟨(hone (by decide +kernel)).1, by decide +kernel⟩,
    ⟨(htwo (by decide +kernel)).1, by decide +kernel⟩, hrounds, ?_⟩
  obtain ⟨last, hfails, hcases⟩ := hfour (by decide +kernel)
  refine ⟨last, hfails, ?_⟩
  rcases hcases with ⟨hnil, -⟩ | ⟨root, hroot, hlast, hcursor⟩
  · exact absurd hnil (by decide +kernel)
  · refine ⟨root, hroot, hlast, hcursor.trans ?_⟩
    have hpage : s.getLast?.map (·.source.content.byteLength) = some 2 := by decide +kernel
    rw [hroot] at hpage
    exact Option.some.inj hpage

end ServerPages.Stack
