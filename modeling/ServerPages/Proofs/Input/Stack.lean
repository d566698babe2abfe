import ServerPages.Input.Stack
import ServerPages.Proofs.Text.Search

/-!
# Operations on the stack of files

Settling takes off files that are used up and nothing else. A literal is found in the innermost file
that holds it, and the text between two places is put together file by file.
-/

namespace ServerPages

/-- The byte offset that has been reached is the size of what has been read. -/
theorem Reading.cursor_eq {r : Reading} {front : Text}
    (h : r.source.content = front ++ r.unread) : r.cursor = front.byteLength := by
  rw [Reading.cursor, h, Text.byteLength_append, Nat.add_sub_cancel]

namespace Stack

/-- Settling drops files that are used up. -/
theorem settle_eq (s : Stack) :
    ∃ dropped, s = dropped ++ s.settle ∧ ∀ r ∈ dropped, r.unread = [] := by
  fun_induction settle s with
  | case1 => exact ⟨[], rfl, by simp⟩
  | case2 r => exact ⟨[], rfl, by simp⟩
  | case3 r next below hr ih =>
    obtain ⟨dropped, he, hd⟩ := ih
    refine ⟨r :: dropped, by rw [List.cons_append, ← he], ?_⟩
    simpa using ⟨hr, hd⟩
  | case4 r next below => exact ⟨[], rfl, by simp⟩

/-- When nothing is left to read after settling, every file is used up. -/
theorem unread_eq_nil_of_settle {s : Stack} (h : s.settle.unread = []) :
    ∀ r ∈ s, r.unread = [] := by
  fun_induction settle s with
  | case1 => simp
  | case2 r => exact List.forall_mem_singleton.mpr h
  | case3 r next below hr ih => exact List.forall_mem_cons.mpr ⟨hr, ih h⟩
  | case4 r next below hr => exact absurd h hr

/-- The root template is never left. -/
theorem settle_ne_nil {s : Stack} (h : s ≠ []) : s.settle ≠ [] := by
  fun_induction settle s with
  | case1 => exact h
  | case2 r => exact h
  | case3 r next below hr ih => exact ih (List.cons_ne_nil next below)
  | case4 r next below => exact h

/-- Files that are used up are left all at once. -/
theorem settle_settle (s : Stack) : s.settle.settle = s.settle := by
  fun_induction settle s with
  | case1 => rfl
  | case2 r => rfl
  | case3 r next below hr ih => exact ih
  | case4 r next below hr => rw [settle, if_neg hr]

/-- When all is read, only the root template is left. -/
theorem exists_settle_eq {s : Stack} (hne : s ≠ []) (h : s.settle.unread = []) :
    ∃ r, s.settle = [r] ∧ r.unread = [] := by
  fun_induction settle s with
  | case1 => exact absurd rfl hne
  | case2 r => exact ⟨r, rfl, h⟩
  | case3 r next below hr ih => exact ih (List.cons_ne_nil next below) h
  | case4 r next below hr => exact absurd h hr

/-- The numbers of the files on a stack. -/
def ids (s : Stack) : List Nat := s.map (·.source.id)

/-- Settling leaves a stack, or takes off the innermost file for good. -/
theorem settle_cases {s : Stack} (h : s.ids.Nodup) :
    s.settle = s ∨ ∀ n, s.sourceId? = some n → n ∉ s.settle.ids := by
  obtain ⟨dropped, hs, -⟩ := settle_eq s
  cases dropped with
  | nil => exact .inl hs.symm
  | cons r dropped =>
    right
    intro n hn hmem
    rw [hs] at hn h
    obtain rfl := Option.some.inj hn
    rw [ids, List.cons_append, List.map_cons, List.map_append] at h
    exact (List.nodup_cons.mp h).1 (List.mem_append_right _ hmem)

/-- Dropping a file changes the number of the innermost one. -/
theorem settle_eq_self {s : Stack} (hne : s ≠ []) (h : s.ids.Nodup)
    (hid : s.settle.sourceId? = s.sourceId?) : s.settle = s := by
  obtain ⟨r, below, hsettle⟩ := List.exists_cons_of_ne_nil (settle_ne_nil hne)
  rcases settle_cases h with hsame | hgone
  · exact hsame
  · rw [hsettle] at hid hgone
    exact absurd List.mem_cons_self (hgone r.source.id hid.symm)

/-- The text between two places, with the text of each file by itself. -/
def parts (start stop : Stack) : List Text :=
  let shared := Nat.min start.length stop.length
  let popped := start.take (start.length - shared)
  match start.drop (start.length - shared), stop.drop (stop.length - shared) with
  | r :: _, last :: _ => popped.map Reading.unread ++ [r.textUpTo last.cursor]
  | _, _ => []

/-- The text between two places is put together file by file. -/
theorem textTo_eq_flatten (start stop : Stack) :
    start.textTo stop = (start.parts stop).flatten := by
  simp only [textTo, parts]
  generalize start.drop _ = mine, stop.drop _ = theirs
  cases mine with
  | nil => rfl
  | cons r rest =>
    cases theirs with
    | nil => rfl
    | cons last others =>
      simp only [List.flatten_append, List.flatten_singleton, List.flatMap_def]

/-- Two places of one file have one part between them, which is what has been read. -/
theorem parts_cons {r : Reading} {t u : Text} (h : t ++ u <:+ r.source.content) (below : Stack) :
    parts ({ r with unread := t ++ u } :: below) ({ r with unread := u } :: below) = [t] := by
  obtain ⟨front, hf⟩ := h
  have hstart : Reading.cursor { r with unread := t ++ u } = Text.byteLength front :=
    Reading.cursor_eq hf.symm
  have hstop : Reading.cursor { r with unread := u } = Text.byteLength (front ++ t) :=
    Reading.cursor_eq (by rw [List.append_assoc]; exact hf.symm)
  have hcut : Reading.textUpTo { r with unread := t ++ u } (Text.byteLength (front ++ t)) = t := by
    rw [Reading.textUpTo, hstart, Text.byteLength_append, if_pos (Nat.le_add_right ..),
      Nat.add_sub_cancel_left, Text.takeBytes?_append, Option.getD_some]
  simpa [parts, hstop] using hcut

/-- The first part up to a place below the innermost file is all that is left of that file. -/
theorem parts_cons_of_length_le {r : Reading} {s stop : Stack} (hne : stop ≠ [])
    (hle : stop.length ≤ s.length) : parts (r :: s) stop = r.unread :: parts s stop := by
  have hmin : Nat.min (r :: s).length stop.length = stop.length :=
    Nat.min_eq_right (Nat.le_succ_of_le hle)
  have hmin' : Nat.min s.length stop.length = stop.length := Nat.min_eq_right hle
  have hsucc : (r :: s).length - stop.length = (s.length - stop.length) + 1 := by
    rw [List.length_cons]
    omega
  obtain ⟨last, others, rfl⟩ := List.exists_cons_of_ne_nil hne
  have hdrop : s.drop (s.length - (last :: others).length) ≠ [] := by
    intro hnil
    have hlength := List.drop_eq_nil_iff.mp hnil
    simp only [List.length_cons] at hlength hle
    omega
  obtain ⟨shared, rest, hshared⟩ := List.exists_cons_of_ne_nil hdrop
  simp only [parts, hmin, hmin', hsucc, List.take_succ_cons, List.drop_succ_cons, hshared,
    Nat.sub_self, List.drop_zero, List.map_cons, List.cons_append]

/-- The text between two places of one file is what has been read between them. -/
theorem textTo_cons {r : Reading} {t u : Text} (h : t ++ u <:+ r.source.content) (below : Stack) :
    textTo ({ r with unread := t ++ u } :: below) ({ r with unread := u } :: below) = t := by
  rw [textTo_eq_flatten, parts_cons h, List.flatten_singleton]

/-- The text up to a place below the innermost file begins with all that is left of that file. -/
theorem textTo_cons_of_length_le {r : Reading} {s stop : Stack} (hne : stop ≠ [])
    (hle : stop.length ≤ s.length) : textTo (r :: s) stop = r.unread ++ textTo s stop := by
  rw [textTo_eq_flatten, parts_cons_of_length_le hne hle, List.flatten_cons, textTo_eq_flatten]

/-- Without crossing, or in the root template alone, a literal is searched in one file. -/
theorem findLiteral_cons {crossing : Bool} {below : Stack} (hx : crossing = false ∨ below = [])
    (literal : Text) (r : Reading) :
    findLiteral crossing literal (r :: below) =
      match Text.splitFirst? literal r.unread with
      | some (_, after) =>
        (some ({ r with unread := literal ++ after } :: below), { r with unread := after } :: below)
      | none => (none, { r with unread := [] } :: below) := by
  cases below with
  | nil => rfl
  | cons next below =>
    rw [findLiteral]
    cases Text.splitFirst? literal r.unread with
    | some found => rfl
    | none => simp [hx.resolve_right (List.cons_ne_nil next below)]

/-- A literal that the innermost file holds is found there. -/
theorem findLiteral_of_eq_some {literal front rest : Text} {r : Reading}
    (h : Text.splitFirst? literal r.unread = some (front, rest)) (crossing : Bool) (below : Stack) :
    findLiteral crossing literal (r :: below) =
      (some ({ r with unread := literal ++ rest } :: below),
        { r with unread := rest } :: below) := by
  cases below with
  | nil => simp only [findLiteral, h]
  | cons next below => simp only [findLiteral, h]

/-- A literal that an included file does not hold is searched below if elements may cross. -/
theorem findLiteral_of_eq_none {crossing : Bool} {literal : Text} {r next : Reading}
    {below : Stack} (h : Text.splitFirst? literal r.unread = none) :
    findLiteral crossing literal (r :: next :: below) =
      if crossing then findLiteral crossing literal (next :: below)
      else (none, { r with unread := [] } :: next :: below) := by
  simp only [findLiteral, h]

/-- Skipping to a literal succeeds if and only if the literal is found. -/
theorem skipUntil_eq_ok_iff {crossing : Bool} {literal : Text} {s before after : Stack} :
    s.skipUntil crossing literal = (.ok before, after) ↔
      findLiteral crossing literal s = (some before, after) := by
  unfold skipUntil
  split
  · rename_i hf
    simp [hf]
  · rename_i hf
    simp [hf]

end Stack

end ServerPages
