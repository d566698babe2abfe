import ServerPages.Proofs.Input.Session

/-!
# Conservation of input

No text is lost or read twice. Whatever operations consume input, the text between the places before
and after them, followed by all that is left then, is all that was left before. So the text along a
run can be put together from the texts of its stages, even where it runs through several files.
-/

namespace ServerPages

namespace Stack

/-- All that is left to read, from the innermost file to the root template. -/
def remaining (s : Stack) : Text := s.flatMap Reading.unread

variable {files : List Source} {s s' s'' : Stack}

/-- Reading on splits what was left into what has been read and what is left. -/
theorem Reaches.textTo_append_remaining (h : s.Reaches s') (hs : s.RecordedIn files) :
    s.textTo s' ++ s'.remaining = s.remaining := by
  induction h with
  | nowhere => rfl
  | @within r t below hread =>
    obtain ⟨front, hfront⟩ := hread
    obtain ⟨-, hsuffix⟩ := hs r List.mem_cons_self
    have htext : textTo (r :: below) ({ r with unread := t } :: below) = front := by
      have h := textTo_cons (hfront ▸ hsuffix : front ++ t <:+ r.source.content) below
      rwa [hfront] at h
    rw [htext, remaining, remaining, List.flatMap_cons, List.flatMap_cons, ← hfront,
      List.append_assoc]
  | @leave q r below s' hbelow ih =>
    have hne := hbelow.ne_nil (List.cons_ne_nil r below)
    have hrest := ih hs.below
    rw [textTo_cons_of_length_le hne hbelow.length_le, List.append_assoc, hrest]
    rfl

/-- The text of a run is the text of its first stage and that of the second one. -/
theorem Reaches.textTo_append_textTo (h : s.Reaches s') (h' : s'.Reaches s'')
    (hs : s.RecordedIn files) : s.textTo s'' = s.textTo s' ++ s'.textTo s'' := by
  apply List.append_cancel_right
  calc s.textTo s'' ++ s''.remaining
    _ = s.remaining := (h.trans h').textTo_append_remaining hs
    _ = s.textTo s' ++ s'.remaining := (h.textTo_append_remaining hs).symm
    _ = s.textTo s' ++ s'.textTo s'' ++ s''.remaining := by
      rw [List.append_assoc, h'.textTo_append_remaining (hs.reaches h)]

/-- A literal is found at its first occurrence in the first file that holds it. -/
theorem findLiteral_some {crossing : Bool} {literal : Text} {before after : Stack}
    (hs : s.RecordedIn files) (hl : literal ≠ [])
    (h : findLiteral crossing literal s = (some before, after)) :
    before.textTo after = literal ∧ ∀ part ∈ s.parts before, ¬ literal <:+: part := by
  have hfound : ∀ {r : Reading} {front rest : Text} (below : Stack),
      r.unread <:+ r.source.content → Text.splitFirst? literal r.unread = some (front, rest) →
      textTo ({ r with unread := literal ++ rest } :: below) ({ r with unread := rest } :: below) =
          literal ∧
        ∀ part ∈ parts (r :: below) ({ r with unread := literal ++ rest } :: below),
          ¬ literal <:+: part := by
    intro r front rest below hsuffix hsplit
    have hread : r.unread = front ++ (literal ++ rest) := by
      rw [Text.eq_append_of_splitFirst? hsplit, List.append_assoc]
    rw [hread] at hsuffix
    have hparts : parts (r :: below) ({ r with unread := literal ++ rest } :: below) = [front] := by
      have h := parts_cons hsuffix below
      rwa [← hread] at h
    refine ⟨textTo_cons ((List.suffix_append front _).trans hsuffix) below, ?_⟩
    rw [hparts, List.forall_mem_singleton]
    exact Text.not_infix_of_splitFirst?_eq_some hl hsplit
  fun_induction findLiteral crossing literal s with
  | case1 =>
    rw [if_neg hl] at h
    cases h
  | case2 r front rest hsplit =>
    cases h
    exact hfound [] (hs r List.mem_cons_self).2 hsplit
  | case3 => cases h
  | case4 r next below front rest hsplit =>
    cases h
    exact hfound (next :: below) (hs r List.mem_cons_self).2 hsplit
  | case5 r next below hsplit _ ih =>
    obtain ⟨hliteral, hparts⟩ := ih hs.below h
    have hbefore := (reaches_findLiteral_some h).1
    refine ⟨hliteral, ?_⟩
    rw [parts_cons_of_length_le (hbefore.ne_nil (List.cons_ne_nil next below)) hbefore.length_le,
      List.forall_mem_cons]
    exact ⟨Text.not_infix_of_splitFirst?_eq_none hsplit, hparts⟩
  | case6 => cases h

end Stack

namespace Session

/-- Operations that consume input read on. -/
theorem reaches_run_moves (crossing : Bool) (actions : List Action) (moves : List Stack.Move) :
    (run crossing actions).input.stack.Reaches
      (run crossing (actions ++ moves.map .move)).input.stack := by
  rw [run_append]
  generalize run crossing actions = s
  induction moves generalizing s with
  | nil => exact .refl _
  | cons m moves ih =>
    exact (m.reaches_apply s.input.crossing s.input.stack).trans (ih (s.perform (.move m)))

/-- Wherever a session has arrived, operations that consume input conserve it, also where they fail,
and so the text of a run is put together from the texts of its stages. A literal that is searched
is found where it occurs first in a file. -/
theorem input_conserved (crossing : Bool) (actions : List Action) (moves more : List Stack.Move) :
    let before := (run crossing actions).input.stack
    let after := (run crossing (actions ++ moves.map .move)).input.stack
    let last := (run crossing (actions ++ (moves ++ more).map .move)).input.stack
    before.textTo after ++ after.remaining = before.remaining ∧
      before.textTo last = before.textTo after ++ after.textTo last ∧
      ∀ literal found rest, literal ≠ [] → before.skipUntil crossing literal = (.ok found, rest) →
        found.textTo rest = literal ∧ before.textTo found = (before.parts found).flatten ∧
          ∀ part ∈ before.parts found, ¬ literal <:+: part := by
  intro before after last
  have hrecorded : before.RecordedIn (run crossing actions).input.opened :=
    ((Sound.run crossing actions).places before List.mem_cons_self).recorded
  have hafter : before.Reaches after := reaches_run_moves crossing actions moves
  have hlast : after.Reaches last := by
    have h := reaches_run_moves crossing (actions ++ moves.map .move) more
    rwa [List.append_assoc, ← List.map_append] at h
  refine ⟨hafter.textTo_append_remaining hrecorded, hafter.textTo_append_textTo hlast hrecorded, ?_⟩
  intro literal found rest hl hskip
  obtain ⟨hliteral, hparts⟩ :=
    Stack.findLiteral_some hrecorded hl (Stack.skipUntil_eq_ok_iff.mp hskip)
  exact ⟨hliteral, Stack.textTo_eq_flatten before found, hparts⟩

/-- The end of an included file and the beginning of the including one look like the literal, which
is found behind them. -/
theorem input_conserved_through_files :
    let actions := [.openText "page" ">a%>b" [], .openText "part" "é%" []]
    let before := (run true actions).input.stack
    let found := (run true (actions ++ [.move (.advance 4)])).input.stack
    let after := (run true (actions ++ [.move (.skipUntil "%>")])).input.stack
    before.remaining = "é%>a%>b" ∧ before.skipUntil true "%>" = (.ok found, after) ∧
      before.textTo after ++ after.remaining = before.remaining ∧ found.textTo after = "%>" ∧
      before.parts found = ["é%".toList, ">a".toList] ∧
      ∀ part ∈ before.parts found, ¬ "%>".toList <:+: part := by
  intro actions before found after
  obtain ⟨hconserved, -, hliteral⟩ := input_conserved true actions [.skipUntil "%>"] []
  have hskip : before.skipUntil true "%>" = (.ok found, after) :=
    Stack.skipUntil_eq_ok_iff.mpr (by decide +kernel)
  obtain ⟨htext, -, hnone⟩ := hliteral "%>" found after (by decide) hskip
  exact ⟨by decide +kernel, hskip, hconserved, htext, by decide +kernel, hnone⟩

end Session

end ServerPages
