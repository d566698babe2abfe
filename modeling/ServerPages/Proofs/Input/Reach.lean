import ServerPages.Markup.Recognition
import ServerPages.Proofs.Input.Stack
import ServerPages.Proofs.Markup.AttributeList

/-!
# Reading on

Every operation that consumes input does the same kind of thing to the stack of files, whether it
succeeds or fails: it takes files off the top, never the root template, and leaves an end of the
unread text in the file that is innermost then. One stack reaches another if this leads from the
first to the second.
-/

namespace ServerPages

namespace Stack

/-- Reading on leads from one stack to another. -/
inductive Reaches : Stack → Stack → Prop
  /-- Where no file is being read, there is nothing to read. -/
  | nowhere : Reaches [] []
  /-- Some text of the innermost file is read. -/
  | within {r : Reading} {t : Text} (below : Stack) (h : t <:+ r.unread) :
      Reaches (r :: below) ({ r with unread := t } :: below)
  /-- The innermost file is taken off, and reading goes on below it. -/
  | leave (q : Reading) {r : Reading} {below s' : Stack} (h : Reaches (r :: below) s') :
      Reaches (q :: r :: below) s'

variable {s s' s'' : Stack}

namespace Reaches

/-- Every place is within its own reach. -/
theorem refl (s : Stack) : s.Reaches s := by
  cases s with
  | nil => exact .nowhere
  | cons r below => exact .within below List.suffix_rfl

/-- What can be reached in two moves can be reached. -/
theorem trans (h : s.Reaches s') (h' : s'.Reaches s'') : s.Reaches s'' := by
  induction h with
  | nowhere => exact h'
  | within below hread =>
    cases h' with
    | within _ hmore => exact .within below (hmore.trans hread)
    | leave _ hbelow => exact .leave _ hbelow
  | leave q _ ih => exact .leave q (ih h')

/-- Files are only taken off. -/
theorem sources_suffix (h : s.Reaches s') :
    s'.map Reading.source <:+ s.map Reading.source := by
  induction h with
  | nowhere => exact List.suffix_rfl
  | within below hread => exact List.suffix_rfl
  | leave q _ ih => exact ih.trans (List.suffix_cons _ _)

theorem length_le (h : s.Reaches s') : s'.length ≤ s.length := by
  simpa using h.sources_suffix.length_le

/-- The root template is never taken off. -/
theorem ne_nil (h : s.Reaches s') (hs : s ≠ []) : s' ≠ [] := by
  induction h with
  | nowhere => exact hs
  | within below hread => exact List.cons_ne_nil _ _
  | leave q _ ih => exact ih (List.cons_ne_nil _ _)

/-- What is left of a file was left of it before. -/
theorem exists_mem (h : s.Reaches s') :
    ∀ r' ∈ s', ∃ r ∈ s, r'.source = r.source ∧ r'.unread <:+ r.unread := by
  induction h with
  | nowhere => exact fun r' hr' => absurd hr' List.not_mem_nil
  | @within r t below hread =>
    intro r' hr'
    rcases List.mem_cons.mp hr' with rfl | hbelow
    · exact ⟨r, List.mem_cons_self, rfl, hread⟩
    · exact ⟨r', List.mem_cons_of_mem r hbelow, rfl, List.suffix_rfl⟩
  | leave q _ ih =>
    intro r' hr'
    obtain ⟨r, hr, hsame⟩ := ih r' hr'
    exact ⟨r, List.mem_cons_of_mem q hr, hsame⟩

end Reaches

/-- Reading on in the innermost file is a move. -/
theorem reaches_setUnread {t : Text} (h : t <:+ s.unread) : s.Reaches (s.setUnread t) := by
  cases s with
  | nil => exact .nowhere
  | cons r below => exact .within below h

/-- Leaving a file is a move. -/
theorem reaches_pop? (h : s.pop? = some s') : s.Reaches s' := by
  unfold pop? at h
  split at h
  · obtain rfl := Option.some.inj h
    exact .leave _ (.refl _)
  · cases h

/-- Leaving the files that are used up is a move. -/
theorem reaches_settle (s : Stack) : s.Reaches s.settle := by
  fun_induction settle s with
  | case1 => exact .nowhere
  | case2 r => exact .refl _
  | case3 r next below _ ih => exact .leave r ih
  | case4 r next below _ => exact .refl _

/-- Reading a character is a move. -/
theorem reaches_next? (s : Stack) : s.Reaches s.next?.2 := by
  apply (reaches_settle s).trans
  unfold next?
  split
  · rename_i hs
    rw [hs]
    exact .nowhere
  · rename_i r below hs
    rw [hs]
    split
    · exact .refl _
    · rename_i c rest hr
      apply Reaches.within
      rw [hr]
      exact List.suffix_cons c rest

/-- Reading some characters is a move. -/
theorem reaches_advance (count : Nat) (s : Stack) : s.Reaches (s.advance count).2 := by
  fun_induction advance count s with
  | case1 => exact .nowhere
  | case2 count r _ => exact .within [] (List.drop_suffix count r.unread)
  | case3 count r _ => exact .within [] List.nil_suffix
  | case4 count r next below _ => exact .within _ (List.drop_suffix count r.unread)
  | case5 count r next below _ ih => exact .leave r ih

/-- Skipping spaces is a move. -/
theorem reaches_skipSpaces (s : Stack) : s.Reaches s.skipSpaces :=
  reaches_setUnread (AttributeList.suffix_skipSpaces s.unread)

/-- Skipping plain text is a move. -/
theorem reaches_skipPlainText (s : Stack) : s.Reaches s.skipPlainText := by
  unfold skipPlainText
  split
  · exact .refl s
  · rename_i c rest hs
    apply reaches_setUnread
    rw [hs]
    exact (List.dropWhile_suffix _).trans (List.suffix_cons c rest)

/-- Reading a literal is a move. -/
theorem reaches_accept? {literal : Text} (h : s.accept? literal = some s') : s.Reaches s' := by
  cases s with
  | nil => cases h
  | cons r below =>
    obtain ⟨t, ht, rfl⟩ := Option.map_eq_some_iff.mp h
    exact .within below (Text.suffix_of_after? ht)

/-- A literal that is found lies between the two stacks of the result. -/
theorem reaches_findLiteral_some {crossing : Bool} {literal : Text} {before after : Stack}
    (h : findLiteral crossing literal s = (some before, after)) :
    s.Reaches before ∧ before.Reaches after := by
  have hfound : ∀ {r : Reading} {front rest : Text} (below : Stack),
      Text.splitFirst? literal r.unread = some (front, rest) →
      Reaches (r :: below) ({ r with unread := literal ++ rest } :: below) ∧
        Reaches ({ r with unread := literal ++ rest } :: below)
          ({ r with unread := rest } :: below) := by
    intro r front rest below hsplit
    have hread : front ++ (literal ++ rest) = r.unread := by
      rw [Text.eq_append_of_splitFirst? hsplit, List.append_assoc]
    exact ⟨.within below ⟨front, hread⟩, .within below ⟨literal, rfl⟩⟩
  fun_induction findLiteral crossing literal s with
  | case1 =>
    split at h
    · obtain ⟨hbefore, rfl⟩ := Prod.mk.inj h
      obtain rfl := Option.some.inj hbefore
      exact ⟨.nowhere, .nowhere⟩
    · cases h
  | case2 r front rest hsplit =>
    cases h
    exact hfound [] hsplit
  | case3 => cases h
  | case4 r next below front rest hsplit =>
    cases h
    exact hfound (next :: below) hsplit
  | case5 r next below _ _ ih =>
    obtain ⟨hbefore, hafter⟩ := ih h
    exact ⟨.leave r hbefore, hafter⟩
  | case6 => cases h

/-- Looking for a literal in vain is a move. -/
theorem reaches_findLiteral_none {crossing : Bool} {literal : Text} {after : Stack}
    (h : findLiteral crossing literal s = (none, after)) : s.Reaches after := by
  fun_induction findLiteral crossing literal s with
  | case1 =>
    obtain ⟨-, rfl⟩ := Prod.mk.inj h
    exact .nowhere
  | case2 => cases h
  | case3 r _ =>
    cases h
    exact .within [] List.nil_suffix
  | case4 => cases h
  | case5 r next below _ _ ih => exact .leave r (ih h)
  | case6 r next below _ _ =>
    cases h
    exact .within _ List.nil_suffix

/-- Skipping to a literal goes to its beginning first and then to its end. -/
theorem reaches_skipUntil_ok {crossing : Bool} {literal : Text} {before after : Stack}
    (h : s.skipUntil crossing literal = (.ok before, after)) :
    s.Reaches before ∧ before.Reaches after :=
  reaches_findLiteral_some (skipUntil_eq_ok_iff.mp h)

/-- Skipping to a literal is a move, whether or not it is found. -/
theorem reaches_skipUntil (crossing : Bool) (literal : Text) (s : Stack) :
    s.Reaches (s.skipUntil crossing literal).2 := by
  unfold skipUntil
  split
  · rename_i hf
    obtain ⟨hbefore, hafter⟩ := reaches_findLiteral_some hf
    exact hbefore.trans hafter
  · rename_i hf
    exact reaches_findLiteral_none hf

/-- Reading attributes is a move. -/
theorem reaches_readAttributes (s : Stack) : s.Reaches (Recognition.readAttributes s).2 := by
  have hsuffix := AttributeList.suffix_read s.unread
  unfold Recognition.readAttributes
  split
  all_goals
    rename_i he
    rw [he] at hsuffix
    exact reaches_setUnread hsuffix

/-- The files of a stack are on record under their numbers, and an end of each content is left. -/
def RecordedIn (files : List Source) (s : Stack) : Prop :=
  ∀ r ∈ s, files[r.source.id]? = some r.source ∧ r.unread <:+ r.source.content

namespace RecordedIn

variable {files more : List Source}

/-- The files of a place that can be reached are on record. -/
theorem reaches (hs : s.RecordedIn files) (h : s.Reaches s') : s'.RecordedIn files := by
  intro r' hr'
  obtain ⟨r, hr, hsource, hunread⟩ := h.exists_mem r' hr'
  obtain ⟨hfile, hsuffix⟩ := hs r hr
  rw [hsource]
  exact ⟨hfile, hunread.trans hsuffix⟩

/-- Further files change nothing for those on record. -/
theorem mono (hs : s.RecordedIn files) (h : files <+: more) : s.RecordedIn more := by
  intro r hr
  obtain ⟨hfile, hsuffix⟩ := hs r hr
  obtain ⟨hlt, hget⟩ := List.getElem?_eq_some_iff.mp hfile
  exact ⟨(List.prefix_iff_getElem?.mp h _ hlt).trans (congrArg some hget), hsuffix⟩

theorem below {r : Reading} {s : Stack} (h : RecordedIn files (r :: s)) : s.RecordedIn files :=
  fun q hq => h q (List.mem_cons_of_mem r hq)

/-- The innermost file may be left at another place. -/
theorem replace {q r : Reading} {s : Stack} (h : RecordedIn files (r :: s))
    (hsource : q.source = r.source) (hq : q.unread <:+ r.source.content) :
    RecordedIn files (q :: s) := by
  intro other hother
  rcases List.mem_cons.mp hother with rfl | hbelow
  · rw [hsource]
    exact ⟨(h r List.mem_cons_self).1, hq⟩
  · exact h.below other hbelow

end RecordedIn

end Stack

namespace Input

/-- A file that is opened could be read, is not being read already, and lies on top then. -/
theorem eq_push_of_tryOpen {disk : Disk} {i j : Input} {inclusion : Inclusion}
    (h : tryOpen disk i inclusion = .ok j) :
    ∃ encoding octets, encodingOf inclusion = .ok encoding ∧
      disk.read (i.stack.resolve inclusion.path) = .ok octets ∧
      (disk.canonical? (i.stack.resolve inclusion.path)).any i.isOpen = false ∧
      j = i.push (i.stack.resolve inclusion.path) (encoding.decode octets)
        (disk.canonical? (i.stack.resolve inclusion.path))
        (Path.directoryOf (i.stack.resolve inclusion.path)) encoding := by
  simp only [tryOpen] at h
  split at h
  · cases h
  · rename_i encoding hencoding
    split at h
    · cases h
    · split at h
      · cases h
      · rename_i octets hread
        split at h
        · cases h
        · rename_i hopen
          cases h
          exact ⟨encoding, octets, hencoding, hread, Bool.eq_false_iff.mpr hopen, rfl⟩

/-- A file that is opened can be opened. -/
theorem tryOpen_of_openFile {disk : Disk} {i j : Input} {inclusion : Inclusion}
    (h : i.openFile disk inclusion = .ok j) : i.tryOpen disk inclusion = .ok j := by
  unfold openFile at h
  split at h
  · rename_i opened hopen
    cases h
    exact hopen
  · cases h

@[simp] theorem opened_setBaseDir (i : Input) (baseDir : Text) :
    (i.setBaseDir baseDir).opened = i.opened := by
  unfold setBaseDir
  split
  · rfl
  · rfl

/-- What is opened is put on record. -/
theorem recordedIn_push {i : Input} (h : i.stack.RecordedIn i.opened) (name content : Text)
    (canonical? : Option Text) (baseDir : Text) (encoding : Encoding) :
    (i.push name content canonical? baseDir encoding).stack.RecordedIn
      (i.push name content canonical? baseDir encoding).opened := by
  intro r hr
  rcases List.mem_cons.mp hr with rfl | hbelow
  · exact ⟨List.getElem?_concat_length, List.suffix_rfl⟩
  · exact h.mono (List.prefix_append _ _) r hbelow

end Input

end ServerPages
