import ServerPages.Proofs.Input.Reach

/-!
# Addresses

A place in a file is a number in the list of opened files and a byte offset. Whoever holds no more
than such addresses has to look up the files and to cut their contents, and both can fail: there may
be no file of that number, and no character may begin at that offset. For the files of a stack that
is on record nothing fails, and what is found is what the stack itself tells.
-/

namespace ServerPages

namespace Text

/-- A character begins at the offset, or the text ends there. -/
def IsBoundary (t : Text) (offset : Nat) : Prop :=
  ∃ front rest : Text, t = front ++ rest ∧ front.byteLength = offset

/-- No character begins behind the end of a text. -/
theorem IsBoundary.le {t : Text} {offset : Nat} (h : t.IsBoundary offset) :
    offset ≤ t.byteLength := by
  obtain ⟨front, rest, rfl, rfl⟩ := h
  rw [byteLength_append]
  exact Nat.le_add_right ..

/-- The text from an offset on, if a character begins there. -/
def dropBytes? (n : Nat) (t : Text) : Option Text :=
  (t.takeBytes? n).map fun front => t.drop front.length

@[simp] theorem dropBytes?_append (front rest : Text) :
    dropBytes? front.byteLength (front ++ rest) = some rest := by
  simp [dropBytes?]

/-- The text between two offsets, if both are in order and characters begin there. -/
def slice? (t : Text) (first last : Nat) : Option Text :=
  if first ≤ last then (t.dropBytes? first).bind (takeBytes? (last - first)) else none

end Text

/-- A place in one of the opened files. -/
structure Address where
  /-- The number of the file. -/
  file : Nat
  /-- The offset in bytes. -/
  offset : Nat
  deriving DecidableEq, Repr

/-- The place that has been reached in a file. -/
def Reading.address (r : Reading) : Address := ⟨r.source.id, r.cursor⟩

/-- The places that have been reached in the files of a stack. -/
def Stack.addresses (s : Stack) : List Address := s.map Reading.address

namespace Address

/-- There is such a file, and a character of it begins at the offset or it ends there. -/
def InBounds (files : List Source) (a : Address) : Prop :=
  ∃ h : a.file < files.length,
    a.offset ≤ files[a.file].content.byteLength ∧ files[a.file].content.IsBoundary a.offset

/-- What is left of a file. -/
def unread? (files : List Source) (a : Address) : Option Text := do
  let file ← files[a.file]?
  file.content.dropBytes? a.offset

/-- What is left of several files. -/
def unreadAll? (files : List Source) : List Address → Option Text
  | [] => some []
  | a :: others => do
    let text ← a.unread? files
    let texts ← unreadAll? files others
    return text ++ texts

/-- The place that has been reached in the innermost file, which counts the lines of the text in
front of it. -/
def span? (files : List Source) : List Address → Option Span
  | [] => some (.point .nowhere)
  | a :: _ => do
    let file ← files[a.file]?
    let _before ← file.content.takeBytes? a.offset
    return .point (.ofOffset file.name file.content a.offset)

/-- The text between two places. The places need not belong together, so no text may lie between
them in the file that they share; all else has to be there. -/
def textTo? (files : List Source) (start stop : List Address) : Option Text :=
  let shared := Nat.min start.length stop.length
  if shared = 0 then some []
  else do
    let first ← start[start.length - shared]?
    let last ← stop[stop.length - shared]?
    let file ← files[first.file]?
    let popped ← unreadAll? files (start.take (start.length - shared))
    return popped ++ (file.content.slice? first.offset last.offset).getD []

end Address

namespace Stack.RecordedIn

variable {files : List Source} {s : Stack} {r : Reading}

/-- The content of a file is what has been read of it and what is left. -/
theorem exists_front (h : s.RecordedIn files) (hr : r ∈ s) :
    ∃ front, r.source.content = front ++ r.unread ∧ r.cursor = front.byteLength := by
  obtain ⟨-, front, hfront⟩ := h r hr
  exact ⟨front, hfront.symm, Reading.cursor_eq hfront.symm⟩

/-- The addresses of what is being read lie in files that are on record. -/
theorem inBounds (h : s.RecordedIn files) : ∀ a ∈ s.addresses, a.InBounds files := by
  intro a ha
  obtain ⟨r, hr, rfl⟩ := List.mem_map.mp ha
  obtain ⟨hlt, hfile⟩ := List.getElem?_eq_some_iff.mp (h r hr).1
  obtain ⟨front, hcontent, hcursor⟩ := h.exists_front hr
  have hboundary : files[r.source.id].content.IsBoundary r.cursor := by
    rw [hfile]
    exact ⟨front, r.unread, hcontent, hcursor.symm⟩
  exact ⟨hlt, hboundary.le, hboundary⟩

/-- What is left of a file can be found from its address. -/
theorem unread?_address (h : s.RecordedIn files) (hr : r ∈ s) :
    r.address.unread? files = some r.unread := by
  obtain ⟨front, hcontent, hcursor⟩ := h.exists_front hr
  simp only [Address.unread?, Reading.address, (h r hr).1, Option.bind_eq_bind, Option.bind_some]
  rw [hcursor, hcontent, Text.dropBytes?_append]

/-- What is left of all files can be found from their addresses. -/
theorem unreadAll?_addresses (h : s.RecordedIn files) :
    Address.unreadAll? files s.addresses = some (s.flatMap Reading.unread) := by
  induction s with
  | nil => rfl
  | cons r below ih =>
    have hr := h.unread?_address List.mem_cons_self
    have hbelow := ih h.below
    rw [Stack.addresses] at hbelow
    rw [Stack.addresses, List.map_cons, Address.unreadAll?, hr, hbelow]
    rfl

/-- The span of a place can be found from its addresses. -/
theorem span?_addresses (h : s.RecordedIn files) :
    Address.span? files s.addresses = some s.span := by
  cases s with
  | nil => rfl
  | cons r below =>
    obtain ⟨front, hcontent, hcursor⟩ := h.exists_front List.mem_cons_self
    have hcut : r.source.content.takeBytes? r.cursor = some front := by
      rw [hcursor, hcontent, Text.takeBytes?_append]
    simp only [Stack.addresses, List.map_cons, Address.span?, Reading.address,
      (h r List.mem_cons_self).1, Option.bind_eq_bind, Option.bind_some, hcut]
    rfl

/-- The text of a file up to an offset is cut out of its content. -/
theorem slice?_content (h : s.RecordedIn files) (hr : r ∈ s) (offset : Nat) :
    (r.source.content.slice? r.cursor offset).getD [] = r.textUpTo offset := by
  obtain ⟨front, hcontent, hcursor⟩ := h.exists_front hr
  have hdrop : r.source.content.dropBytes? r.cursor = some r.unread := by
    rw [hcursor, hcontent, Text.dropBytes?_append]
  rw [Text.slice?, Reading.textUpTo, hdrop, Option.bind_some]
  split
  · rfl
  · rfl

/-- The text between two places can be found from their addresses. -/
theorem textTo?_addresses (h : s.RecordedIn files) (stop : Stack) :
    Address.textTo? files s.addresses stop.addresses = some (s.textTo stop) := by
  have hs : s.addresses.length = s.length := List.length_map _
  have hstop : stop.addresses.length = stop.length := List.length_map _
  rw [Address.textTo?, Stack.textTo, hs, hstop]
  split
  · rename_i hshared
    have hnone : s.drop (s.length - Nat.min s.length stop.length) = [] := by
      rw [hshared, Nat.sub_zero, List.drop_length]
    rw [hnone]
  · rename_i hshared
    -- Both stacks go down to the files that they share, so the two indices are in range.
    have hle : Nat.min s.length stop.length ≤ s.length := Nat.min_le_left ..
    have hle' : Nat.min s.length stop.length ≤ stop.length := Nat.min_le_right ..
    have hlt : s.length - Nat.min s.length stop.length < s.length := by omega
    have hlt' : stop.length - Nat.min s.length stop.length < stop.length := by omega
    have hpopped : RecordedIn files (s.take (s.length - Nat.min s.length stop.length)) :=
      fun r hr => h r (List.mem_of_mem_take hr)
    have hfirst := List.getElem_mem hlt
    have hunread := hpopped.unreadAll?_addresses
    rw [List.drop_eq_getElem_cons hlt, List.drop_eq_getElem_cons hlt']
    simp only [Stack.addresses, List.map_take] at hunread
    simp only [Stack.addresses, List.getElem?_map, List.getElem?_eq_getElem hlt,
      List.getElem?_eq_getElem hlt', Option.map_some, Option.bind_eq_bind, Option.bind_some,
      Reading.address, (h _ hfirst).1, hunread, h.slice?_content hfirst]
    rfl

end Stack.RecordedIn

/-- A span is a place in one of the files, where a character begins or the file ends. -/
def Span.PointsInto (files : List Source) (span : Span) : Prop :=
  ∃ file ∈ files, ∃ offset, file.content.IsBoundary offset ∧
    span = .point (.ofOffset file.name file.content offset)

/-- A span that points into some files points into them when more are opened. -/
theorem Span.PointsInto.mono {files more : List Source} {span : Span} (h : span.PointsInto files)
    (hmore : files <+: more) : span.PointsInto more := by
  obtain ⟨file, hfile, hspan⟩ := h
  exact ⟨file, hmore.subset hfile, hspan⟩

/-- The span at which a place is named lies in a file that is on record. -/
theorem Stack.RecordedIn.span_pointsInto {files : List Source} {s : Stack}
    (h : s.RecordedIn files) (hs : s ≠ []) : s.span.PointsInto files := by
  obtain ⟨r, below, rfl⟩ := List.exists_cons_of_ne_nil hs
  obtain ⟨front, hcontent, hcursor⟩ := h.exists_front List.mem_cons_self
  exact ⟨r.source, List.mem_of_getElem? (h r List.mem_cons_self).1, r.cursor,
    ⟨front, r.unread, hcontent, hcursor.symm⟩, rfl⟩

end ServerPages
