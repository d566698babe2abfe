import ServerPages.Proofs.Input.Reach
import ServerPages.Proofs.Markup.Step

/-!
# Recording scans

A recording scan keeps the elements it meets and reads included files. Its input stays sound: every
file that is being read was opened, has a number of its own, and has an end of its content left;
pending text belongs to the innermost file. One round of a scan takes off the files that are used
up, hands over the pending text of another file, and makes a step.
-/

namespace ServerPages

namespace Input

/-- The text of a file that an inclusion asks for, seen from a directory, and the resolved path. -/
def fileText? (disk : Disk) (directory : Text) (inclusion : Inclusion) : Option (Text × Text) :=
  match encodingOf inclusion, disk.read (Path.join directory inclusion.path) with
  | .ok encoding, .ok octets =>
    some (Path.join directory inclusion.path, (encoding.decode octets).unifyBreaks)
  | _, _ => none

/-- The line breaks of a file's text are unified. -/
theorem unifyBreaks_of_fileText? {disk : Disk} {directory path content : Text}
    {inclusion : Inclusion} (h : fileText? disk directory inclusion = some (path, content)) :
    content.unifyBreaks = content := by
  unfold fileText? at h
  split at h
  · cases h
    exact Text.unifyBreaks_unifyBreaks _
  · cases h

/-- A file that is opened lies on top, unread, under the next number. -/
theorem push_of_tryOpen {disk : Disk} {i j : Input} {r : Reading} {below : Stack}
    {inclusion : Inclusion} (hs : i.stack = r :: below) (h : tryOpen disk i inclusion = .ok j) :
    ∃ path content canonical? encoding, fileText? disk r.baseDir inclusion = some (path, content) ∧
      j.crossing = i.crossing ∧
      j.opened = i.opened ++ [⟨i.opened.length, path, content, canonical?⟩] ∧
      j.stack = ⟨⟨i.opened.length, path, content, canonical?⟩, content, Path.directoryOf path,
        encoding⟩ :: i.stack := by
  obtain ⟨encoding, octets, hencoding, hread, -, rfl⟩ := eq_push_of_tryOpen h
  have hresolve : i.stack.resolve inclusion.path = Path.join r.baseDir inclusion.path := by
    rw [hs, Stack.resolve]
  rw [hresolve] at hread ⊢
  refine ⟨_, (encoding.decode octets).unifyBreaks, _, encoding, ?_, rfl, rfl, rfl⟩
  simp only [fileText?, hencoding, hread]

end Input

/-- An input that has been read from files that were opened in order. -/
structure Input.Sound (i : Input) : Prop where
  /-- Elements do not cross the ends of files. -/
  crossing : i.crossing = false
  /-- Files are numbered in the order of their opening. -/
  numbered : i.opened.map Source.id = List.range i.opened.length
  /-- A file is being read. -/
  reading : i.stack ≠ []
  /-- The line breaks of files are unified. -/
  unified : ∀ source ∈ i.opened, source.content.unifyBreaks = source.content
  /-- Files that are being read have been opened. -/
  opened : ∀ r ∈ i.stack, r.source ∈ i.opened
  /-- What is left of a file is an end of its content. -/
  suffix : ∀ r ∈ i.stack, r.unread <:+ r.source.content
  /-- No file is on the stack twice. -/
  distinct : (i.stack.map (·.source.id)).Nodup

namespace Input.Sound

variable {i j : Input} {r : Reading} {below : Stack}

/-- The number of an opened file is below the number of the next one. -/
theorem id_lt (h : i.Sound) {source : Source} (hm : source ∈ i.opened) :
    source.id < i.opened.length := by
  have hid := List.mem_map_of_mem (f := Source.id) hm
  rwa [h.numbered, List.mem_range] at hid

/-- Taking off files that are used up keeps an input sound. -/
theorem settle (h : i.Sound) : ({ i with stack := i.stack.settle } : Input).Sound := by
  obtain ⟨dropped, hd, -⟩ := Stack.settle_eq i.stack
  have hsub : ∀ r ∈ i.stack.settle, r ∈ i.stack := fun r hr => by
    rw [hd]
    exact List.mem_append_right _ hr
  have hdistinct := h.distinct
  rw [hd, List.map_append] at hdistinct
  exact ⟨h.crossing, h.numbered, Stack.settle_ne_nil h.reading, h.unified,
    fun r hr => h.opened r (hsub r hr), fun r hr => h.suffix r (hsub r hr),
    (List.nodup_append.mp hdistinct).2.1⟩

/-- Reading on in the innermost file. -/
theorem move (h : i.Sound) (hs : i.stack = r :: below) {rest : Text} (hr : rest <:+ r.unread) :
    ({ i with stack := { r with unread := rest } :: below } : Input).Sound := by
  obtain ⟨hopened, hsuffix, hdistinct⟩ := And.intro h.opened (And.intro h.suffix h.distinct)
  rw [hs] at hopened hsuffix hdistinct
  refine ⟨h.crossing, h.numbered, List.cons_ne_nil _ _, h.unified, ?_, ?_, hdistinct⟩
  · rw [List.forall_mem_cons] at hopened ⊢
    exact hopened
  · rw [List.forall_mem_cons] at hsuffix ⊢
    exact ⟨hr.trans hsuffix.1, hsuffix.2⟩

/-- A file that is opened has a new number. -/
theorem tryOpen (h : i.Sound) {disk : Disk} {inclusion : Inclusion}
    (ho : i.tryOpen disk inclusion = .ok j) : j.Sound := by
  obtain ⟨r, below, hs⟩ := List.exists_cons_of_ne_nil h.reading
  obtain ⟨path, content, canonical?, encoding, hfile, hcrossing, hopened, hstack⟩ :=
    push_of_tryOpen hs ho
  constructor
  · rw [hcrossing, h.crossing]
  · rw [hopened, List.map_append, h.numbered, List.length_append, List.length_singleton,
      List.range_succ]
    rfl
  · rw [hstack]
    exact List.cons_ne_nil _ _
  · rw [hopened]
    intro source hm
    rcases List.mem_append.mp hm with hm | hm
    · exact h.unified source hm
    · rw [List.mem_singleton.mp hm]
      exact unifyBreaks_of_fileText? hfile
  · rw [hstack, hopened, List.forall_mem_cons]
    exact ⟨by simp, fun r hr => List.mem_append_left _ (h.opened r hr)⟩
  · rw [hstack, List.forall_mem_cons]
    exact ⟨List.suffix_rfl, h.suffix⟩
  · rw [hstack, List.map_cons, List.nodup_cons]
    refine ⟨fun hm => ?_, h.distinct⟩
    obtain ⟨q, hq, he⟩ := List.mem_map.mp hm
    exact absurd (h.id_lt (h.opened q hq)) (by simp [he])

end Input.Sound

namespace Scan

/-- A recording scan between two rounds. -/
structure Sound (s : Scan (List Element)) : Prop where
  /-- The input is sound. -/
  input : s.input.Sound
  /-- Pending text is not empty and comes from the innermost file. -/
  pending : ∀ p, s.pending? = some p → p.text ≠ [] ∧ s.sourceId? = s.input.stack.sourceId?

variable {s s' t : Scan (List Element)} {disk : Disk}

/-- The beginning of a scan of a root template. -/
theorem sound_start (name content : Text) (canonical? : Option Text) (baseDir : Text)
    (encoding : Encoding) :
    (start ((Input.empty false).push name content canonical? baseDir encoding) []).Sound := by
  refine ⟨⟨rfl, rfl, List.cons_ne_nil _ _, ?_, ?_, ?_, ?_⟩, fun p hp => by cases hp⟩
  · simp [start, Input.push, Input.empty, Text.unifyBreaks_unifyBreaks]
  · simp [start, Input.push, Input.empty]
  · simp [start, Input.push, Input.empty]
  · simp [start, Input.push, Input.empty]

/-- The element of the pending text says what its cut says. -/
theorem Sound.map_event_pendingElements (h : s.Sound) :
    s.pendingElements.map Element.event = (Cut.passage s.pendingText).map Cut.event := by
  cases hp : s.pending? with
  | none => simp [pendingElements, pendingText, hp, Cut.passage]
  | some p =>
    have hne := (h.pending p hp).1
    simp [pendingElements, pendingText, hp, Cut.passage, hne]
    rfl

/-- Before a step, the pending text is handed over if its file has been used up. -/
theorem Sound.enter (h : s.Sound) (he : s.settle.enterFile (.recorder true) disk = .ok t) :
    t.input = { s.input with stack := s.input.stack.settle } ∧
      t.input.stack.sourceId? = t.sourceId? ∧
      (s.input.stack.settle = s.input.stack ∧ t.state = s.state ∧ t.pending? = s.pending? ∨
        s.input.stack.settle ≠ s.input.stack ∧ t.state = s.state ++ s.pendingElements ∧
          t.pending? = none) := by
  obtain ⟨hinput, hsource, hcases⟩ := enterFile_recorder he
  refine ⟨hinput, by rw [hsource, hinput], ?_⟩
  cases hp : s.pending? with
  | none =>
    have hempty : s.pendingElements = [] := by simp [pendingElements, hp]
    have hkept : t.state = s.state ++ [] ∧ t.pending? = none := by
      rcases hcases with ⟨-, hstate, hpending⟩ | ⟨-, hstate, hpending⟩
      · exact ⟨hstate.trans (List.append_nil _).symm, hpending.trans hp⟩
      · exact ⟨hstate.trans (congrArg (s.state ++ ·) hempty), hpending⟩
    by_cases hsame : s.input.stack.settle = s.input.stack
    · exact Or.inl ⟨hsame, hkept.1.trans (List.append_nil _), hkept.2⟩
    · exact Or.inr ⟨hsame, hempty ▸ hkept.1, hkept.2⟩
  | some p =>
    have hid := (h.pending p hp).2
    rcases hcases with ⟨hkeep, hstate, hpending⟩ | ⟨hne, hstate, hpending⟩
    · have hsame := Stack.settle_eq_self h.input.reading h.input.distinct (hkeep.trans hid)
      exact Or.inl ⟨hsame, hstate, hpending.trans hp⟩
    · refine Or.inr ⟨fun hsame => hne ?_, hstate, hpending⟩
      exact (congrArg Stack.sourceId? hsame).trans hid.symm

/-- Entering a file keeps a scan sound. -/
theorem Sound.of_enter (h : s.Sound) (he : s.settle.enterFile (.recorder true) disk = .ok t) :
    t.Sound := by
  obtain ⟨hinput, hid, hcases⟩ := h.enter he
  refine ⟨hinput ▸ h.input.settle, fun p hp => ⟨?_, hid.symm⟩⟩
  rcases hcases with ⟨-, -, hpending⟩ | ⟨-, -, hnone⟩
  · exact (h.pending p (hpending ▸ hp)).1
  · rw [hnone] at hp
    cases hp

/-- A step keeps a scan sound. -/
theorem Sound.of_step {r : Reading} {below : Stack} (h : t.Sound)
    (hid : t.input.stack.sourceId? = t.sourceId?) (hs : t.input.stack = r :: below)
    (hu : r.unread ≠ []) (hstep : t.step (.recorder true) disk = .ok s') : s'.Sound := by
  have hr : r.unread <:+ r.source.content := h.input.suffix r (by simp [hs])
  rcases step_recorder hid hs (Or.inl h.input.crossing) hr hstep with
    ⟨-, rfl⟩ | ⟨cuts, rest, hp, -, hpending, -, hled⟩
  · have htail : Cut.plainTail r.unread <:+ r.unread :=
      ⟨_, Cut.plainHead_append_plainTail r.unread⟩
    rw [readText_eq hs hu]
    refine ⟨h.input.move hs htail, fun p hp => ?_⟩
    obtain rfl := Option.some.inj hp
    refine ⟨?_, by rw [← hid, hs]; rfl⟩
    cases hr : r.unread with
    | nil => exact absurd hr hu
    | cons c more => simp [Cut.plainHead]
  · have hrest : rest <:+ r.unread := ⟨_, (Cut.spec_of_pieces? hp).1.symm⟩
    have hmoved := h.input.move hs hrest
    refine ⟨?_, fun p hp => by rw [hpending] at hp; cases hp⟩
    rcases hled with ⟨hi, -⟩ | ⟨c, inclusion, -, -, -, ho⟩
    · rw [hi]
      exact hmoved
    · exact hmoved.tryOpen ho

/-- Files that have been opened stay on record. -/
theorem Sound.opened_subset {r : Reading} {below : Stack} (h : t.Sound)
    (hid : t.input.stack.sourceId? = t.sourceId?) (hs : t.input.stack = r :: below)
    (hu : r.unread ≠ []) (hstep : t.step (.recorder true) disk = .ok s') :
    t.input.opened ⊆ s'.input.opened := by
  have hr : r.unread <:+ r.source.content := h.input.suffix r (by simp [hs])
  rcases step_recorder hid hs (Or.inl h.input.crossing) hr hstep with
    ⟨-, rfl⟩ | ⟨cuts, rest, -, -, -, -, ⟨hi, -⟩ | ⟨c, inclusion, -, -, -, ho⟩⟩
  · rw [readText_eq hs hu]
    exact List.Subset.refl _
  · rw [hi]
    exact List.Subset.refl _
  · obtain ⟨path, content, canonical?, encoding, -, -, hopened, -⟩ := Input.push_of_tryOpen rfl ho
    rw [hopened]
    exact List.subset_append_left _ _

/-- Every property that the last round has, and that each round hands back from the next one, holds
of a recording scan that comes to its end. -/
theorem Sound.run_induction {last : Scan (List Element)} {motive : Scan (List Element) → Prop}
    (stop : ∀ s : Scan (List Element), s.Sound → s.input.stack.settle.unread = [] →
      last.state = s.state ++ s.pendingElements →
      last.input = { s.input with stack := s.input.stack.settle } → motive s)
    (round : ∀ (s t s' : Scan (List Element)) (r : Reading) (below : Stack), s.Sound →
      s.settle.enterFile (.recorder true) disk = .ok t → t.Sound →
      t.input.stack.sourceId? = t.sourceId? → t.input.stack = r :: below → r.unread ≠ [] →
      t.step (.recorder true) disk = .ok s' → motive s' → motive s)
    (h : s.Sound) (hrun : s.run (.recorder true) disk = .ok last) : motive s := by
  fun_induction run (.recorder true) disk s with
  | case1 s hu =>
    obtain ⟨hstate, -, -, hinput⟩ := flush_recorder hrun
    exact stop s h hu hstate hinput
  | case2 s hu halt hs => cases hrun
  | case3 s hu s' hs ih =>
    obtain ⟨t, ht, -⟩ := bind_eq_ok hs
    obtain ⟨hinput, hid, -⟩ := h.enter ht
    obtain ⟨r, below, hr⟩ := List.exists_cons_of_ne_nil (h.of_enter ht).input.reading
    have hne : r.unread ≠ [] := by
      rw [show s.settle.input.stack = r :: below by rw [← hr, hinput]; rfl] at hu
      exact hu
    rw [step_of_enterFile ht hid] at hs
    exact round s t s' r below h ht (h.of_enter ht) hid hr hne hs
      (ih ((h.of_enter ht).of_step hid hr hne hs) hrun)

end Scan

end ServerPages
