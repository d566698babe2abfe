import ServerPages.Disk.Tree
import ServerPages.Proofs.Markup.Record
import ServerPages.Proofs.Markup.Single

/-!
# Inclusion as expansion

A scan reads included files through a stack. What it hands over is nevertheless given by recursion
on the files alone: the elements of a template, each include directive followed by the elements of
its file, expanded in the same way from the directory of that file.
-/

namespace ServerPages

namespace Event

/-- What a text says when it is scanned alone, on a disk without files and without following its
include directives. -/
def ofText? (content : Text) : Option (List Event) :=
  ((Scan.start ((Input.empty false).openText [] content []) []).run
    (.recorder false) .empty).toOption.map fun scan => scan.state.map Element.event

/-- Each include directive is followed by the expansion of its file, whose relative paths are taken
from its own directory. -/
inductive Expands (disk : Disk) : Text → List Event → List Event → Prop
  /-- Nothing is left. -/
  | nil (dir : Text) : Expands disk dir [] []
  /-- An element that asks for no file stands for itself. -/
  | plain {dir : Text} {event : Event} {events out : List Event} : event.inclusion? = none →
      Expands disk dir events out → Expands disk dir (event :: events) (event :: out)
  /-- The file of an include directive is expanded behind it. -/
  | follow {dir : Text} {event : Event} {events out : List Event} {inclusion : Inclusion}
      {path content : Text} {inner innerOut : List Event} : event.inclusion? = some inclusion →
      Input.fileText? disk dir inclusion = some (path, content) → ofText? content = some inner →
      Expands disk (Path.directoryOf path) inner innerOut → Expands disk dir events out →
      Expands disk dir (event :: events) (event :: innerOut ++ out)

/-- A text, read in a directory, expands to these events. -/
def Expansion (disk : Disk) (dir content : Text) (out : List Event) : Prop :=
  ∃ events, ofText? content = some events ∧ Expands disk dir events out

/-- A text that is cut into pieces says what they say. -/
theorem ofText?_of_reads {content : Text} {cuts : List Cut}
    (h : Cut.Reads [] content.unifyBreaks cuts) : ofText? content = some (cuts.map Cut.event) := by
  obtain ⟨scan, hrun, hevents⟩ := Scan.events_of_reads h .empty false [] none [] .utf8
  have hrun' : (Scan.start ((Input.empty false).openText [] content []) []).run
      (.recorder false) .empty = .ok scan := hrun
  rw [ofText?, hrun', ← hevents]
  rfl

namespace Expands

variable {disk : Disk} {dir : Text} {events out : List Event}

/-- A list of events has at most one expansion. -/
theorem unique (h : Expands disk dir events out) :
    ∀ {out' : List Event}, Expands disk dir events out' → out = out' := by
  induction h with
  | nil dir =>
    intro out' h'
    cases h'
    rfl
  | plain hnone _ ih =>
    intro out' h'
    cases h' with
    | plain _ h' => rw [ih h']
    | follow hsome => simp [hnone] at hsome
  | follow hsome hfile htext _ _ ihInner ih =>
    intro out' h'
    cases h' with
    | plain hnone => simp [hsome] at hnone
    | follow hsome' hfile' htext' hinner' h' =>
      obtain rfl := Option.some.inj (hsome.symm.trans hsome')
      obtain ⟨rfl, rfl⟩ := Prod.mk.inj (Option.some.inj (hfile.symm.trans hfile'))
      obtain rfl := Option.some.inj (htext.symm.trans htext')
      rw [ihInner hinner', ih h']

/-- Events that ask for no file stand for themselves in front of an expansion. -/
theorem append_left {front : List Event} (hfront : ∀ event ∈ front, event.inclusion? = none)
    (h : Expands disk dir events out) : Expands disk dir (front ++ events) (front ++ out) := by
  induction front with
  | nil => exact h
  | cons event front ih =>
    rw [List.forall_mem_cons] at hfront
    exact plain hfront.1 (ih hfront.2)

end Expands

end Event

/-- Plain text includes no file. -/
theorem Cut.inclusion?_passage {pending : Text} :
    ∀ event ∈ (Cut.passage pending).map Cut.event, event.inclusion? = none := by
  intro event he
  by_cases hp : pending = []
  · simp [Cut.passage, hp] at he
  · simp [Cut.passage, hp] at he
    rw [he]
    rfl

/-- What files that are being read will yield: in each one, the rest of its text is cut and
expanded. -/
def Stack.Yields (disk : Disk) : Text → Stack → List Event → Prop
  | _, [], out => out = []
  | pending, r :: below, out => ∃ cuts mine others, Cut.Reads pending r.unread cuts ∧
      Event.Expands disk r.baseDir (cuts.map Cut.event) mine ∧ Yields disk [] below others ∧
      out = mine ++ others

namespace Stack

variable {disk : Disk} {dropped rest : Stack} {out : List Event}

/-- Files that are used up yield nothing. -/
theorem Yields.append_used (h : rest.Yields disk [] out) (hd : ∀ r ∈ dropped, r.unread = []) :
    Yields disk [] (dropped ++ rest) out := by
  induction dropped with
  | nil => exact h
  | cons q dropped ih =>
    rw [List.forall_mem_cons] at hd
    refine ⟨[], [], out, ?_, .nil _, ih hd.2, rfl⟩
    rw [hd.1]
    exact .done []

/-- A file that is used up yields the text collected in it. -/
theorem Yields.cons_used {q : Reading} (pending : Text) (h : rest.Yields disk [] out)
    (hq : q.unread = []) :
    Yields disk pending (q :: rest) ((Cut.passage pending).map Cut.event ++ out) := by
  refine ⟨Cut.passage pending, _, out, ?_, ?_, h, rfl⟩
  · rw [hq]
    exact .done pending
  · simpa using Event.Expands.append_left Cut.inclusion?_passage (.nil q.baseDir)

end Stack

namespace Scan

variable {disk : Disk} {s s' t last : Scan (List Element)} {r : Reading} {below : Stack}

/-- What a recording scan will still hand over, in the order of the files on its stack. -/
def Outlook (disk : Disk) (s last : Scan (List Element)) : Prop :=
  ∃ out, s.input.stack.Yields disk s.pendingText out ∧
    last.state.map Element.event = s.state.map Element.event ++ out

/-- The last round hands over the pending text. -/
theorem Outlook.of_stop (h : s.Sound) (hu : s.input.stack.settle.unread = [])
    (hlast : last.state = s.state ++ s.pendingElements) : s.Outlook disk last := by
  obtain ⟨r, below, hs⟩ := List.exists_cons_of_ne_nil h.input.reading
  have hused := Stack.unread_eq_nil_of_settle hu
  rw [hs, List.forall_mem_cons] at hused
  have hbelow : Stack.Yields disk [] below [] := by
    have hnil : Stack.Yields disk [] [] [] := rfl
    rw [← List.append_nil below]
    exact hnil.append_used hused.2
  refine ⟨(Cut.passage s.pendingText).map Cut.event ++ [], ?_, ?_⟩
  · rw [hs]
    exact hbelow.cons_used s.pendingText hused.1
  · rw [hlast, List.map_append, h.map_event_pendingElements, List.append_nil]

/-- Dropping files that are used up. -/
theorem Outlook.of_enter (h : s.Sound) (he : s.settle.enterFile (.recorder true) disk = .ok t)
    (ht : t.Outlook disk last) : s.Outlook disk last := by
  obtain ⟨out, hyields, hlast⟩ := ht
  obtain ⟨hinput, -, ⟨hsame, hstate, hpending⟩ | ⟨hne, hstate, hpending⟩⟩ := h.enter he
  · refine ⟨out, ?_, by rw [hlast, hstate]⟩
    rw [hinput, hsame] at hyields
    rwa [pendingText, hpending] at hyields
  · obtain ⟨dropped, hs, hd⟩ := Stack.settle_eq s.input.stack
    cases dropped with
    | nil => exact absurd hs.symm hne
    | cons q dropped =>
      rw [List.forall_mem_cons] at hd
      rw [hinput, pendingText, hpending] at hyields
      refine ⟨(Cut.passage s.pendingText).map Cut.event ++ out, ?_, ?_⟩
      · rw [hs]
        exact (hyields.append_used hd.2).cons_used s.pendingText hd.1
      · rw [hlast, hstate, List.map_append, h.map_event_pendingElements, List.append_assoc]

/-- What a scan hands over in a step and later is what its outlook tells. -/
theorem Outlook.of_step (h : t.Sound) (hid : t.input.stack.sourceId? = t.sourceId?)
    (hs : t.input.stack = r :: below) (hu : r.unread ≠ [])
    (hstep : t.step (.recorder true) disk = .ok s') (hnext : s'.Outlook disk last) :
    t.Outlook disk last := by
  obtain ⟨out, hyields, hlast⟩ := hnext
  have hr : r.unread <:+ r.source.content := h.input.suffix r (by simp [hs])
  rcases step_recorder hid hs (Or.inl h.input.crossing) hr hstep with
    ⟨hp, rfl⟩ | ⟨found, rest, hp, hstate, hpending, -, hled⟩
  · rw [readText_eq hs hu] at hyields hlast
    obtain ⟨cuts, mine, others, hreads, hexpands, hbelow, rfl⟩ := hyields
    refine ⟨mine ++ others, ?_, hlast⟩
    rw [hs]
    exact ⟨cuts, mine, others, .plain hu hp hreads, hexpands, hbelow, rfl⟩
  · have hevents : s'.state.map Element.event =
        t.state.map Element.event ++ (Cut.passage t.pendingText ++ found).map Cut.event := by
      rw [hstate, List.map_append, List.map_append, h.map_event_pendingElements,
        Cut.map_event_elements, List.append_assoc, ← List.map_append]
    rw [hevents, List.append_assoc] at hlast
    rw [pendingText, hpending] at hyields
    refine ⟨_, ?_, hlast⟩
    rw [hs]
    rcases hled with ⟨hi, hn⟩ | ⟨c, inclusion, rfl, -, hi, ho⟩
    · rw [hi] at hyields
      obtain ⟨cuts, mine, others, hreads, hexpands, hbelow, rfl⟩ := hyields
      refine ⟨_, _, others, .pieces hp hreads, ?_, hbelow, (List.append_assoc ..).symm⟩
      have hnone : ∀ event ∈ (Cut.passage t.pendingText ++ found).map Cut.event,
          event.inclusion? = none := by
        rw [List.map_append]
        simp only [List.mem_append, List.mem_map]
        rintro event (he | ⟨c, hc, rfl⟩)
        · exact Cut.inclusion?_passage event (List.mem_map.mpr he)
        · exact hn rfl c hc
      rw [List.map_append]
      exact hexpands.append_left hnone
    · obtain ⟨path, content, canonical?, encoding, hfile, -, -, hstack⟩ :=
        Input.push_of_tryOpen rfl ho
      rw [hstack] at hyields
      obtain ⟨inner, innerOut, -, hinner, hexpandsInner, ⟨cuts, mine, others, hreads, hexpands,
        hbelow, rfl⟩, rfl⟩ := hyields
      have htext : Event.ofText? content = some (inner.map Cut.event) :=
        Event.ofText?_of_reads (by rw [Input.unifyBreaks_of_fileText? hfile]; exact hinner)
      refine ⟨_, (Cut.passage t.pendingText).map Cut.event ++ (c.event :: innerOut ++ mine), others,
        .pieces hp hreads, ?_, hbelow, by simp⟩
      have hfollow := Event.Expands.follow hi hfile htext hexpandsInner hexpands
      simpa using hfollow.append_left Cut.inclusion?_passage

/-- A recording scan hands over what the files on its stack yield. -/
theorem Sound.outlook (h : s.Sound) (hrun : s.run (.recorder true) disk = .ok last) :
    s.Outlook disk last := by
  refine h.run_induction (motive := fun s => s.Outlook disk last) ?_ ?_ hrun
  · intro s hs hu hstate _
    exact .of_stop hs hu hstate
  · intro s t s' r below hs he ht hid hr hu hstep hnext
    exact .of_enter hs he (.of_step ht hid hr hu hstep hnext)

/-- When a root template is scanned to its end, files being read at their include directives, the
elements say exactly what the recursive expansion of the template says. -/
theorem expansion_iff_of_run (name : Text) (canonical? : Option Text) (encoding : Encoding)
    {source baseDir : Text} {scan : Scan (List Element)}
    (h : (start ((Input.empty false).push name source canonical? baseDir encoding) []).run
      (.recorder true) disk = .ok scan) (out : List Event) :
    Event.Expansion disk baseDir source out ↔ out = scan.state.map Element.event := by
  obtain ⟨yielded, ⟨cuts, mine, others, hreads, hexpands, hothers, rfl⟩, hlast⟩ :=
    (sound_start name source canonical? baseDir encoding).outlook h
  obtain rfl : others = [] := hothers
  rw [List.append_nil] at hlast
  have htext : Event.ofText? source = some (cuts.map Cut.event) := Event.ofText?_of_reads hreads
  have hscan : scan.state.map Element.event = mine := hlast
  rw [hscan]
  constructor
  · rintro ⟨events, hevents, hout⟩
    obtain rfl := Option.some.inj (hevents.symm.trans htext)
    exact hout.unique hexpands
  · rintro rfl
    exact ⟨_, htext, hexpands⟩

/-- A file that is included twice, and that ends with the inclusion of an empty one from its own
directory. -/
theorem expansion_of_nested_includes :
    Event.Expansion
      ((FileTree.empty.add "d/b" (.file (Encoding.encode "x<%@ include file='c' %>"))).add "d/c"
        (.file [])).disk
      [] "a<%@ include file='d/b' %><%@ include file='d/b' %>z"
      [⟨.plainText, "a", .empty⟩,
        ⟨.directive "include", "<%@ include file='d/b' %>", Attributes.empty.insert "file" "d/b"⟩,
        ⟨.plainText, "x", .empty⟩,
        ⟨.directive "include", "<%@ include file='c' %>", Attributes.empty.insert "file" "c"⟩,
        ⟨.directive "include", "<%@ include file='d/b' %>", Attributes.empty.insert "file" "d/b"⟩,
        ⟨.plainText, "x", .empty⟩,
        ⟨.directive "include", "<%@ include file='c' %>", Attributes.empty.insert "file" "c"⟩,
        ⟨.plainText, "z", .empty⟩] := by
  refine (expansion_iff_of_run "page" none .utf8
    (run_of_runWithin (n := 10) (Option.some_get ?_).symm) _).mpr ?_
  · decide +kernel
  · decide +kernel

end Scan

end ServerPages
