import ServerPages.Disk.Tree
import ServerPages.Proofs.Input.Address

/-!
# Sessions

A session is any use of an input: files are opened, text is read, places are marked and gone back
to, in any order and whether or not a single operation succeeds. Going back can bring files onto the
stack that were taken off long ago, so what holds of the stack must hold of every place that has
been marked. Such places stay on record, the record only grows, and no file is on a stack twice.
-/

namespace ServerPages

/-- An operation that consumes input. -/
inductive Stack.Move where
  | next
  | advance (count : Nat)
  | skipSpaces
  | skipPlainText
  | skipUntil (literal : Text)
  | settle
  | readAttributes
  deriving DecidableEq, Repr

namespace Stack.Move

/-- The stack after an operation, also after one that has failed. -/
def apply (crossing : Bool) (s : Stack) : Move → Stack
  | next => s.next?.2
  | advance count => (s.advance count).2
  | skipSpaces => s.skipSpaces
  | skipPlainText => s.skipPlainText
  | skipUntil literal => (s.skipUntil crossing literal).2
  | settle => s.settle
  | readAttributes => (Recognition.readAttributes s).2

/-- The place that an operation tells: that of a literal which has been found. -/
def found? (crossing : Bool) (s : Stack) : Move → Option Stack
  | skipUntil literal => (s.skipUntil crossing literal).1.toOption
  | _ => none

/-- Every operation that reads is a move. -/
theorem reaches_apply (crossing : Bool) (s : Stack) (m : Move) :
    s.Reaches (m.apply crossing s) := by
  cases m with
  | next => exact reaches_next? s
  | advance count => exact reaches_advance count s
  | skipSpaces => exact reaches_skipSpaces s
  | skipPlainText => exact reaches_skipPlainText s
  | skipUntil literal => exact reaches_skipUntil crossing literal s
  | settle => exact reaches_settle s
  | readAttributes => exact reaches_readAttributes s

/-- The place that an operation tells can be reached. -/
theorem reaches_found? {crossing : Bool} {s before : Stack} {m : Move}
    (h : m.found? crossing s = some before) : s.Reaches before := by
  cases m with
  | skipUntil literal =>
    rw [found?] at h
    cases hs : s.skipUntil crossing literal with
    | mk result after =>
      cases result with
      | error failure =>
        rw [hs] at h
        cases h
      | ok found =>
        rw [hs] at h
        cases h
        exact (reaches_skipUntil_ok hs).1
  | next | advance | skipSpaces | skipPlainText | settle | readAttributes => cases h

end Stack.Move

/-- Whatever can be read has a canonical name. -/
def Disk.Canonizes (disk : Disk) : Prop :=
  ∀ path octets, disk.read path = .ok octets → (disk.canonical? path).isSome

/-- A file that can be read in a file tree has a canonical name. -/
theorem FileTree.canonizes_disk (t : FileTree) : t.disk.Canonizes := by
  intro path octets hread
  simp only [disk, FileTree.read] at hread ⊢
  split at hread
  · cases hread
  · rename_i place hplace
    rw [hplace]
    cases place with
    | inside names => rfl
    | outside => cases hread

/-- A use of an input. -/
structure Session where
  /-- The input. -/
  input : Input
  /-- The places that have been marked, in order. -/
  marks : List Stack
  /-- The numbers of the files that were read from disk. -/
  fromDisk : List Nat

namespace Session

/-- What can be done with an input. A disk may change between two operations. -/
inductive Action where
  | openText (name content baseDir : Text)
  | openFile (disk : Disk) (inclusion : Inclusion)
  | setBaseDir (baseDir : Text)
  | pop
  | mark
  | reset (index : Nat)
  | move (m : Stack.Move)

/-- No file opened and no place marked yet. -/
def start (crossing : Bool) : Session := ⟨.empty crossing, [], []⟩

/-- The same session at another place. -/
def moveTo (s : Session) (stack : Stack) : Session := { s with input := { s.input with stack } }

/-- Perform an action. One that fails changes no more than the place that has been reached. -/
def perform (s : Session) : Action → Session
  | .openText name content baseDir => { s with input := s.input.openText name content baseDir }
  | .openFile disk inclusion =>
    match s.input.openFile disk inclusion with
    | .ok input => { s with input, fromDisk := s.fromDisk ++ [s.input.opened.length] }
    | .error _ => s
  | .setBaseDir baseDir => { s with input := s.input.setBaseDir baseDir }
  | .pop => s.moveTo (s.input.stack.pop?.getD s.input.stack)
  | .mark => { s with marks := s.marks ++ [s.input.stack] }
  | .reset index => s.moveTo (s.marks[index]?.getD s.input.stack)
  | .move m =>
    let stack := s.input.stack
    { s.moveTo (m.apply s.input.crossing stack) with
      marks := s.marks ++ (m.found? s.input.crossing stack).toList }

/-- Perform actions one after the other, from the beginning. -/
def run (crossing : Bool) (actions : List Action) : Session :=
  actions.foldl perform (start crossing)

/-- Where the session has arrived, and where it can go back to. -/
def places (s : Session) : List Stack := s.input.stack :: s.marks

theorem run_append (crossing : Bool) (actions more : List Action) :
    run crossing (actions ++ more) = more.foldl perform (run crossing actions) :=
  List.foldl_append

/-- What holds at the beginning and is kept by every action holds after every run. -/
theorem run_induction {motive : Session → Prop} {crossing : Bool} (actions : List Action)
    (hstart : motive (start crossing))
    (hstep : ∀ s, ∀ a ∈ actions, motive s → motive (s.perform a)) :
    motive (run crossing actions) := by
  have hfold : ∀ s, motive s → motive (actions.foldl perform s) := by
    induction actions with
    | nil => exact fun s hs => hs
    | cons a actions ih =>
      intro s hs
      exact ih (fun s b hb => hstep s b (List.mem_cons_of_mem a hb)) _
        (hstep s a List.mem_cons_self hs)
  exact hfold _ hstart

end Session

/-- Two files that do not have one canonical name. -/
def Source.Apart (file other : Source) : Prop :=
  ∀ name, file.canonical? = some name → other.canonical? ≠ some name

namespace Stack

/-- A stack whose files are on record, none of them twice. -/
structure Sound (files : List Source) (s : Stack) : Prop where
  /-- The files are on record. -/
  recorded : s.RecordedIn files
  /-- No two of them have one canonical name. -/
  apart : (s.map Reading.source).Pairwise Source.Apart

namespace Sound

variable {files more : List Source} {s s' : Stack}

theorem reaches (hs : s.Sound files) (h : s.Reaches s') : s'.Sound files :=
  ⟨hs.recorded.reaches h, hs.apart.sublist h.sources_suffix.sublist⟩

theorem mono (hs : s.Sound files) (h : files <+: more) : s.Sound more :=
  ⟨hs.recorded.mono h, hs.apart⟩

theorem setBaseDir {r : Reading} {below : Stack} (h : Sound files (r :: below)) (baseDir : Text) :
    Sound files ({ r with baseDir } :: below) :=
  ⟨h.recorded.replace rfl (h.recorded r List.mem_cons_self).2, h.apart⟩

/-- A file that is not being read may be put on top. -/
theorem push {i : Input} (h : i.stack.Sound i.opened) {canonical? : Option Text}
    (hopen : canonical?.any i.isOpen = false) (name content baseDir : Text) (encoding : Encoding) :
    (i.push name content canonical? baseDir encoding).stack.Sound
      (i.push name content canonical? baseDir encoding).opened := by
  refine ⟨Input.recordedIn_push h.recorded name content canonical? baseDir encoding, ?_⟩
  apply List.pairwise_cons.mpr
  refine ⟨?_, h.apart⟩
  intro file hfile canonical hcanonical hsame
  obtain ⟨r, hr, rfl⟩ := List.mem_map.mp hfile
  obtain rfl : canonical? = some canonical := hcanonical
  have hclosed : ∀ q ∈ i.stack, q.source.canonical? ≠ some canonical := by
    simpa [Input.isOpen] using hopen
  exact hclosed r hr hsame

end Sound

end Stack

namespace Session

/-- What holds of a session at all times. -/
structure Sound (s : Session) : Prop where
  /-- Every place that can be gone back to is on record. -/
  places : ∀ place ∈ s.places, place.Sound s.input.opened
  /-- The line breaks of files are unified. -/
  unified : ∀ file ∈ s.input.opened, '\r' ∉ file.content

variable {s : Session}

/-- A file that has been opened stays as it is. -/
theorem opened_perform (s : Session) (a : Action) :
    s.input.opened <+: (s.perform a).input.opened := by
  cases a with
  | openText name content baseDir => exact List.prefix_append _ _
  | openFile disk inclusion =>
    rw [perform]
    split
    · rename_i input hopen
      obtain ⟨encoding, octets, -, -, -, rfl⟩ :=
        Input.eq_push_of_tryOpen (Input.tryOpen_of_openFile hopen)
      exact List.prefix_append _ _
    · exact List.prefix_rfl
  | setBaseDir baseDir =>
    simp only [perform, Input.opened_setBaseDir, List.prefix_rfl]
  | pop | mark | reset | move => exact List.prefix_rfl

/-- Files that have been opened stay on record. -/
theorem opened_foldl_perform (s : Session) (actions : List Action) :
    s.input.opened <+: (actions.foldl perform s).input.opened := by
  induction actions generalizing s with
  | nil => exact List.prefix_rfl
  | cons a actions ih => exact (opened_perform s a).trans (ih (s.perform a))

namespace Sound

/-- A session is sound at its start. -/
theorem start (crossing : Bool) : (Session.start crossing).Sound := by
  refine ⟨?_, fun file hfile => absurd hfile List.not_mem_nil⟩
  intro place hplace
  obtain rfl := List.mem_singleton.mp hplace
  exact ⟨fun r hr => absurd hr List.not_mem_nil, List.Pairwise.nil⟩

/-- Opening a file that is not being read. -/
theorem push (h : s.Sound) {canonical? : Option Text}
    (hopen : canonical?.any s.input.isOpen = false) (name content baseDir : Text)
    (encoding : Encoding) (fromDisk : List Nat) :
    Sound ⟨s.input.push name content canonical? baseDir encoding, s.marks, fromDisk⟩ := by
  refine ⟨?_, ?_⟩
  · intro place hplace
    rcases List.mem_cons.mp hplace with rfl | hmark
    · exact (h.places _ List.mem_cons_self).push hopen name content baseDir encoding
    · exact (h.places place (List.mem_cons_of_mem _ hmark)).mono (List.prefix_append _ _)
  · intro file hfile
    rcases List.mem_append.mp hfile with hold | hnew
    · exact h.unified file hold
    · obtain rfl := List.mem_singleton.mp hnew
      exact Text.cr_not_mem_unifyBreaks content

/-- Reading on from a place that can be gone back to. -/
theorem moveTo (h : s.Sound) {place stack : Stack} (hplace : place ∈ s.places)
    (hreach : place.Reaches stack) : (s.moveTo stack).Sound := by
  refine ⟨?_, h.unified⟩
  intro other hother
  rcases List.mem_cons.mp hother with rfl | hmark
  · exact (h.places place hplace).reaches hreach
  · exact h.places other (List.mem_cons_of_mem _ hmark)

/-- Marking places that can be reached. -/
theorem mark (h : s.Sound) {found : List Stack}
    (hfound : ∀ place ∈ found, s.input.stack.Reaches place) :
    Sound { s with marks := s.marks ++ found } := by
  refine ⟨?_, h.unified⟩
  intro place hplace
  rw [Session.places, ← List.cons_append] at hplace
  rcases List.mem_append.mp hplace with hold | hnew
  · exact h.places place hold
  · exact (h.places _ List.mem_cons_self).reaches (hfound place hnew)

/-- Every action keeps a session sound. -/
theorem perform (h : s.Sound) (a : Action) : (s.perform a).Sound := by
  have hhere : s.input.stack ∈ s.places := List.mem_cons_self
  cases a with
  | openText name content baseDir => exact h.push rfl name content baseDir .utf8 s.fromDisk
  | openFile disk inclusion =>
    rw [Session.perform]
    split
    · rename_i input hopen
      obtain ⟨encoding, octets, -, -, hclosed, rfl⟩ :=
        Input.eq_push_of_tryOpen (Input.tryOpen_of_openFile hopen)
      exact h.push hclosed _ _ _ encoding _
    · exact h
  | setBaseDir baseDir =>
    rw [Session.perform, Input.setBaseDir]
    split
    · exact h
    · rename_i r below hs
      refine ⟨?_, h.unified⟩
      intro place hplace
      rcases List.mem_cons.mp hplace with rfl | hmark
      · have hstack := h.places _ hhere
        rw [hs] at hstack
        exact hstack.setBaseDir baseDir
      · exact h.places place (List.mem_cons_of_mem _ hmark)
  | pop =>
    have hreach : s.input.stack.Reaches (s.input.stack.pop?.getD s.input.stack) := by
      cases hpop : s.input.stack.pop? with
      | none => exact .refl _
      | some stack => exact Stack.reaches_pop? hpop
    exact h.moveTo hhere hreach
  | mark =>
    apply h.mark
    intro place hplace
    rw [List.mem_singleton.mp hplace]
    exact .refl _
  | reset index =>
    have hplace : s.marks[index]?.getD s.input.stack ∈ s.places := by
      cases hmark : s.marks[index]? with
      | none => exact hhere
      | some mark => exact List.mem_cons_of_mem _ (List.mem_of_getElem? hmark)
    exact h.moveTo hplace (.refl _)
  | move m =>
    have hfound : ∀ place ∈ (m.found? s.input.crossing s.input.stack).toList,
        s.input.stack.Reaches place :=
      fun _ hplace => Stack.Move.reaches_found? (Option.mem_toList.mp hplace)
    exact (h.mark hfound).moveTo List.mem_cons_self
      (m.reaches_apply s.input.crossing s.input.stack)

/-- A session is sound whatever has been done in it. -/
theorem run (crossing : Bool) (actions : List Action) : (run crossing actions).Sound :=
  run_induction actions (Sound.start crossing) fun _ a _ hs => hs.perform a

end Sound

/-- The files of some numbers are on record with their canonical names. -/
def NamedIn (files : List Source) (numbers : List Nat) : Prop :=
  ∀ n ∈ numbers, ∃ file, files[n]? = some file ∧ file.canonical?.isSome

/-- Files keep their canonical names when more are opened. -/
theorem NamedIn.mono {files more : List Source} {numbers : List Nat} (h : NamedIn files numbers)
    (hmore : files <+: more) : NamedIn more numbers := by
  intro n hn
  obtain ⟨file, hfile, hname⟩ := h n hn
  obtain ⟨hlt, hget⟩ := List.getElem?_eq_some_iff.mp hfile
  exact ⟨file, (List.prefix_iff_getElem?.mp hmore n hlt).trans (congrArg some hget), hname⟩

/-- A file that an action opens from a disk is recorded with its canonical name. -/
theorem namedIn_perform (h : NamedIn s.input.opened s.fromDisk) {a : Action}
    (ha : ∀ disk inclusion, a = .openFile disk inclusion → disk.Canonizes) :
    NamedIn (s.perform a).input.opened (s.perform a).fromDisk := by
  have hbefore := h.mono (opened_perform s a)
  cases a with
  | openFile disk inclusion =>
    rw [perform] at hbefore ⊢
    cases hopen : s.input.openFile disk inclusion with
    | error failure => exact h
    | ok input =>
      obtain ⟨encoding, octets, -, hread, -, rfl⟩ :=
        Input.eq_push_of_tryOpen (Input.tryOpen_of_openFile hopen)
      rw [hopen] at hbefore
      intro n hn
      rcases List.mem_append.mp hn with hold | hnew
      · exact hbefore n hold
      · obtain rfl := List.mem_singleton.mp hnew
        exact ⟨_, List.getElem?_concat_length, ha disk inclusion rfl _ octets hread⟩
  | openText | setBaseDir | pop | mark | reset | move => exact hbefore

/-- All files that a session has opened from disks are recorded with their canonical names. -/
theorem namedIn_run {crossing : Bool} {actions : List Action}
    (h : ∀ disk inclusion, .openFile disk inclusion ∈ actions → disk.Canonizes) :
    NamedIn (run crossing actions).input.opened (run crossing actions).fromDisk := by
  apply run_induction (motive := fun s => NamedIn s.input.opened s.fromDisk) actions
  · exact fun n hn => absurd hn List.not_mem_nil
  · intro s a ha hs
    apply namedIn_perform hs
    rintro disk inclusion rfl
    exact h disk inclusion ha

/-- Two files of a place that were read from disk have different canonical names. -/
theorem Sound.pairwise_canonical (h : s.Sound) (hnamed : NamedIn s.input.opened s.fromDisk)
    {place : Stack} (hplace : place ∈ s.places) :
    place.Pairwise fun q r => q.source.id ∈ s.fromDisk → r.source.id ∈ s.fromDisk →
      ∃ name other, q.source.canonical? = some name ∧ r.source.canonical? = some other ∧
        name ≠ other := by
  obtain ⟨hrecorded, hapart⟩ := h.places place hplace
  have hname : ∀ r ∈ place, r.source.id ∈ s.fromDisk → ∃ name, r.source.canonical? = some name := by
    intro r hr hid
    obtain ⟨file, hfile, hsome⟩ := hnamed _ hid
    obtain rfl := Option.some.inj (hfile.symm.trans (hrecorded r hr).1)
    exact Option.isSome_iff_exists.mp hsome
  refine (List.pairwise_map.mp hapart).imp_of_mem ?_
  intro q r hq hr hqr hqid hrid
  obtain ⟨name, hn⟩ := hname q hq hqid
  obtain ⟨other, ho⟩ := hname r hr hrid
  exact ⟨name, other, hn, ho, fun heq => hqr name hn (heq ▸ ho)⟩

/-- Whatever is done with an input, every place that has been reached or marked lies in a file on
record, where a character begins, so that the files can be looked up and their contents cut. What is
on record holds no carriage return and never changes, and the files of a place that were read from
disk have different canonical names if the disks know them. -/
theorem places_in_bounds (crossing : Bool) (actions : List Action) :
    let s := run crossing actions
    (∀ place ∈ s.places, (∀ a ∈ place.addresses, a.InBounds s.input.opened) ∧
      Address.unreadAll? s.input.opened place.addresses = some (place.flatMap Reading.unread) ∧
      Address.span? s.input.opened place.addresses = some place.span ∧
      ∀ stop ∈ s.places, Address.textTo? s.input.opened place.addresses stop.addresses =
        some (place.textTo stop)) ∧
      (∀ file ∈ s.input.opened, '\r' ∉ file.content) ∧
      (∀ more, s.input.opened <+: (run crossing (actions ++ more)).input.opened) ∧
      ((∀ disk inclusion, .openFile disk inclusion ∈ actions → disk.Canonizes) →
        ∀ place ∈ s.places, place.Pairwise fun q r =>
          q.source.id ∈ s.fromDisk → r.source.id ∈ s.fromDisk →
          ∃ name other, q.source.canonical? = some name ∧ r.source.canonical? = some other ∧
            name ≠ other) := by
  intro s
  have hsound : s.Sound := .run crossing actions
  refine ⟨?_, hsound.unified, ?_, ?_⟩
  · intro place hplace
    have hrecorded := (hsound.places place hplace).recorded
    exact ⟨hrecorded.inBounds, hrecorded.unreadAll?_addresses, hrecorded.span?_addresses,
      fun stop _ => hrecorded.textTo?_addresses stop⟩
  · intro more
    rw [run_append]
    exact opened_foldl_perform s more
  · intro hdisks place hplace
    exact hsound.pairwise_canonical (namedIn_run hdisks) hplace

/-- Going back brings an included file onto the stack again that was taken off, after it was opened
a second time. The file is left in front of a character of two bytes. -/
theorem places_in_bounds_of_reset :
    let disk := ((FileTree.empty.add "a" (.file (Encoding.encode "x\r\ny"))).add "b"
      (.file (Encoding.encode "éü"))).disk
    let s := run true [.openFile disk ⟨"a", none⟩, .openFile disk ⟨"b", none⟩, .move .next, .mark,
      .move (.advance 3), .openFile disk ⟨"b", none⟩, .openFile disk ⟨"a", none⟩, .reset 0]
    disk.Canonizes ∧ s.input.opened.map Source.content = ["x\ny".toList, "éü".toList, "éü".toList] ∧
      s.fromDisk = [0, 1, 2] ∧ s.input.stack.addresses = [⟨1, 2⟩, ⟨0, 0⟩] ∧
      (∀ a ∈ s.input.stack.addresses, a.InBounds s.input.opened) ∧
      s.input.stack.Pairwise fun q r => q.source.id ∈ s.fromDisk → r.source.id ∈ s.fromDisk →
        ∃ name other, q.source.canonical? = some name ∧ r.source.canonical? = some other ∧
          name ≠ other := by
  intro disk s
  obtain ⟨hplaces, -, -, hcanonical⟩ := places_in_bounds true [.openFile disk ⟨"a", none⟩,
    .openFile disk ⟨"b", none⟩, .move .next, .mark, .move (.advance 3),
    .openFile disk ⟨"b", none⟩, .openFile disk ⟨"a", none⟩, .reset 0]
  have hdisk : disk.Canonizes := FileTree.canonizes_disk _
  refine ⟨hdisk, by decide +kernel, by decide +kernel, by decide +kernel,
    (hplaces _ List.mem_cons_self).1, hcanonical ?_ _ List.mem_cons_self⟩
  intro other inclusion hmem
  have hsame : other = disk := by
    simp only [List.mem_cons, Action.openFile.injEq, reduceCtorEq, List.not_mem_nil, false_or,
      or_false] at hmem
    rcases hmem with h | h | h | h <;> exact h.1
  rw [hsame]
  exact hdisk

end Session

end ServerPages
