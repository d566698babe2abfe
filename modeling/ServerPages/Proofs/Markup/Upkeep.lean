import ServerPages.Proofs.Input.Address
import ServerPages.Proofs.Markup.Lockstep
import ServerPages.Proofs.Markup.Reading

/-!
# What a visitor upholds

A visitor sees only elements, so what its state says about the files that have been opened can be
kept up element by element. A scan offers for this that plain text lies in one file, holds no
beginning of an element, and comes from another file than plain text handed over just before; that
other elements begin in files on record; and that files are opened one after the other. What is
kept up so holds at the end of a scan and when it is broken off, and then the failure is placed in
one of the files.
-/

namespace ServerPages

theorem Stack.Reaches.ids_subset {s s' : Stack} (h : s.Reaches s') : s'.ids ⊆ s.ids := by
  have hids := (h.sources_suffix.map Source.id).subset
  simpa [Stack.ids, Function.comp_def] using hids

/-- A file that was read from disk, with unified line breaks. -/
def Source.ReadFrom (disk : Disk) (file : Source) : Prop :=
  ∃ encoding octets, disk.read file.name = .ok octets ∧
    file.content = (Encoding.decode encoding octets).unifyBreaks

/-- A failure that is placed in one of the files. -/
def Failure.PointsInto (files : List Source) (f : Failure) : Prop :=
  ∃ span, f.span? = some span ∧ span.PointsInto files

namespace Input

/-- An input that is being read, from files on record, none of them twice. -/
structure Regular (i : Input) : Prop where
  /-- A file is being read. -/
  reading : i.stack ≠ []
  /-- The files are on record. -/
  recorded : i.stack.RecordedIn i.opened
  /-- No file is on the stack twice. -/
  distinct : i.stack.ids.Nodup

namespace Regular

variable {i : Input}

/-- The files that are being read have been opened. -/
theorem id_lt (h : i.Regular) : ∀ n ∈ i.stack.ids, n < i.opened.length := by
  intro n hn
  obtain ⟨r, hr, rfl⟩ := List.mem_map.mp hn
  exact (List.getElem?_eq_some_iff.mp (h.recorded r hr).1).1

/-- Reading on keeps an input regular. -/
theorem reaches (h : i.Regular) {stack : Stack} (hreach : i.stack.Reaches stack) :
    Regular { i with stack } := by
  refine ⟨hreach.ne_nil h.reading, h.recorded.reaches hreach, ?_⟩
  have hids := (hreach.sources_suffix.map Source.id).sublist
  simp only [List.map_map] at hids
  exact hids.nodup h.distinct

/-- Opening a file keeps an input regular. -/
theorem push (h : i.Regular) (name content : Text) (canonical? : Option Text) (baseDir : Text)
    (encoding : Encoding) : (i.push name content canonical? baseDir encoding).Regular := by
  refine ⟨List.cons_ne_nil _ _,
    recordedIn_push h.recorded name content canonical? baseDir encoding, ?_⟩
  apply List.nodup_cons.mpr
  exact ⟨fun hmem => Nat.lt_irrefl _ (h.id_lt _ hmem), h.distinct⟩

/-- The root template alone. -/
theorem root (crossing : Bool) (name content : Text) (canonical? : Option Text) (baseDir : Text)
    (encoding : Encoding) :
    ((Input.empty crossing).push name content canonical? baseDir encoding).Regular := by
  refine ⟨List.cons_ne_nil _ _, recordedIn_push ?_ name content canonical? baseDir encoding, ?_⟩
  · exact fun r hr => absurd hr List.not_mem_nil
  · exact List.pairwise_singleton _ _

/-- Another base directory keeps an input regular. -/
theorem setBaseDir (h : i.Regular) (baseDir : Text) : (i.setBaseDir baseDir).Regular := by
  unfold Input.setBaseDir
  split
  · exact h
  · rename_i r below hstack
    have hrecorded := h.recorded
    have hdistinct := h.distinct
    rw [hstack] at hrecorded hdistinct
    have hsuffix := (hrecorded r List.mem_cons_self).2
    exact ⟨List.cons_ne_nil _ _, hrecorded.replace rfl hsuffix, hdistinct⟩

end Regular

end Input

/-- Plain text that has been read in the innermost file up to a place, and in which no element
begins. -/
structure Passage.EndsAt (p : Passage) (r : Reading) (below : Stack) : Prop where
  /-- Something has been read. -/
  nonempty : p.text ≠ []
  /-- It begins in the same file. -/
  start : p.start = { r with unread := p.text ++ r.unread } :: below
  /-- It ends at the place. -/
  stop : p.stop = r :: below
  /-- It stands in the file. -/
  suffix : p.text ++ r.unread <:+ r.source.content
  /-- No element begins inside. -/
  plain : ∀ t, t <:+ p.text → t ≠ [] → Cut.first? (t ++ r.unread) = none

/-- Plain text that is read goes on with plain text in front of it. -/
theorem Passage.EndsAt.of_plain {r : Reading} {t : Text} (hne : r.unread ≠ [])
    (hfirst : Cut.first? r.unread = none) (hsuffix : t ++ r.unread <:+ r.source.content)
    (hplain : ∀ u, u <:+ t → u ≠ [] → Cut.first? (u ++ r.unread) = none) (below : Stack) :
    EndsAt ⟨{ r with unread := t ++ r.unread } :: below,
      { r with unread := Cut.plainTail r.unread } :: below, t ++ Cut.plainHead r.unread⟩
      { r with unread := Cut.plainTail r.unread } below := by
  have hsplit := Cut.plainHead_append_plainTail r.unread
  have hwhole : t ++ Cut.plainHead r.unread ++ Cut.plainTail r.unread = t ++ r.unread := by
    rw [List.append_assoc, hsplit]
  refine ⟨?_, ?_, rfl, ?_, ?_⟩
  · obtain ⟨c, rest, hr⟩ := List.exists_cons_of_ne_nil hne
    rw [hr, Cut.plainHead]
    exact List.append_ne_nil_of_right_ne_nil t (List.cons_ne_nil _ _)
  · simp only [hwhole]
  · simp only [hwhole]
    exact hsuffix
  · intro u hu hu'
    rcases List.suffix_or_suffix_of_suffix hu (List.suffix_append t _) with hhead | ⟨front, rfl⟩
    · exact Cut.first?_of_suffix_plainHead hfirst hhead hu'
    · -- The text begins in front of what has been read now.
      simp only [List.append_assoc, hsplit]
      by_cases hfront : front = []
      · rw [hfront]
        exact hfirst
      · exact hplain front (List.suffix_append_self_iff.mp hu) hfront

/-- What a visitor upholds about the files that have been opened, as long as plain text comes next
from some files only. -/
structure Visitor.Upholds {σ : Type} (v : Visitor σ) (disk : Disk)
    (P : List Source → List Nat → σ → Prop) : Prop where
  /-- Fewer files may be left to read. -/
  fewer : ∀ {files ids fewer a}, P files ids a → fewer ⊆ ids → P files fewer a
  /-- Another file is opened, under the next number. -/
  opens : ∀ {files ids a} {file : Source}, P files ids a → file.id = files.length →
    file.ReadFrom disk → P (files ++ [file]) (file.id :: ids) a
  /-- Plain text is handed over, behind which no plain text of the same file comes next. -/
  text : ∀ {files ids others a stack p r below}, Passage.EndsAt p r below →
    files[r.source.id]? = some r.source → P files (r.source.id :: ids) a → others ⊆ ids →
    r.source.id ∉ others → P files others (v.accept disk stack p.element a).1
  /-- Another element is handed over. -/
  element : ∀ {files ids a stack} {e : Element}, e.kind ≠ .plainText → e.start ≠ [] →
    e.start.RecordedIn files → P files [] a → P files ids (v.accept disk stack e a).1

namespace Scan

variable {σ : Type} {v : Visitor σ} {disk : Disk} {P : List Source → List Nat → σ → Prop}

/-- A scan whose visitor has upheld something so far. -/
structure Kept (P : List Source → List Nat → σ → Prop) (s : Scan σ) : Prop where
  /-- The input is as it should be. -/
  input : s.input.Regular
  /-- Pending plain text ends where the input has arrived. -/
  pending : ∀ p, s.pending? = some p → s.sourceId? = s.input.stack.sourceId? ∧
    ∃ r below, s.input.stack = r :: below ∧ p.EndsAt r below
  /-- Plain text may come next from all files on the stack. -/
  state : P s.input.opened s.input.stack.ids s.state

/-- What is upheld at the start of a scan has been upheld so far. -/
theorem kept_start {i : Input} {a : σ} (hi : i.Regular) (ha : P i.opened i.stack.ids a) :
    (start i a).Kept P :=
  ⟨hi, fun p hp => absurd hp.symm (Option.some_ne_none p), ha⟩

/-- What holds at the end of an operation, and when it is broken off. -/
def Ends (P : List Source → List Nat → σ → Prop) (Q : Scan σ → Prop) :
    Except (Halt σ) (Scan σ) → Prop
  | .ok s => Q s
  | .error halt =>
    P halt.scan.input.opened [] halt.scan.state ∧
      halt.failure.PointsInto halt.scan.input.opened

/-- Operations one after the other end well if each of them does. -/
theorem Ends.bind {Q Q' : Scan σ → Prop} {x : Except (Halt σ) (Scan σ)}
    {f : Scan σ → Except (Halt σ) (Scan σ)} (hx : Ends P Q x) (hf : ∀ s, Q s → Ends P Q' (f s)) :
    Ends P Q' (x >>= f) := by
  cases x with
  | error halt => exact hx
  | ok s => exact hf s hx

/-- What holds at the end may be weakened. -/
theorem Ends.mono {Q Q' : Scan σ → Prop} {x : Except (Halt σ) (Scan σ)} (hx : Ends P Q x)
    (hQ : ∀ s, Q s → Q' s) : Ends P Q' x := by
  cases x with
  | error halt => exact hx
  | ok s => exact hQ s hx

/-- An operation may be followed by a change that always succeeds. -/
theorem Ends.map {Q Q' : Scan σ → Prop} {x : Except (Halt σ) (Scan σ)} {f : Scan σ → Scan σ}
    (hx : Ends P Q x) (hf : ∀ s, Q s → Q' (f s)) : Ends P Q' (x.map f) := by
  cases x with
  | error halt => exact hx
  | ok s => exact hf s hx

/-- What handing over an element leaves of a scan. A file that it opens lies on top. -/
structure Delivers (P : List Source → List Nat → σ → Prop) (ids : List Nat) (s : Scan σ)
    (e : Element) (s' : Scan σ) : Prop where
  input : s'.input.Regular
  opened : s.input.opened <+: s'.input.opened
  state : ∃ top : Stack, s'.input.stack = top ++ s.input.stack ∧
    P s'.input.opened (top.ids ++ ids) s'.state
  pending : s'.pending? = s.pending?
  sourceId : s'.sourceId? = s.sourceId?
  unmoved : e.inclusion? = none → s'.input = s.input

/-- Where an element includes no file, what is upheld holds of the same files. -/
theorem Delivers.state_of_unmoved {ids : List Nat} {s s' : Scan σ} {e : Element}
    (h : Delivers P ids s e s') (he : e.inclusion? = none) : P s.input.opened ids s'.state := by
  obtain ⟨top, htop, hstate⟩ := h.state
  rw [h.unmoved he] at htop hstate
  obtain rfl : top = [] := List.append_left_eq_self.mp htop.symm
  exact hstate

/-- What is upheld holds of all files on the stack. -/
theorem Delivers.state_ids {s s' : Scan σ} {e : Element}
    (h : Delivers P s.input.stack.ids s e s') :
    P s'.input.opened s'.input.stack.ids s'.state := by
  obtain ⟨top, htop, hstate⟩ := h.state
  rw [htop, Stack.ids, List.map_append]
  exact hstate

section Operations

variable (h : v.Upholds disk P)

include h

/-- Handing over an element opens a file at most. A refusal is placed at the element, and a file
that cannot be opened at the place where it was asked for. -/
theorem ends_deliver {s : Scan σ} {e : Element} {ids : List Nat} (hs : s.input.Regular)
    (hne : e.start ≠ []) (hstart : e.start.RecordedIn s.input.opened)
    (hstate : ∀ stack, P s.input.opened ids (v.accept disk stack e s.state).1) :
    Ends P (Delivers P ids s e) (s.deliver v disk e) := by
  have hstate' := hstate s.input.stack
  cases ha : v.accept disk s.input.stack e s.state with
  | mk state fault? =>
    rw [ha] at hstate'
    have hnone : P s.input.opened [] state := h.fewer hstate' (List.nil_subset _)
    have hkeep : ∀ log, Delivers P ids s e { s with state, log } :=
      fun log => ⟨hs, List.prefix_rfl, ⟨[], rfl, hstate'⟩, rfl, rfl, fun _ => rfl⟩
    cases fault? with
    | some fault =>
      simp only [deliver, Visitor.handle, ha]
      exact ⟨hnone, e.start.span, rfl, hstart.span_pointsInto hne⟩
    | none =>
      cases hfollows : v.follows with
      | false =>
        simp only [deliver, Visitor.handle, ha, hfollows, if_true]
        exact hkeep _
      | true =>
        cases hasked : e.inclusion? with
        | none =>
          simp only [deliver, Visitor.handle, ha, hfollows, hasked, if_true]
          exact hkeep _
        | some inclusion =>
          cases hopen : s.input.tryOpen disk inclusion with
          | error refusal =>
            simp only [deliver, Visitor.handle, ha, hfollows, hasked, Input.openFile, hopen]
            refine ⟨hnone, s.input.stack.span, ?_, hs.recorded.span_pointsInto hs.reading⟩
            rw [Failure.orAt, Stack.failure, if_neg hs.reading]
            rfl
          | ok opened =>
            obtain ⟨encoding, octets, -, hread, -, rfl⟩ := Input.eq_push_of_tryOpen hopen
            simp only [deliver, Visitor.handle, ha, hfollows, hasked, Input.openFile, hopen]
            exact ⟨hs.push _ _ _ _ _, List.prefix_append _ _,
              ⟨[_], rfl, h.opens hstate' rfl ⟨encoding, octets, hread, rfl⟩⟩, rfl, rfl,
              fun hno => absurd (hasked.symm.trans hno) (Option.some_ne_none inclusion)⟩

/-- Pending plain text is handed over where reading has gone on, after which plain text comes next
only from files other than its own. -/
theorem ends_flush {s : Scan σ} (hs : s.Kept P) {stack : Stack}
    (hreach : s.input.stack.Reaches stack) {ids : List Nat} (hids : ids ⊆ s.input.stack.ids)
    (hother : ∀ p, s.pending? = some p → ∀ n, s.input.stack.sourceId? = some n → n ∉ ids) :
    Ends P (fun s' => s'.input = (s.moveTo stack).input ∧ s'.pending? = none ∧
      s'.sourceId? = s.sourceId? ∧ P s.input.opened ids s'.state)
      ((s.moveTo stack).flush v disk) := by
  cases hp : s.pending? with
  | none =>
    have hflush : (s.moveTo stack).flush v disk = .ok (s.moveTo stack) := by
      rw [flush, show (s.moveTo stack).pending? = none from hp]
    rw [hflush]
    exact ⟨rfl, hp, rfl, h.fewer hs.state hids⟩
  | some p =>
    obtain ⟨-, r, below, hstack, hpassage⟩ := hs.pending p hp
    have hflush : (s.moveTo stack).flush v disk =
        deliver v disk { s.moveTo stack with pending? := none } p.element := by
      rw [flush, show (s.moveTo stack).pending? = some p from hp]
    have hrecorded := hs.input.recorded
    have hstate := hs.state
    rw [hstack] at hrecorded hstate hids
    have hn : r.source.id ∉ ids := hother p hp _ (by rw [hstack]; rfl)
    have hbelow : ids ⊆ Stack.ids below := by
      intro n hmem
      rcases List.mem_cons.mp (hids hmem) with rfl | hbelow
      · exact absurd hmem hn
      · exact hbelow
    have hstart : p.start.RecordedIn s.input.opened := by
      rw [hpassage.start]
      exact hrecorded.replace rfl hpassage.suffix
    have hne : p.start ≠ [] := by
      rw [hpassage.start]
      exact List.cons_ne_nil _ _
    have htext : ∀ place, P s.input.opened ids (v.accept disk place p.element s.state).1 :=
      fun _ => h.text hpassage (hrecorded r List.mem_cons_self).1 hstate hbelow hn
    have hends := ends_deliver h (s := { s.moveTo stack with pending? := none }) (e := p.element)
      (hs.input.reaches hreach) hne hstart htext
    rw [hflush]
    exact hends.mono fun s' hd =>
      ⟨hd.unmoved rfl, hd.pending, hd.sourceId, hd.state_of_unmoved rfl⟩

/-- Before another file is read, the plain text of the file that was used up is handed over. -/
theorem ends_enterFile {s : Scan σ} (hs : s.Kept P) :
    Ends P (fun s' => s'.Kept P ∧ s'.sourceId? = s'.input.stack.sourceId? ∧
      s'.input = s.settle.input) (s.settle.enterFile v disk) := by
  have hreach := Stack.reaches_settle s.input.stack
  by_cases hid : s.settle.input.stack.sourceId? = s.settle.sourceId?
  · rw [enterFile_eq_self hid]
    refine ⟨⟨hs.input.reaches hreach, ?_, h.fewer hs.state hreach.ids_subset⟩, hid.symm, rfl⟩
    intro p hp
    obtain ⟨hsource, r, below, hstack, hpassage⟩ := hs.pending p hp
    have hsame : s.input.stack.settle = s.input.stack :=
      Stack.settle_eq_self hs.input.reading hs.input.distinct (hid.trans hsource)
    exact ⟨hid.symm, r, below, hsame.trans hstack, hpassage⟩
  · rw [enterFile, if_neg hid]
    have hother : ∀ p, s.pending? = some p → ∀ n, s.input.stack.sourceId? = some n →
        n ∉ s.input.stack.settle.ids := by
      intro p hp n hn
      rcases Stack.settle_cases hs.input.distinct with hsame | hgone
      · exact absurd ((congrArg Stack.sourceId? hsame).trans (hs.pending p hp).1.symm) hid
      · exact hgone n hn
    refine (ends_flush h hs hreach hreach.ids_subset hother).map ?_
    rintro s' ⟨hinput, hpending, -, hstate⟩
    refine ⟨⟨?_, ?_, ?_⟩, rfl, hinput⟩
    · rw [hinput]
      exact hs.input.reaches hreach
    · intro p hp
      exact absurd (hpending.symm.trans hp) (Option.some_ne_none p).symm
    · rw [hinput]
      exact hstate

/-- Plain text that is read goes on with what is pending. -/
theorem kept_readText {s : Scan σ} (hs : s.Kept P)
    (hid : s.sourceId? = s.input.stack.sourceId?) (hu : s.input.stack.unread ≠ [])
    (hplain : Recognition.element? s.input.crossing s.input.stack = none) :
    s.readText.Kept P := by
  obtain ⟨r, below, hstack⟩ := List.exists_cons_of_ne_nil hs.input.reading
  rw [hstack] at hu hplain
  have hrecorded := hs.input.recorded r (by rw [hstack]; exact List.mem_cons_self)
  have hfirst : Cut.first? r.unread = none :=
    (Recognition.element?_eq_none_iff hrecorded.2).mp hplain
  have hsplit := Cut.plainHead_append_plainTail r.unread
  have hreach : s.input.stack.Reaches ({ r with unread := Cut.plainTail r.unread } :: below) := by
    rw [hstack]
    exact .within below ⟨_, hsplit⟩
  rw [readText_eq hstack hu]
  refine ⟨hs.input.reaches hreach, ?_, h.fewer hs.state hreach.ids_subset⟩
  intro p hp
  obtain rfl := Option.some.inj hp
  refine ⟨?_, _, below, rfl, ?_⟩
  · rw [hid, hstack]
    rfl
  · cases hpending : s.pending? with
    | none =>
      have hempty : ∀ u, u <:+ [] → u ≠ [] → Cut.first? (u ++ r.unread) = none :=
        fun u hnil hne => absurd (List.suffix_nil.mp hnil) hne
      have hends := Passage.EndsAt.of_plain (t := []) hu hfirst hrecorded.2 hempty below
      simp only [pendingStart, pendingText, hpending, hstack]
      exact hends
    | some before =>
      obtain ⟨-, q, others, hsame, hbefore⟩ := hs.pending before hpending
      obtain ⟨rfl, rfl⟩ := List.cons.inj (hstack.symm.trans hsame)
      have hends := Passage.EndsAt.of_plain hu hfirst hbefore.suffix hbefore.plain below
      simp only [pendingStart, pendingText, hpending, Option.map_some, Option.getD_some]
      rw [hbefore.start]
      exact hends

/-- Behind an element other than plain text, plain text may come next from every file. -/
theorem ends_element {s : Scan σ} {e : Element} (hs : s.input.Regular) (hp : s.pending? = none)
    (hstate : P s.input.opened [] s.state) (hkind : e.kind ≠ .plainText) (hne : e.start ≠ [])
    (hstart : e.start.RecordedIn s.input.opened) :
    Ends P (fun s' => s'.Kept P ∧ s'.pending? = none ∧ s.input.opened <+: s'.input.opened)
      (s.deliver v disk e) := by
  have hnext : ∀ stack, P s.input.opened s.input.stack.ids (v.accept disk stack e s.state).1 :=
    fun _ => h.element hkind hne hstart hstate
  refine (ends_deliver h hs hne hstart hnext).mono ?_
  intro s' hd
  have hnone : s'.pending? = none := hd.pending.trans hp
  refine ⟨⟨hd.input, ?_, hd.state_ids⟩, hnone, hd.opened⟩
  intro p hsome
  exact absurd (hnone.symm.trans hsome) (Option.some_ne_none p).symm

/-- The body of a method is read on behind its head. -/
theorem ends_readMethodBody {s : Scan σ} (hs : s.Kept P) (hp : s.pending? = none) {head : Element}
    (hne : head.stop ≠ []) (hstop : head.stop.RecordedIn s.input.opened) :
    Ends P (Kept P) (s.readMethodBody v disk head) := by
  have hnone : P s.input.opened [] s.state := h.fewer hs.state (List.nil_subset _)
  unfold readMethodBody
  split
  · rename_i failure hbody
    exact ⟨hnone, _, Recognition.span?_of_methodBody hbody,
      hs.input.recorded.span_pointsInto hs.input.reading⟩
  · rename_i body rest hbody
    obtain ⟨hkind, hstart, hreach⟩ := Recognition.readsOn_methodBody hbody
    rw [← hstart] at hne hstop
    have hends := ends_element h (s := s.moveTo rest) (hs.input.reaches hreach) hp hnone hkind hne
      hstop
    exact hends.mono fun s' hd => hd.1

/-- Taking an element upholds what has been upheld so far. -/
theorem ends_takeElement {s : Scan σ} (hs : s.Kept P) {e : Element} {rest : Stack}
    (he : Recognition.ReadsOn s.input.stack (.ok (e, rest))) :
    Ends P (Kept P) (s.takeElement v disk e rest) := by
  obtain ⟨hkind, hstart, hstop, hrest⟩ := he
  have hflushed := ends_flush h hs hrest (List.nil_subset _) fun _ _ _ _ => List.not_mem_nil
  refine hflushed.bind ?_
  rintro flushed ⟨hinput, hpending, -, hstate⟩
  have hregular : flushed.input.Regular := by
    rw [hinput]
    exact hs.input.reaches hrest
  have hopened : flushed.input.opened = s.input.opened := by
    rw [hinput]
    rfl
  have hdelivered := ends_element h hregular hpending (hopened ▸ hstate) hkind
    (hstart.ne_nil hs.input.reading) (hopened ▸ hs.input.recorded.reaches hstart)
  refine hdelivered.bind ?_
  rintro delivered ⟨hkept, hnone, hmore⟩
  split
  · have hrecorded := hs.input.recorded.reaches hstop
    rw [← hopened] at hrecorded
    exact ends_readMethodBody h hkept hnone (hstop.ne_nil hs.input.reading) (hrecorded.mono hmore)
  · exact hkept

/-- A step upholds what has been upheld so far. -/
theorem ends_step {s : Scan σ} (hs : s.Kept P) (hu : s.settle.input.stack.unread ≠ []) :
    Ends P (Kept P) (s.settle.step v disk) := by
  refine (ends_enterFile h hs).bind ?_
  rintro entered ⟨hkept, hid, hinput⟩
  rw [← hinput] at hu
  split
  · rename_i hplain
    exact kept_readText h hkept hid hu hplain
  · rename_i failure hfailed
    obtain ⟨place, hreach, hspan⟩ := Recognition.readsOn_element? hfailed
    exact ⟨h.fewer hkept.state (List.nil_subset _), _, hspan,
      (hkept.input.recorded.reaches hreach).span_pointsInto (hreach.ne_nil hkept.input.reading)⟩
  · rename_i e rest hfound
    exact ends_takeElement h hkept (Recognition.readsOn_element? hfound)

/-- What a visitor upholds at the beginning of a scan holds at its end or when it is broken off, and
then the failure is placed in a file that has been opened. -/
theorem ends_run {s : Scan σ} (hs : s.Kept P) :
    Ends P (fun last => P last.input.opened [] last.state) (s.run v disk) := by
  fun_induction run v disk s with
  | case1 s hu =>
    have hreach := Stack.reaches_settle s.input.stack
    have hflushed := ends_flush h hs hreach (List.nil_subset _) fun _ _ _ _ => List.not_mem_nil
    refine hflushed.mono ?_
    rintro last ⟨hinput, -, -, hstate⟩
    rw [hinput]
    exact hstate
  | case2 s hu halt hstep =>
    have hends := ends_step h hs hu
    rw [hstep] at hends
    exact hends
  | case3 s hu s' hstep ih =>
    have hends := ends_step h hs hu
    rw [hstep] at hends
    exact ih hends

end Operations

end Scan

end ServerPages
