import ServerPages.Proofs.Markup.Extension
import ServerPages.Proofs.Markup.Lockstep

/-!
# Scans of templates that go on

The second of two scans tracks the first one if its root template goes on where that of the first
one ends, all else is the same, and what both have taken so far is related. Which relation that is
depends on the visitor. It has to survive what a scan does: reading plain text, handing it over, and
handing over another element. Then every step of the first scan is a step of the second one, apart
from the last plain text: that may be longer in the second template, as if a piece of it had been
read before the rest. So the second scan arrives where the additional text begins, or without such
text comes to the same end or fails with the same fault.
-/

namespace ServerPages

namespace Cut

/-- Plain text that goes on behind the end of a text is read as far as it goes. -/
theorem plainHead_append_cases {t : Text} (ht : t ≠ []) (u : Text) :
    plainHead (t ++ u) = plainHead t ∨
      ∃ c rest, u = c :: rest ∧ c ≠ '<' ∧ plainTail t = [] ∧
        plainHead (t ++ u) = t ++ plainHead u := by
  obtain ⟨a, t, rfl⟩ := List.exists_cons_of_ne_nil ht
  by_cases htail : (t.takeWhile (· ≠ '<')).length = t.length
  · have hall : t.takeWhile (· ≠ '<') = t :=
      (List.takeWhile_prefix _).eq_of_length htail
    cases u with
    | nil => exact .inl (by rw [List.append_nil])
    | cons c rest =>
      by_cases hc : c = '<'
      · left
        simp only [plainHead, List.cons_append, List.takeWhile_append, if_true, hc, hall]
        simp
      · right
        refine ⟨c, rest, rfl, hc, ?_, ?_⟩
        · have hsplit := List.takeWhile_append_dropWhile (p := (· ≠ '<')) (l := t)
          rw [hall] at hsplit
          exact List.append_right_eq_self.mp hsplit
        · simp only [plainHead, List.cons_append, List.takeWhile_append, if_true, hall]
          simp [hc]
  · left
    simp only [plainHead, List.cons_append, List.takeWhile_append, htail, if_false]

/-- What is left behind plain text is known from the plain text. -/
theorem plainTail_eq {t front rest : Text} (ht : t = front ++ rest) (h : plainHead t = front) :
    plainTail t = rest := by
  have hsplit := plainHead_append_plainTail t
  rw [h] at hsplit
  exact List.append_cancel_left (hsplit.trans ht)

/-- Plain text that ends before more text comes leaves that text behind as well. -/
theorem plainTail_append {t u : Text} (h : plainHead (t ++ u) = plainHead t) :
    plainTail (t ++ u) = plainTail t ++ u := by
  refine plainTail_eq ?_ h
  rw [← List.append_assoc, plainHead_append_plainTail]

end Cut

namespace Stack

variable {root : Source} {more : Text}

/-- Some file is being read. -/
theorem GoesOn.ne_nil {s : Stack} (h : s.GoesOn root more) : s ≠ [] := by
  rintro rfl
  exact h

/-- Files that are used up are taken off on both sides. -/
theorem settle_extend (root : Source) (more : Text) (s : Stack) :
    (s.extend root more).settle = s.settle.extend root more := by
  fun_induction settle s with
  | case1 => rfl
  | case2 r => rfl
  | case3 r next below hr ih =>
    obtain ⟨next', below', hcons⟩ := exists_extend_cons root more next below
    rw [extend, hcons, settle, if_pos hr, ← hcons]
    exact ih
  | case4 r next below hr =>
    obtain ⟨next', below', hcons⟩ := exists_extend_cons root more next below
    rw [extend, hcons, settle, if_neg hr]

/-- Taking off files that are used up keeps the root template. -/
theorem GoesOn.settle {s : Stack} (h : s.GoesOn root more) : s.settle.GoesOn root more := by
  fun_induction Stack.settle s with
  | case1 => exact h
  | case2 r => exact h
  | case3 r next below hr ih => exact ih h.2
  | case4 r next below hr => exact h

/-- Where text is left, it is left with more text behind it. -/
theorem GoesOn.unread_extend_ne_nil {s : Stack} (h : s.GoesOn root more) (hu : s.unread ≠ []) :
    (s.extend root more).unread ≠ [] := by
  cases s with
  | nil => exact h.elim
  | cons r below =>
    obtain ⟨r', below', behind, hl⟩ := exists_local h
    rw [show extend root more (r :: below) = _ from hl.extend_eq r.unread]
    exact List.append_ne_nil_of_left_ne_nil hu behind

/-- Paths are seen from the same directory. -/
theorem resolve_extend (s : Stack) (path : Text) :
    (s.extend root more).resolve path = s.resolve path := by
  fun_cases extend root more s with
  | case1 => rfl
  | case2 r => rfl
  | case3 r next below => rfl

/-- The innermost file has the same number. -/
theorem GoesOn.sourceId?_extend {s : Stack} (h : s.GoesOn root more) :
    (s.extend root more).sourceId? = s.sourceId? := by
  fun_cases extend root more s with
  | case1 => rfl
  | case2 r => exact congrArg some h.2.id
  | case3 r next below => rfl

/-- The same files are being read. -/
theorem GoesOn.map_canonical {s : Stack} (h : s.GoesOn root more) :
    (s.extend root more).map (·.source.canonical?) = s.map (·.source.canonical?) := by
  fun_induction extend root more s with
  | case1 => rfl
  | case2 r => rw [List.map_singleton, List.map_singleton, h.2.canonical]
  | case3 r next below ih => rw [List.map_cons, List.map_cons, ih h.2]

end Stack

namespace Input

variable {root : Source} {more : Text} {i j : Input}

/-- The second input is the first one with another root template and more text. -/
structure Tracks (root : Source) (more : Text) (i j : Input) : Prop where
  /-- The same files are being read, apart from the root template. -/
  stack : j.stack = i.stack.extend root more
  /-- The root template goes on. -/
  goesOn : i.stack.GoesOn root more
  /-- Elements may reach over the ends of files on both sides or on neither. -/
  crossing : j.crossing = i.crossing
  /-- The next file gets the same number. -/
  opened : j.opened.length = i.opened.length

/-- A file is being read on both sides or on neither. -/
theorem Tracks.isOpen (h : Tracks root more i j) (canonical : Text) :
    j.isOpen canonical = i.isOpen canonical := by
  have hany : ∀ s : Stack, s.any (·.source.canonical? = some canonical) =
      (s.map (·.source.canonical?)).any (· = some canonical) := by
    intro s
    rw [List.any_map]
    rfl
  rw [Input.isOpen, Input.isOpen, hany, hany, h.stack, h.goesOn.map_canonical]

/-- The same file may be put on top on both sides. -/
theorem Tracks.push (h : Tracks root more i j) (name content : Text) (canonical? : Option Text)
    (baseDir : Text) (encoding : Encoding) :
    Tracks root more (i.push name content canonical? baseDir encoding)
      (j.push name content canonical? baseDir encoding) := by
  obtain ⟨r, below, hcons⟩ := List.exists_cons_of_ne_nil h.goesOn.ne_nil
  have hgoesOn := h.goesOn
  have hstack := h.stack
  rw [hcons] at hgoesOn hstack
  refine ⟨?_, ?_, h.crossing, ?_⟩
  · simp only [Input.push, h.opened, hstack, hcons, Stack.extend]
  · simp only [Input.push, hcons]
    exact ⟨List.suffix_refl _, hgoesOn⟩
  · simp only [Input.push, List.length_append, h.opened, List.length_singleton]

/-- The innermost file has the same number on both sides. -/
theorem Tracks.sourceId? (h : Tracks root more i j) :
    j.stack.sourceId? = i.stack.sourceId? := by
  rw [h.stack, h.goesOn.sourceId?_extend]

/-- Paths are seen from the same directory on both sides. -/
theorem Tracks.resolve (h : Tracks root more i j) (path : Text) :
    i.stack.resolve path = j.stack.resolve path := by
  rw [h.stack, Stack.resolve_extend]

/-- A file is opened on both sides, or refused on both for the same reason. -/
theorem Tracks.tryOpen (h : Tracks root more i j) (disk : Disk) (inclusion : Inclusion) :
    match i.tryOpen disk inclusion with
    | .ok i' => ∃ j', j.tryOpen disk inclusion = .ok j' ∧ Tracks root more i' j'
    | .error refusal => j.tryOpen disk inclusion = .error refusal := by
  have hopen : j.isOpen = i.isOpen := funext h.isOpen
  have hlength : j.stack.length = i.stack.length := by rw [h.stack, Stack.length_extend]
  simp only [Input.tryOpen, ← h.resolve, hlength, hopen]
  cases encodingOf inclusion with
  | error refusal => rfl
  | ok encoding =>
    by_cases hd : maxDepth ≤ i.stack.length
    · simp only [if_pos hd]
    · simp only [if_neg hd]
      cases disk.read (i.stack.resolve inclusion.path) with
      | error error => rfl
      | ok octets =>
        by_cases ho : (disk.canonical? (i.stack.resolve inclusion.path)).any i.isOpen = true
        · simp only [if_pos ho]
        · simp only [if_neg ho]
          exact ⟨_, rfl, h.push ..⟩

end Input

/-- What a scan has taken so far. -/
structure Taken (σ : Type) where
  /-- The state of the visitor. -/
  state : σ
  /-- The plain text that has not been handed over. -/
  text? : Option Text
  /-- The file to which that plain text belongs. -/
  sourceId? : Option Nat

/-- What a scan has taken so far, wherever it has arrived. -/
def Scan.taken {σ : Type} (s : Scan σ) : Taken σ :=
  ⟨s.state, s.pending?.map Passage.text, s.sourceId?⟩

/-- What two scans with the same visitor have taken stays related as long as both read the same. -/
structure Visitor.Keeps {σ : Type} (v : Visitor σ) (disk : Disk) (R : Taken σ → Taken σ → Prop) :
    Prop where
  /-- Elements that say the same are both taken, or both refused for the same reason. -/
  accept : ∀ {a b : Taken σ} {stack stack' : Stack} {e e' : Element}, R a b → a.text? = none →
    b.text? = none → e.event = e'.event →
    (∀ path, stack.resolve path = stack'.resolve path) →
    (v.accept disk stack e a.state).2 = (v.accept disk stack' e' b.state).2 ∧
      R { a with state := (v.accept disk stack e a.state).1 }
        { b with state := (v.accept disk stack' e' b.state).1 }
  /-- The same plain text is read on both sides. -/
  read : ∀ {a b : Taken σ}, R a b → ∀ chars,
    R { a with text? := some (a.text?.getD [] ++ chars) }
      { b with text? := some (b.text?.getD [] ++ chars) }
  /-- The pending text is handed over on both sides. -/
  flush : ∀ {s t : Scan σ}, R s.taken t.taken →
    ∃ s' t', s.flush v disk = .ok s' ∧ t.flush v disk = .ok t' ∧ R s'.taken t'.taken
  /-- The same file is entered on both sides. -/
  enterFile : ∀ {s t : Scan σ}, R s.taken t.taken →
    t.input.stack.sourceId? = s.input.stack.sourceId? →
    ∃ s' t', s.enterFile v disk = .ok s' ∧ t.enterFile v disk = .ok t' ∧ R s'.taken t'.taken

namespace Scan

section Operations

variable {σ : Type} {v : Visitor σ} {disk : Disk} {s : Scan σ} {e : Element}

/-- An element that the visitor refuses breaks the scan off with the fault of the refusal. -/
theorem deliver_eq_error {state : σ} {fault : Fault}
    (ha : v.accept disk s.input.stack e s.state = (state, some fault)) :
    ∃ halt, s.deliver v disk e = .error halt ∧ halt.failure.fault = fault := by
  simp only [deliver, Visitor.handle, ha]
  exact ⟨_, rfl, rfl⟩

/-- A file that cannot be opened breaks the scan off. -/
theorem deliver_of_refusal {state : σ} {inclusion : Inclusion} {refusal : Refusal}
    (ha : v.accept disk s.input.stack e s.state = (state, none)) (hv : v.follows = true)
    (hi : e.inclusion? = some inclusion) (ho : s.input.tryOpen disk inclusion = .error refusal) :
    ∃ halt, s.deliver v disk e = .error halt ∧
      halt.failure.fault = .resource inclusion.path refusal := by
  simp only [deliver, Visitor.handle, ha, hv, hi, Input.openFile, ho]
  exact ⟨_, rfl, rfl⟩

/-- A scan whose next step fails is broken off there. -/
theorem run_of_step_error {halt : Halt σ} (h : s.settle.input.stack.unread ≠ [])
    (hs : s.settle.step v disk = .error halt) : s.run v disk = .error halt := by
  rw [run, dif_neg h]
  split
  · rename_i halt' he
    rw [hs] at he
    exact he.symm
  · rename_i next he
    rw [hs] at he
    cases he

/-- A scan may begin by taking off the files that are used up. -/
theorem run_settle : s.settle.run v disk = s.run v disk := by
  have hsettle : s.settle.settle = s.settle := by
    simp only [settle, moveTo, Stack.settle_settle]
  by_cases hu : s.settle.input.stack.unread = []
  · rw [run_of_unread hu, run_of_unread (by rw [hsettle]; exact hu), hsettle]
  · have hu' : s.settle.settle.input.stack.unread ≠ [] := by rwa [hsettle]
    cases hs : s.settle.step v disk with
    | error halt => rw [run_of_step_error hu hs, run_of_step_error hu' (by rw [hsettle, hs])]
    | ok s' => rw [run_of_step hu hs, run_of_step hu' (by rw [hsettle, hs])]

/-- Handing over the pending text leaves none pending. -/
theorem pending_of_flush {s' : Scan σ} (h : s.flush v disk = .ok s') : s'.pending? = none := by
  unfold flush at h
  split at h
  · rename_i hp
    obtain rfl := Except.ok.inj h
    exact hp
  · obtain ⟨-, hp, -, -⟩ := deliver_cases h
    exact hp

/-- Entering a file leaves the input, and the file is then the one that is being read. -/
theorem enterFile_cases {s' : Scan σ} (h : s.enterFile v disk = .ok s') :
    s'.input = s.input ∧ s'.sourceId? = s.input.stack.sourceId? := by
  by_cases hid : s.input.stack.sourceId? = s.sourceId?
  · rw [enterFile_eq_self hid] at h
    obtain rfl := Except.ok.inj h
    exact ⟨rfl, hid.symm⟩
  · rw [enterFile, if_neg hid] at h
    obtain ⟨flushed, hflushed, he⟩ := bind_eq_ok h
    obtain rfl := Except.ok.inj he
    have hinput := input_of_flush hflushed
    exact ⟨hinput, congrArg (·.stack.sourceId?) hinput⟩

end Operations

variable {σ : Type} {v : Visitor σ} {disk : Disk} {R : Taken σ → Taken σ → Prop} {root : Source}
  {more : Text} {s t : Scan σ}

/-- The second scan reads the first template with more text, and what it has taken so far is related
to what the first one has taken. -/
structure Tracks (R : Taken σ → Taken σ → Prop) (root : Source) (more : Text) (s t : Scan σ) :
    Prop where
  /-- The root template goes on. -/
  input : Input.Tracks root more s.input t.input
  /-- What has been taken is related. -/
  taken : R s.taken t.taken

/-- What an operation gives on both sides. With more text, a fault may vanish. -/
def TracksTo (R : Taken σ → Taken σ → Prop) (root : Source) (more : Text)
    (x y : Except (Halt σ) (Scan σ)) : Prop :=
  match x with
  | .ok s => ∃ t, y = .ok t ∧ Tracks R root more s t
  | .error halt =>
    more = [] → ∃ halt', y = .error halt' ∧ halt'.failure.fault = halt.failure.fault

/-- Both scans may go on at another place. -/
theorem Tracks.moveTo (h : Tracks R root more s t) {rest : Stack} (hrest : rest.GoesOn root more) :
    Tracks R root more (s.moveTo rest) (t.moveTo (rest.extend root more)) :=
  ⟨⟨rfl, hrest, h.input.crossing, h.input.opened⟩, h.taken⟩

/-- Operations one after the other are tracked if each of them is. -/
theorem TracksTo.bind {x y : Except (Halt σ) (Scan σ)}
    {f g : Scan σ → Except (Halt σ) (Scan σ)} (h : TracksTo R root more x y)
    (hfg : ∀ s t, x = .ok s → y = .ok t → Tracks R root more s t →
      TracksTo R root more (f s) (g t)) :
    TracksTo R root more (x >>= f) (y >>= g) := by
  cases x with
  | ok s =>
    obtain ⟨t, rfl, ht⟩ := h
    exact hfg s t rfl rfl ht
  | error halt =>
    intro hm
    obtain ⟨halt', rfl, hfault⟩ := h hm
    exact ⟨halt', rfl, hfault⟩

/-- The scan that has read the first part of a plain text. -/
def readFront (s : Scan σ) (r : Reading) (below : Stack) (front rest : Text) : Scan σ :=
  let stop : Stack := { r with unread := rest } :: below
  { s with
    input := { s.input with stack := stop }
    pending? := some ⟨s.pendingStart, stop, s.pendingText ++ front⟩ }

/-- A plain text may be read in two parts. -/
theorem readText_readFront {r : Reading} {below : Stack} {front rest : Text}
    (hs : s.input.stack = { r with unread := front ++ rest } :: below) (hrest : rest ≠ [])
    (h : Cut.plainHead (front ++ rest) = front ++ Cut.plainHead rest) :
    (s.readFront r below front rest).readText = s.readText := by
  have htail : Cut.plainTail (front ++ rest) = Cut.plainTail rest := by
    refine Cut.plainTail_eq ?_ h
    rw [List.append_assoc, Cut.plainHead_append_plainTail]
  have hread := readText_eq hs (List.append_ne_nil_of_right_ne_nil front hrest)
  have hread' := readText_eq (s := s.readFront r below front rest) rfl hrest
  rw [hread, hread']
  simp only [h, htail, readFront, pendingStart, pendingText, Option.map_some, Option.getD_some,
    List.append_assoc]

/-- What has been taken once plain text has been read. -/
theorem taken_readText {r : Reading} {below : Stack} (hs : s.input.stack = r :: below)
    (hu : r.unread ≠ []) :
    s.readText.taken =
      { s.taken with text? := some (s.taken.text?.getD [] ++ Cut.plainHead r.unread) } := by
  rw [readText_eq hs hu]
  rfl

/-- Taking off the files that are used up is tracked. -/
theorem Tracks.settle (h : Tracks R root more s t) : Tracks R root more s.settle t.settle := by
  have hsettle : t.settle = t.moveTo (s.input.stack.settle.extend root more) := by
    rw [Scan.settle, h.input.stack, Stack.settle_extend]
  rw [hsettle]
  exact h.moveTo h.input.goesOn.settle

/-- Where the first scan has text left to read, so has the second one. -/
theorem Tracks.unread_settle_ne_nil (h : Tracks R root more s t)
    (hu : s.settle.input.stack.unread ≠ []) : t.settle.input.stack.unread ≠ [] := by
  rw [h.settle.input.stack]
  exact h.settle.input.goesOn.unread_extend_ne_nil hu

section Simulation

variable (hv : v.Keeps disk R)

include hv

/-- Elements that say the same are handed over on both sides, with no text pending, and a file that
they ask for is opened on both sides or on neither. -/
theorem tracks_deliver (h : Tracks R root more s t) (hs : s.pending? = none)
    (ht : t.pending? = none) {e e' : Element} (he : e.event = e'.event) :
    TracksTo R root more (s.deliver v disk e) (t.deliver v disk e') := by
  have hnone : s.taken.text? = none := Option.map_eq_none_iff.mpr hs
  have hnone' : t.taken.text? = none := Option.map_eq_none_iff.mpr ht
  have hinclusion : e.inclusion? = e'.inclusion? := congrArg Event.inclusion? he
  have haccept : (v.accept disk s.input.stack e s.state).2 =
        (v.accept disk t.input.stack e' t.state).2 ∧
      R { s.taken with state := (v.accept disk s.input.stack e s.state).1 }
        { t.taken with state := (v.accept disk t.input.stack e' t.state).1 } :=
    hv.accept h.taken hnone hnone' he h.input.resolve
  cases ha : v.accept disk s.input.stack e s.state with
  | mk state fault? =>
    cases ha' : v.accept disk t.input.stack e' t.state with
    | mk state' fault?' =>
      rw [ha, ha'] at haccept
      obtain ⟨rfl, htaken⟩ := haccept
      cases fault? with
      | some fault =>
        obtain ⟨halt, hhalt, hf⟩ := deliver_eq_error ha
        obtain ⟨halt', hhalt', hf'⟩ := deliver_eq_error ha'
        rw [hhalt]
        exact fun _ => ⟨halt', hhalt', hf'.trans hf.symm⟩
      | none =>
        -- Both visitors take the element, and a file may have to be opened for it.
        by_cases hstay : v.follows = true → e.inclusion? = none
        · obtain ⟨log, hlog⟩ := deliver_of_accept ha (.inl ⟨rfl, hstay⟩)
          obtain ⟨log', hlog'⟩ := deliver_of_accept ha'
            (.inl ⟨rfl, fun hf => hinclusion.symm.trans (hstay hf)⟩)
          rw [hlog]
          exact ⟨_, hlog', h.input, htaken⟩
        · obtain ⟨hfollows, hsome⟩ := Classical.not_imp.mp hstay
          obtain ⟨inclusion, hi⟩ := Option.ne_none_iff_exists'.mp hsome
          have hi' : e'.inclusion? = some inclusion := hinclusion.symm.trans hi
          have hopen := h.input.tryOpen disk inclusion
          cases ho : s.input.tryOpen disk inclusion with
          | ok i =>
            rw [ho] at hopen
            obtain ⟨j, hj, htracks⟩ := hopen
            obtain ⟨log, hlog⟩ := deliver_of_accept ha (.inr ⟨inclusion, hfollows, hi, ho⟩)
            obtain ⟨log', hlog'⟩ := deliver_of_accept ha' (.inr ⟨inclusion, hfollows, hi', hj⟩)
            rw [hlog]
            exact ⟨_, hlog', htracks, htaken⟩
          | error refusal =>
            rw [ho] at hopen
            obtain ⟨halt, hhalt, hf⟩ := deliver_of_refusal ha hfollows hi ho
            obtain ⟨halt', hhalt', hf'⟩ := deliver_of_refusal ha' hfollows hi' hopen
            rw [hhalt]
            exact fun _ => ⟨halt', hhalt', hf'.trans hf.symm⟩

/-- The body of a method behind its head, with no text pending. -/
theorem tracks_readMethodBody (h : Tracks R root more s t) (hs : s.pending? = none)
    (ht : t.pending? = none) {head head' : Element} (hstop : head.stop = s.input.stack)
    (hstop' : head'.stop = t.input.stack) (he : head.event = head'.event) :
    TracksTo R root more (s.readMethodBody v disk head) (t.readMethodBody v disk head') := by
  have hagrees := Recognition.agrees_methodBody s.input.crossing h.input.goesOn hstop
    (hstop'.trans h.input.stack) (congrArg Event.attributes he).symm
  rw [readMethodBody, readMethodBody, h.input.crossing, h.input.stack]
  cases hb : Recognition.methodBody s.input.crossing head s.input.stack with
  | error failure =>
    rw [hb] at hagrees
    intro hm
    obtain ⟨failure', hf', hfault⟩ := hagrees hm
    rw [hf']
    exact ⟨_, rfl, hfault⟩
  | ok found =>
    obtain ⟨body, rest⟩ := found
    rw [hb] at hagrees
    obtain ⟨hgoesOn, body', hb', hevent⟩ := hagrees
    rw [hb']
    exact tracks_deliver hv (h.moveTo hgoesOn) hs ht hevent.symm

/-- An element is handed over behind the pending text, and the body of a method behind its head. -/
theorem tracks_takeElement (h : Tracks R root more s t) {e e' : Element} {rest : Stack}
    (hrest : rest.GoesOn root more) (he : e.event = e'.event) (ha : e.ArrivesAt rest)
    (ha' : e'.ArrivesAt (rest.extend root more)) :
    TracksTo R root more (s.takeElement v disk e rest)
      (t.takeElement v disk e' (rest.extend root more)) := by
  have hmoved := h.moveTo hrest
  obtain ⟨flushed, flushed', hflush, hflush', htaken⟩ := hv.flush hmoved.taken
  have hinput := input_of_flush hflush
  have hinput' := input_of_flush hflush'
  have hpending := pending_of_flush hflush
  have hpending' := pending_of_flush hflush'
  have hflushed : Tracks R root more flushed flushed' := by
    refine ⟨?_, htaken⟩
    rw [hinput, hinput']
    exact hmoved.input
  rw [takeElement, takeElement, hflush, hflush']
  refine (tracks_deliver hv hflushed hpending hpending' he).bind fun s' t' hs' ht' htracks => ?_
  have hkind : e.kind = e'.kind := congrArg Event.kind he
  by_cases hk : e.kind = .methodHead
  · have hk' : e'.kind = .methodHead := hkind.symm.trans hk
    simp only [if_pos hk, if_pos hk']
    refine tracks_readMethodBody hv htracks ((deliver_cases hs').2.1.trans hpending)
      ((deliver_cases ht').2.1.trans hpending') ?_ ?_ he
    · rw [input_of_methodHead hk hs', hinput]
      exact ha (.inr hk)
    · rw [input_of_methodHead hk' ht', hinput']
      exact ha' (.inr hk')
  · simp only [if_neg hk, if_neg (hkind ▸ hk)]
    exact ⟨t', rfl, htracks⟩

/-- The second scan reads the same plain text, or at the end of the first template more of it. That
is as good as reading the rest of it in another step. -/
theorem tracks_readText (h : Tracks R root more s t) (hu : s.input.stack.unread ≠ [])
    (hid : t.input.stack.sourceId? = t.sourceId?) :
    ∃ m, Tracks R root more s.readText m ∧ t.readText.run v disk = m.run v disk := by
  obtain ⟨r, below, hs⟩ := List.exists_cons_of_ne_nil h.input.goesOn.ne_nil
  have hgoesOn := h.input.goesOn
  have hstack := h.input.stack
  rw [hs] at hgoesOn hstack
  replace hu : r.unread ≠ [] := by
    rw [hs] at hu
    exact hu
  obtain ⟨r', below', behind, hl⟩ := Stack.exists_local hgoesOn
  replace hstack := hstack.trans (hl.extend_eq r.unread)
  have hu' : r.unread ++ behind ≠ [] := List.append_ne_nil_of_left_ne_nil hu behind
  have hread := readText_eq hstack hu'
  have htaken := hv.read h.taken (Cut.plainHead r.unread)
  rw [← taken_readText hs hu] at htaken
  have hinput : ∀ {m : Scan σ},
      m.input.stack = { r' with unread := Cut.plainTail r.unread ++ behind } :: below' →
      m.input.crossing = t.input.crossing → m.input.opened = t.input.opened →
      Input.Tracks root more s.readText.input m.input := by
    intro m hm hcrossing hopened
    rw [readText_eq hs hu]
    refine ⟨hm.trans (hl.extend_eq _).symm, hl.goesOn _ ⟨_, Cut.plainHead_append_plainTail _⟩,
      hcrossing.trans h.input.crossing, ?_⟩
    rw [hopened]
    exact h.input.opened
  rcases Cut.plainHead_append_cases hu behind with hsame | ⟨c, rest, hb, hc, htail, hlonger⟩
  · refine ⟨t.readText, ⟨hinput ?_ ?_ ?_, ?_⟩, rfl⟩
    · rw [hread, Cut.plainTail_append hsame]
    · rw [hread]
    · rw [hread]
    · rw [taken_readText hstack hu', hsame]
      exact htaken
  · -- The additional text goes on with plain text, which only the root template can do.
    have hne : behind ≠ [] := by
      rw [hb]
      exact List.cons_ne_nil c rest
    obtain ⟨-, rfl⟩ := hl.behind_eq.resolve_left hne
    obtain ⟨-, hbelow⟩ := List.cons.inj (hl.extend_eq [])
    subst hbelow
    have hplain : Cut.plainHead r.unread = r.unread := by
      have hsplit := Cut.plainHead_append_plainTail r.unread
      rwa [htail, List.append_nil] at hsplit
    rw [hplain] at htaken
    have hhalved := readText_readFront hstack hne hlonger
    have hstep : (t.readFront r' [] r.unread behind).step v disk = .ok t.readText := by
      rw [← hhalved]
      refine step_plain ?_ rfl (.inr rfl) (List.IsSuffix.trans ⟨r.unread, rfl⟩ hl.suffix') ?_
      · rw [hstack] at hid
        exact hid
      · rw [hb]
        exact Cut.first?_cons_eq_none hc rest
    refine ⟨t.readFront r' [] r.unread behind, ⟨hinput ?_ rfl rfl, htaken⟩, ?_⟩
    · rw [htail]
      rfl
    · exact (run_of_step (s := t.readFront r' [] r.unread behind) hne hstep).symm

/-- A step of the first scan is a step of the second one, up to the rest of a plain text. -/
theorem tracks_step (h : Tracks R root more s t) (hu : s.input.stack.unread ≠ []) :
    match s.step v disk with
    | .ok s' => ∃ t' m, t.step v disk = .ok t' ∧ Tracks R root more s' m ∧
        t'.run v disk = m.run v disk
    | .error halt => more = [] → ∃ halt', t.step v disk = .error halt' ∧
        halt'.failure.fault = halt.failure.fault := by
  obtain ⟨entered, entered', henter, henter', htaken⟩ := hv.enterFile h.taken h.input.sourceId?
  obtain ⟨hinput, -⟩ := enterFile_cases henter
  obtain ⟨hinput', hid⟩ := enterFile_cases henter'
  have htracks : Tracks R root more entered entered' := by
    refine ⟨?_, htaken⟩
    rw [hinput, hinput']
    exact h.input
  rw [← hinput] at hu
  rw [← hinput'] at hid
  have hfound := Recognition.rel_element? entered.input.crossing htracks.input.goesOn hu
  rw [← htracks.input.stack] at hfound
  rw [step, step, henter, henter']
  simp only [bind, Except.bind, htracks.input.crossing]
  generalize hx : Recognition.element? entered.input.crossing entered.input.stack = x at hfound ⊢
  generalize hy : Recognition.element? entered.input.crossing entered'.input.stack = y at hfound ⊢
  cases hfound with
  | none =>
    obtain ⟨m, hm, hrun⟩ := tracks_readText hv htracks hu hid.symm
    exact ⟨_, m, rfl, hm, hrun⟩
  | @some found found' hagrees =>
    cases found with
    | error failure =>
      intro hm
      obtain ⟨failure', rfl, hfault⟩ := hagrees hm
      exact ⟨_, rfl, hfault⟩
    | ok found =>
      obtain ⟨e, rest⟩ := found
      obtain ⟨hgoesOn, e', rfl, hevent⟩ := hagrees
      have htake : TracksTo R root more (entered.takeElement v disk e rest)
          (entered'.takeElement v disk e' (rest.extend root more)) :=
        tracks_takeElement hv htracks hgoesOn hevent.symm (Recognition.arrivesAt_of_element? hx)
          (Recognition.arrivesAt_of_element? hy)
      dsimp only
      cases hs' : entered.takeElement v disk e rest with
      | error halt =>
        rw [hs'] at htake
        exact htake
      | ok s' =>
        rw [hs'] at htake
        obtain ⟨t', ht', htracks'⟩ := htake
        exact ⟨t', t', ht', htracks', rfl⟩

/-- A round of the first scan brings the second one to a place from where it is still tracked. -/
theorem tracks_round {s' : Scan σ} (h : Tracks R root more s t)
    (hu : s.settle.input.stack.unread ≠ []) (hs : s.settle.step v disk = .ok s') :
    ∃ m, Tracks R root more s' m ∧ t.run v disk = m.run v disk := by
  have hstep := tracks_step hv h.settle hu
  rw [hs] at hstep
  obtain ⟨t', m, ht', hm, hrun⟩ := hstep
  exact ⟨m, hm, (run_of_step (h.unread_settle_ne_nil hu) ht').trans hrun⟩

/-- Where the first scan comes to its end and only hands over its last text, the second one arrives
at the additional text. -/
theorem tracks_run_ok {last : Scan σ} (h : Tracks R root more s t)
    (hrun : s.run v disk = .ok last) :
    ∃ arrived m r, arrived.flush v disk = .ok last ∧ t.run v disk = m.run v disk ∧
      Tracks R root more arrived m ∧ arrived.input.stack = [r] ∧ r.unread = [] := by
  fun_induction run v disk s generalizing t with
  | case1 s hu =>
    obtain ⟨r, hr, hnil⟩ := Stack.exists_settle_eq h.input.goesOn.ne_nil hu
    exact ⟨s.settle, t.settle, r, hrun, run_settle.symm, h.settle, hr, hnil⟩
  | case2 s hu halt hs => cases hrun
  | case3 s hu s' hs ih =>
    obtain ⟨m, hm, ht⟩ := tracks_round hv h hu hs
    rw [ht]
    exact ih hm hrun

/-- Without additional text, the second scan comes to its end where the first one does. -/
theorem tracks_run_end {last : Scan σ} (h : Tracks R root [] s t) (hrun : s.run v disk = .ok last) :
    ∃ last', t.run v disk = .ok last' ∧ R last.taken last'.taken ∧ last.pending? = none ∧
      last'.pending? = none := by
  obtain ⟨arrived, m, r, hflush, ht, hm, hstack, hr⟩ := tracks_run_ok hv h hrun
  have hunread : m.settle.input.stack.unread = [] := by
    rw [settle, hm.input.stack, hstack]
    change r.unread ++ [] = []
    rw [hr, List.append_nil]
  obtain ⟨flushed, last', hflushed, hlast', htaken⟩ :=
    hv.flush (s := arrived) (t := m.settle) hm.taken
  obtain rfl := Except.ok.inj (hflush.symm.trans hflushed)
  refine ⟨last', ?_, htaken, pending_of_flush hflush, pending_of_flush hlast'⟩
  rw [ht, run_of_unread hunread, hlast']

/-- Without additional text, a fault of the first scan is one of the second scan. -/
theorem tracks_run_error {halt : Halt σ} (h : Tracks R root [] s t)
    (hrun : s.run v disk = .error halt) :
    ∃ halt', t.run v disk = .error halt' ∧ halt'.failure.fault = halt.failure.fault := by
  fun_induction run v disk s generalizing t with
  | case1 s hu =>
    obtain ⟨flushed, -, hflushed, -⟩ := hv.flush h.settle.taken
    cases hflushed.symm.trans hrun
  | case2 s hu halt' hs =>
    obtain rfl := Except.error.inj hrun
    have hstep := tracks_step hv h.settle hu
    rw [hs] at hstep
    obtain ⟨halt', ht', hfault⟩ := hstep rfl
    exact ⟨halt', run_of_step_error (h.unread_settle_ne_nil hu) ht', hfault⟩
  | case3 s hu s' hs ih =>
    obtain ⟨m, hm, ht⟩ := tracks_round hv h hu hs
    rw [ht]
    exact ih hm hrun

end Simulation

end Scan

end ServerPages
