import ServerPages.Proofs.Markup.Step

/-!
# Scanning a single file

When the template is the only file and the visitor accepts its elements, a scan comes to its end. It
hands over just the elements into which the text is cut, in order, whatever the visitor makes of
them.
-/

namespace ServerPages

variable {σ : Type}

/-- A visitor takes an element that says this, wherever it stands, and changes its state in a given
way. -/
def Visitor.Takes (v : Visitor σ) (disk : Disk) (effect : σ → Event → σ → Prop) (event : Event) :
    Prop :=
  (v.follows = true → event.inclusion? = none) ∧
    ∀ e stack state, e.event = event →
      ∃ next, v.accept disk stack e state = (next, none) ∧ effect state event next

/-- Events take effect one after the other. -/
def Event.Steps (effect : σ → Event → σ → Prop) : σ → List Event → σ → Prop
  | state, [], last => state = last
  | state, event :: events, last => ∃ next, effect state event next ∧ Steps effect next events last

/-- Steps may be made in two rounds. -/
theorem Event.Steps.append {effect : σ → Event → σ → Prop} {a b c : σ} {first second : List Event}
    (h : Steps effect a first b) (h' : Steps effect b second c) :
    Steps effect a (first ++ second) c := by
  induction first generalizing a with
  | nil => exact (show a = b from h) ▸ h'
  | cons event events ih =>
    obtain ⟨next, he, hn⟩ := h
    exact ⟨next, he, ih hn⟩

namespace Scan

variable {v : Visitor σ} {disk : Disk} {effect : σ → Event → σ → Prop}

/-- The scan reads a single file, and its pending text is not empty. -/
structure Alone (s : Scan σ) (r : Reading) : Prop where
  /-- There is no other file. -/
  stack : s.input.stack = [r]
  /-- What is left of the file is an end of its content. -/
  suffix : r.unread <:+ r.source.content
  /-- Pending text would belong to this file. -/
  source : s.input.stack.sourceId? = s.sourceId?
  /-- Pending text is not empty. -/
  pending : ∀ p, s.pending? = some p → p.text ≠ []

/-- An element that the visitor takes is handed over. -/
theorem deliver_takes (s : Scan σ) {e : Element} (h : v.Takes disk effect e.event) :
    ∃ state log, effect s.state e.event state ∧
      s.deliver v disk e = .ok { s with state, log } := by
  obtain ⟨state, ha, he⟩ := h.2 e s.input.stack s.state rfl
  obtain ⟨log, hd⟩ := deliver_eq_ok ha h.1
  exact ⟨state, log, he, hd⟩

/-- Pending text that the visitor takes is handed over. -/
theorem flush_takes {s : Scan σ} (hp : ∀ p, s.pending? = some p → p.text ≠ [])
    (h : ∀ c ∈ Cut.passage s.pendingText, v.Takes disk effect c.event) :
    ∃ state log, Event.Steps effect s.state ((Cut.passage s.pendingText).map Cut.event) state ∧
      s.flush v disk = .ok { s with pending? := none, state, log } := by
  cases hs : s.pending? with
  | none =>
    refine ⟨s.state, s.log, ?_, ?_⟩
    · simp [pendingText, hs, Cut.passage, Event.Steps]
    · have hself : ({ s with pending? := none } : Scan σ) = s := by rw [← hs]
      simp only [flush, hs]
      exact congrArg Except.ok hself.symm
  | some p =>
    have ht : Cut.passage s.pendingText = [⟨.plainText, .empty, [], p.text, []⟩] := by
      simp [pendingText, hs, Cut.passage, hp p hs]
    rw [ht, List.forall_mem_singleton] at h
    obtain ⟨state, log, he, hd⟩ :=
      deliver_takes { s with pending? := none } (e := p.element) (v := v) h
    refine ⟨state, log, ?_, ?_⟩
    · rw [ht]
      exact ⟨state, he, rfl⟩
    · rw [flush, hs]
      exact hd

/-- The body of a method is found and handed over after its head. -/
theorem readMethodBody_takes {s : Scan σ} {r : Reading} {head : Element} {t rest : Text}
    {body : Cut} (hs : s.input.stack = [{ r with unread := t }])
    (hh : head.stop = [{ r with unread := t }]) (ht : t <:+ r.source.content)
    (hb : Cut.enclosed? .methodBody head.attributes [] "</psp:method>" t = some (body, rest))
    (h : v.Takes disk effect body.event) :
    ∃ state log, effect s.state body.event state ∧
      s.readMethodBody v disk head =
        .ok { s.moveTo [{ r with unread := rest }] with state, log } := by
  have hm : (Recognition.methodBody s.input.crossing head _).toOption = _ :=
    Cut.methodBody_cons (Or.inr rfl) hh ht
  rw [hb, ← hs, Option.map_some] at hm
  cases hf : Recognition.methodBody s.input.crossing head s.input.stack with
  | error failure =>
    rw [hf] at hm
    cases hm
  | ok found =>
    rw [hf] at hm
    obtain rfl := Option.some.inj hm
    obtain ⟨state, log, he, hd⟩ := deliver_takes (s.moveTo [{ r with unread := rest }])
      (e := body.element r [] rest) (v := v) h
    refine ⟨state, log, he, ?_⟩
    rw [readMethodBody, hf]
    exact hd

/-- The scan at another place, with nothing pending and a new state of the visitor. -/
def proceed (s : Scan σ) (stack : Stack) (state : σ) (log : List LogRecord) : Scan σ :=
  ⟨{ s.input with stack }, none, s.sourceId?, state, log⟩

/-- The pending text and an element are handed over one after the other. -/
theorem takeElement_takes {s : Scan σ} {e : Element} (stack : Stack)
    (hp : ∀ p, s.pending? = some p → p.text ≠ [])
    (h : ∀ c ∈ Cut.passage s.pendingText, v.Takes disk effect c.event)
    (he : v.Takes disk effect e.event) :
    ∃ state log,
      Event.Steps effect s.state ((Cut.passage s.pendingText).map Cut.event ++ [e.event]) state ∧
      s.takeElement v disk e stack =
        if e.kind = .methodHead then (s.proceed stack state log).readMethodBody v disk e
        else .ok (s.proceed stack state log) := by
  obtain ⟨flushed, log, hsteps, hf⟩ := flush_takes (s := s.moveTo stack) hp h
  obtain ⟨state, log', heffect, hd⟩ := deliver_takes (s.proceed stack flushed log) he
  refine ⟨state, log', hsteps.append ⟨state, heffect, rfl⟩, ?_⟩
  rw [takeElement, hf]
  change (s.proceed stack flushed log).deliver v disk e >>= _ = _
  rw [hd]
  rfl

/-- A step reads the pieces at the beginning of the text and hands over their elements. -/
theorem Alone.step_pieces {s : Scan σ} {r : Reading} {found : List Cut} {rest : Text}
    (h : s.Alone r) (hp : Cut.pieces? r.unread = some (some (found, rest)))
    (htakes : ∀ c ∈ Cut.passage s.pendingText ++ found, v.Takes disk effect c.event) :
    ∃ state log, s.step v disk = .ok (s.proceed [{ r with unread := rest }] state log) ∧
      Event.Steps effect s.state ((Cut.passage s.pendingText ++ found).map Cut.event) state := by
  have hpassage := fun c hc => htakes c (List.mem_append_left _ hc)
  rcases Cut.cases_of_pieces? hp with ⟨c, hf, hk, rfl⟩ | ⟨head, body, after, hf, hk, hb, rfl⟩
  · obtain ⟨state, log, hsteps, he⟩ := takeElement_takes (s := s) (e := c.element r [] rest)
      (v := v) [{ r with unread := rest }] h.pending hpassage (htakes c (by simp))
    refine ⟨state, log, ?_, by rw [List.map_append]; exact hsteps⟩
    rw [step_element h.source h.stack (Or.inr rfl) h.suffix hf, he]
    exact if_neg hk
  · obtain ⟨hwhole, hshape⟩ := Cut.spec_of_first? hf
    have hdelimited := hshape.delimited
    rw [hk] at hdelimited
    have hstop : (head.element r [] after).stop = [{ r with unread := after }] := by
      rw [Cut.element, hdelimited.2, List.nil_append]
    obtain ⟨state, log, hsteps, he⟩ := takeElement_takes (s := s) (e := head.element r [] after)
      (v := v) [{ r with unread := after }] h.pending hpassage (htakes head (by simp))
    obtain ⟨state', log', heffect, hm⟩ :=
      readMethodBody_takes (s := s.proceed [{ r with unread := after }] state log) (v := v) rfl
        hstop (List.IsSuffix.trans ⟨_, hwhole.symm⟩ h.suffix) hb (htakes body (by simp))
    refine ⟨state', log', ?_, ?_⟩
    · rw [step_element h.source h.stack (Or.inr rfl) h.suffix hf, he]
      exact (if_pos hk).trans hm
    · have hlast : Event.Steps effect state [body.event] state' := ⟨state', heffect, rfl⟩
      have hall := hsteps.append hlast
      simpa using hall

/-- Reading on leaves the file alone on the stack. -/
theorem Alone.proceed {s : Scan σ} {r : Reading} {rest : Text} (h : s.Alone r)
    (hr : rest <:+ r.unread) (state : σ) (log : List LogRecord) :
    (s.proceed [{ r with unread := rest }] state log).Alone { r with unread := rest } := by
  have hsource := h.source
  rw [h.stack] at hsource
  exact ⟨rfl, hr.trans h.suffix, hsource, fun p hp => by cases hp⟩

/-- Reading plain text goes on in the only file. -/
theorem Alone.readText {s : Scan σ} {r : Reading} (h : s.Alone r) (hu : r.unread ≠ []) :
    s.readText.Alone { r with unread := Cut.plainTail r.unread } ∧
      s.readText.pendingText = s.pendingText ++ Cut.plainHead r.unread ∧
      s.readText.state = s.state := by
  have hsource := h.source
  rw [h.stack] at hsource
  rw [readText_eq h.stack hu]
  have htail : Cut.plainTail r.unread <:+ r.unread := ⟨_, Cut.plainHead_append_plainTail r.unread⟩
  refine ⟨⟨rfl, htail.trans h.suffix, hsource, fun p hp => ?_⟩, rfl, rfl⟩
  obtain rfl := Option.some.inj hp
  obtain ⟨c, more, hc⟩ := List.exists_cons_of_ne_nil hu
  simp [hc, Cut.plainHead]

theorem Alone.settle {s : Scan σ} {r : Reading} (h : s.Alone r) : s.settle = s := by
  rw [Scan.settle, moveTo, h.stack, Stack.settle, ← h.stack]

theorem Alone.run_step {s s' : Scan σ} {r : Reading} (h : s.Alone r) (hu : r.unread ≠ [])
    (hs : s.step v disk = .ok s') : s.run v disk = s'.run v disk :=
  run_of_step (by rw [h.settle, h.stack]; exact hu) (by rw [h.settle, hs])

/-- A scan whose elements the visitor takes comes to its end, and the elements are those into which
the text is cut. -/
theorem run_of_reads {pending t : Text} {cuts : List Cut} (hreads : Cut.Reads pending t cuts)
    {s : Scan σ} {r : Reading} (h : s.Alone r) (ht : r.unread = t) (hp : s.pendingText = pending)
    (htakes : ∀ c ∈ cuts, v.Takes disk effect c.event) :
    ∃ s', s.run v disk = .ok s' ∧
      Event.Steps effect s.state (cuts.map Cut.event) s'.state := by
  induction hreads generalizing s r with
  | done pending =>
    subst hp
    obtain ⟨state, log, hsteps, hf⟩ := flush_takes (v := v) h.pending htakes
    refine ⟨{ s with pending? := none, state, log }, ?_, hsteps⟩
    rw [run_of_unread (by rw [h.settle, h.stack]; exact ht), h.settle, hf]
  | plain hne hpieces hreads ih =>
    subst ht hp
    obtain ⟨halone, htext, hstate⟩ := h.readText hne
    obtain ⟨s', hrun, hsteps⟩ := ih halone rfl htext htakes
    have hstep : s.step v disk = .ok s.readText :=
      step_plain h.source h.stack (Or.inr rfl) h.suffix (Cut.pieces?_eq_none_iff.mp hpieces)
    exact ⟨s', by rw [h.run_step hne hstep, hrun], hstate ▸ hsteps⟩
  | pieces hpieces hreads ih =>
    subst ht hp
    have hne : r.unread ≠ [] := fun he => by
      rw [he] at hpieces
      cases hpieces
    have hrest := (Cut.spec_of_pieces? hpieces).1
    obtain ⟨state, log, hstep, hsteps⟩ :=
      h.step_pieces hpieces fun c hc => htakes c (List.mem_append_left _ hc)
    obtain ⟨s', hrun, hsteps'⟩ := ih (h.proceed ⟨_, hrest.symm⟩ state log) rfl rfl
      fun c hc => htakes c (List.mem_append_right _ hc)
    refine ⟨s', by rw [h.run_step hne hstep, hrun], ?_⟩
    rw [List.map_append]
    exact hsteps.append hsteps'

/-- A root template is alone when its scan starts. -/
theorem alone_start (crossing : Bool) (name content : Text) (canonical? : Option Text)
    (baseDir : Text) (encoding : Encoding) (state : σ) :
    (start ((Input.empty crossing).push name content canonical? baseDir encoding) state).Alone
      ⟨⟨0, name, content.unifyBreaks, canonical?⟩, content.unifyBreaks, baseDir, encoding⟩ :=
  ⟨rfl, List.suffix_rfl, rfl, fun p hp => by cases hp⟩

end Scan

/-- The elements that are kept grow by one that says this. -/
def Event.Recorded (found : List Element) (event : Event) (next : List Element) : Prop :=
  next.map Element.event = found.map Element.event ++ [event]

/-- The recorder keeps what has been said, in that order. -/
theorem Event.Steps.recorded {found last : List Element} {events : List Event}
    (h : Steps Recorded found events last) :
    last.map Element.event = found.map Element.event ++ events := by
  induction events generalizing found with
  | nil => rw [show found = last from h, List.append_nil]
  | cons event events ih =>
    obtain ⟨next, hnext, hsteps⟩ := h
    rw [ih hsteps, show next.map Element.event = _ from hnext, List.append_assoc]
    rfl

/-- The visitor that keeps elements takes those that ask for no file. -/
theorem Visitor.recorder_takes_of_none (disk : Disk) {follows : Bool} {event : Event}
    (h : follows = true → event.inclusion? = none) :
    (recorder follows).Takes disk Event.Recorded event := by
  refine ⟨h, fun e _ found he => ⟨found ++ [e], rfl, ?_⟩⟩
  rw [Event.Recorded, List.map_append, List.map_singleton, he]

theorem Visitor.recorder_takes (disk : Disk) (event : Event) :
    (recorder false).Takes disk Event.Recorded event :=
  recorder_takes_of_none disk fun h => absurd h Bool.false_ne_true

/-- A root template whose includes are not followed says what it is cut into. -/
theorem Scan.events_of_reads {content : Text} {cuts : List Cut}
    (h : Cut.Reads [] content.unifyBreaks cuts) (disk : Disk) (crossing : Bool) (name : Text)
    (canonical? : Option Text) (baseDir : Text) (encoding : Encoding) :
    ∃ scan, (start ((Input.empty crossing).push name content canonical? baseDir encoding) []).run
        (.recorder false) disk = .ok scan ∧
      scan.state.map Element.event = cuts.map Cut.event := by
  obtain ⟨scan, hrun, hsteps⟩ := run_of_reads h
    (alone_start crossing name content canonical? baseDir encoding []) rfl rfl
    fun c _ => Visitor.recorder_takes disk c.event
  exact ⟨scan, hrun, hsteps.recorded⟩

end ServerPages
