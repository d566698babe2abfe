import ServerPages.Markup.Scan
import ServerPages.Proofs.Markup.Shape

/-!
# One step of a scan

A step of a scan reads the pieces with which the unread text of the innermost file begins. It hands
over the pending plain text and the elements of the pieces, or adds plain text to what is pending.
Only an include directive changes the stack of files beyond that.
-/

namespace ServerPages

/-- Handing over an element leaves the input, or opens the file that the element asks for. -/
def Input.Follows (follows : Bool) (disk : Disk) (event : Event) (i j : Input) : Prop :=
  (j = i ∧ (follows = true → event.inclusion? = none)) ∨
    ∃ inclusion, follows = true ∧ event.inclusion? = some inclusion ∧
      i.tryOpen disk inclusion = .ok j

/-- The elements of a piece in a file, with some text left behind the last one. -/
def Cut.elements (r : Reading) (below : Stack) : List Cut → Text → List Element
  | [], _ => []
  | c :: cuts, rest =>
    c.element r below (cuts.flatMap Cut.whole ++ rest) :: elements r below cuts rest

/-- The elements of cuts say what the cuts say. -/
@[simp] theorem Cut.map_event_elements (r : Reading) (below : Stack) (cuts : List Cut)
    (rest : Text) :
    (elements r below cuts rest).map Element.event = cuts.map Cut.event := by
  induction cuts with
  | nil => rfl
  | cons c cuts ih => rw [elements, List.map_cons, List.map_cons, ih, Cut.event_element]

namespace Scan

variable {σ : Type} {v : Visitor σ} {disk : Disk}

/-- What handing over an element does, if it succeeds. -/
theorem deliver_cases {s s' : Scan σ} {e : Element} (h : s.deliver v disk e = .ok s') :
    v.accept disk s.input.stack e s.state = (s'.state, none) ∧ s'.pending? = s.pending? ∧
      s'.sourceId? = s.sourceId? ∧ Input.Follows v.follows disk e.event s.input s'.input := by
  simp only [deliver] at h
  split at h
  · rename_i state input hh
    cases h
    unfold Visitor.handle at hh
    split at hh
    · cases hh
    · rename_i ha
      split at hh
      · rename_i inclusion hv hi
        obtain ⟨rfl, hh⟩ := Prod.mk.inj hh
        unfold Input.openFile at hh
        split at hh
        · rename_i opened ho
          cases hh
          exact ⟨ha, rfl, rfl, Or.inr ⟨inclusion, hv, hi, ho⟩⟩
        · cases hh
      · rename_i hn
        cases hh
        refine ⟨ha, rfl, rfl, Or.inl ⟨rfl, fun hv => ?_⟩⟩
        cases hi : e.event.inclusion? with
        | none => rfl
        | some inclusion => exact (hn inclusion hv hi).elim
  · cases h

/-- The head of a method asks for no file. -/
theorem input_of_methodHead {s s' : Scan σ} {head : Element} (hk : head.kind = .methodHead)
    (h : s.deliver v disk head = .ok s') : s'.input = s.input := by
  obtain ⟨-, -, -, ⟨hi, -⟩ | ⟨inclusion, -, hi, -⟩⟩ := deliver_cases h
  · exact hi
  · simp only [Event.inclusion?, Element.event, hk, reduceCtorEq, if_false] at hi

/-- An element that asks for no file is handed over if the visitor accepts it. -/
theorem deliver_eq_ok {s : Scan σ} {e : Element} {state : σ}
    (ha : v.accept disk s.input.stack e s.state = (state, none))
    (hf : v.follows = true → e.event.inclusion? = none) :
    ∃ log, s.deliver v disk e = .ok { s with state, log } := by
  have hh : v.handle disk s.input e s.state = (state, .ok s.input) := by
    rw [Visitor.handle, ha]
    cases hv : v.follows with
    | false => rfl
    | true =>
      have hi : e.inclusion? = none := hf hv
      simp [hi]
  refine ⟨s.log ++ e.records, ?_⟩
  simp [deliver, hh]

theorem enterFile_eq_self {s : Scan σ} (h : s.input.stack.sourceId? = s.sourceId?) :
    s.enterFile v disk = .ok s := if_pos h

/-- The plain text of a file is handed over before another file is read, and only then. -/
theorem step_of_enterFile {s t : Scan σ} (h : s.enterFile v disk = .ok t)
    (ht : t.input.stack.sourceId? = t.sourceId?) : s.step v disk = t.step v disk := by
  rw [step, step, h, enterFile_eq_self ht]

section Equations

variable {s : Scan σ} {r : Reading} {below : Stack}
  (hid : s.input.stack.sourceId? = s.sourceId?) (hs : s.input.stack = r :: below)
  (hx : s.input.crossing = false ∨ below = []) (hr : r.unread <:+ r.source.content)

include hid hs hx hr

/-- A step that finds no element reads plain text. -/
theorem step_plain (h : Cut.first? r.unread = none) : s.step v disk = .ok s.readText := by
  rw [step, enterFile_eq_self hid]
  simp only [bind, Except.bind, hs, Cut.element?_of_first?_none hx hr h]

/-- A step that finds a malformed element fails. -/
theorem step_malformed (h : Cut.first? r.unread = some none) :
    ∃ halt, s.step v disk = .error halt := by
  obtain ⟨failure, he⟩ := Cut.element?_of_first?_malformed hx hr h
  rw [step, enterFile_eq_self hid]
  simp only [bind, Except.bind, hs, he]
  exact ⟨_, rfl⟩

/-- A step that finds an element takes it. -/
theorem step_element {c : Cut} {rest : Text} (h : Cut.first? r.unread = some (some (c, rest))) :
    s.step v disk =
      s.takeElement v disk (c.element r below rest) ({ r with unread := rest } :: below) := by
  rw [step, enterFile_eq_self hid]
  simp only [bind, Except.bind, hs, Cut.element?_of_first?_some hx hr h]
  rfl

end Equations

/-- A scan hands over its pending text when nothing is left to read. -/
theorem run_of_unread {s : Scan σ} (h : s.settle.input.stack.unread = []) :
    s.run v disk = s.settle.flush v disk := by
  rw [run, dif_pos h]

/-- A scan goes on with what its next step makes of it. -/
theorem run_of_step {s s' : Scan σ} (h : s.settle.input.stack.unread ≠ [])
    (hs : s.settle.step v disk = .ok s') : s.run v disk = s'.run v disk := by
  rw [run, dif_neg h]
  split
  · rename_i halt he
    rw [hs] at he
    cases he
  · rename_i next he
    rw [hs] at he
    rw [Except.ok.inj he]

/-- The end of a scan, if it is reached in at most so many rounds. -/
def runWithin (v : Visitor σ) (disk : Disk) : Nat → Scan σ → Option (Scan σ)
  | 0, _ => none
  | n + 1, s =>
    if s.settle.input.stack.unread = [] then (s.settle.flush v disk).toOption
    else (s.settle.step v disk).toOption.bind (runWithin v disk n)

theorem eq_ok_of_toOption {x : Except (Halt σ) (Scan σ)} {s : Scan σ}
    (h : x.toOption = some s) : x = .ok s := by
  cases x with
  | error halt => cases h
  | ok s' => exact congrArg Except.ok (Option.some.inj h)

/-- A scan that comes to its end within some steps comes to its end. -/
theorem run_of_runWithin {n : Nat} {s last : Scan σ} (h : s.runWithin v disk n = some last) :
    s.run v disk = .ok last := by
  induction n generalizing s with
  | zero => cases h
  | succ n ih =>
    rw [runWithin] at h
    split at h
    · rename_i hu
      rw [run_of_unread hu, eq_ok_of_toOption h]
    · rename_i hu
      obtain ⟨s', hs, hlast⟩ := Option.bind_eq_some_iff.mp h
      rw [run_of_step hu (eq_ok_of_toOption hs), ih hlast]

/-- The element of the plain text that has not been handed over, if there is any. -/
def pendingElements (s : Scan σ) : List Element := s.pending?.toList.map Passage.element

/-- The plain text that has not been handed over. -/
def pendingText (s : Scan σ) : Text := (s.pending?.map Passage.text).getD []

/-- Where the plain text begins that has not been handed over. -/
def pendingStart (s : Scan σ) : Stack := (s.pending?.map Passage.start).getD s.input.stack

/-- Plain text is read in the innermost file. -/
theorem readText_eq {s : Scan σ} {r : Reading} {below : Stack} (hs : s.input.stack = r :: below)
    (hu : r.unread ≠ []) :
    s.readText =
      { s with
        input := { s.input with stack := { r with unread := Cut.plainTail r.unread } :: below }
        pending? := some ⟨s.pendingStart, { r with unread := Cut.plainTail r.unread } :: below,
          s.pendingText ++ Cut.plainHead r.unread⟩ } := by
  have hskip : s.input.stack.skipPlainText =
      { r with unread := Cut.plainTail r.unread } :: below := by
    cases hr : r.unread with
    | nil => exact absurd hr hu
    | cons c rest =>
      simp [hs, Stack.skipPlainText, Stack.unread, Stack.setUnread, hr, Cut.plainTail]
  have hplain : s.input.stack.plainText = Cut.plainHead r.unread := by
    cases hr : r.unread with
    | nil => exact absurd hr hu
    | cons c rest => simp [hs, Stack.plainText, Stack.unread, hr, Cut.plainHead]
  cases hp : s.pending? <;>
    simp [readText, hskip, hplain, moveTo, pendingStart, pendingText, hp]

section Recording

variable {s s' : Scan (List Element)} {follows : Bool}

/-- The recorder takes every element. -/
theorem deliver_recorder {e : Element} (h : s.deliver (.recorder follows) disk e = .ok s') :
    s'.state = s.state ++ [e] ∧ s'.pending? = s.pending? ∧ s'.sourceId? = s.sourceId? ∧
      Input.Follows follows disk e.event s.input s'.input := by
  obtain ⟨ha, hp, hi, hf⟩ := deliver_cases h
  exact ⟨(Prod.mk.inj ha).1.symm, hp, hi, hf⟩

/-- Plain text asks for no file. -/
theorem flush_recorder (h : s.flush (.recorder follows) disk = .ok s') :
    s'.state = s.state ++ s.pendingElements ∧ s'.pending? = none ∧ s'.sourceId? = s.sourceId? ∧
      s'.input = s.input := by
  unfold flush at h
  split at h
  · rename_i hp
    cases h
    exact ⟨by simp [pendingElements, hp], hp, rfl, rfl⟩
  · rename_i passage hp
    obtain ⟨hstate, hpending, hid, hf⟩ := deliver_recorder h
    have hi : s'.input = s.input := by
      rcases hf with ⟨hi, -⟩ | ⟨inclusion, -, hi, -⟩
      · exact hi
      · cases hi
    exact ⟨by simpa [pendingElements, hp] using hstate, hpending, hid, hi⟩

/-- Entering a file hands over the pending text of another one. -/
theorem enterFile_recorder (h : s.enterFile (.recorder follows) disk = .ok s') :
    s'.input = s.input ∧ s'.sourceId? = s.input.stack.sourceId? ∧
      (s.input.stack.sourceId? = s.sourceId? ∧ s'.state = s.state ∧ s'.pending? = s.pending? ∨
        s.input.stack.sourceId? ≠ s.sourceId? ∧ s'.state = s.state ++ s.pendingElements ∧
          s'.pending? = none) := by
  unfold enterFile at h
  split at h
  · rename_i he
    cases h
    exact ⟨rfl, he.symm, Or.inl ⟨he, rfl, rfl⟩⟩
  · rename_i hne
    obtain ⟨t, ht, he⟩ := bind_eq_ok h
    obtain ⟨hstate, hpending, -, hinput⟩ := flush_recorder ht
    cases he
    exact ⟨hinput, by rw [← hinput], Or.inr ⟨hne, hstate, hpending⟩⟩

/-- What the elements of a piece do to the input: one of them may ask for a file. -/
def Leads (follows : Bool) (disk : Disk) (cuts : List Cut) (i j : Input) : Prop :=
  (j = i ∧ (follows = true → ∀ c ∈ cuts, c.event.inclusion? = none)) ∨
    ∃ c inclusion, cuts = [c] ∧ follows = true ∧ c.event.inclusion? = some inclusion ∧
      i.tryOpen disk inclusion = .ok j

private theorem inclusion?_eq_none {c : Cut} (h : ∀ name, c.kind ≠ .directive name) :
    c.event.inclusion? = none := if_neg (h _)

/-- The body of a method asks for no file. -/
private theorem readMethodBody_recorder {r : Reading} {below : Stack} {head : Element} {t : Text}
    (hs : s.input.stack = { r with unread := t } :: below)
    (hx : s.input.crossing = false ∨ below = []) (ht : t <:+ r.source.content)
    (hh : head.stop = { r with unread := t } :: below)
    (h : s.readMethodBody (.recorder follows) disk head = .ok s') :
    ∃ body rest,
      Cut.enclosed? .methodBody head.attributes [] "</psp:method>" t = some (body, rest) ∧
      s'.state = s.state ++ [body.element r below rest] ∧ s'.pending? = s.pending? ∧
      s'.sourceId? = s.sourceId? ∧
      s'.input = { s.input with stack := { r with unread := rest } :: below } := by
  have hbody := Cut.methodBody_cons hx hh ht
  unfold readMethodBody at h
  rw [hs] at h
  split at h
  · cases h
  · rename_i element after hm
    rw [hm] at hbody
    obtain ⟨⟨body, rest⟩, hb, he⟩ := Option.map_eq_some_iff.mp hbody.symm
    obtain ⟨rfl, rfl⟩ := Prod.mk.inj he
    obtain ⟨-, hkind, -⟩ := Cut.eq_append_of_enclosed? hb
    obtain ⟨hstate, hpending, hsource, hled⟩ := deliver_recorder h
    refine ⟨body, rest, hb, hstate, hpending, hsource, ?_⟩
    rcases hled with ⟨hi, -⟩ | ⟨inclusion, -, hi, -⟩
    · exact hi
    · rw [Cut.event_element, inclusion?_eq_none fun name => by simp [hkind]] at hi
      cases hi

/-- The recorder takes an element behind the pending text, and the body of a method behind its head.
-/
private theorem takeElement_recorder {r : Reading} {below : Stack} {c : Cut} {rest : Text}
    (hx : s.input.crossing = false ∨ below = []) (hr : r.unread <:+ r.source.content)
    (hf : Cut.first? r.unread = some (some (c, rest)))
    (h : s.takeElement (.recorder follows) disk (c.element r below rest)
      ({ r with unread := rest } :: below) = .ok s') :
    ∃ cuts after, Cut.pieces? r.unread = some (some (cuts, after)) ∧
      s'.state = s.state ++ s.pendingElements ++ Cut.elements r below cuts after ∧
      s'.pending? = none ∧ s'.sourceId? = s.sourceId? ∧
      Leads follows disk cuts { s.input with stack := { r with unread := after } :: below }
        s'.input := by
  obtain ⟨flushed, hfl, h⟩ := bind_eq_ok h
  obtain ⟨delivered, hd, h⟩ := bind_eq_ok h
  obtain ⟨hstate, hpending, hsource, hinput⟩ := flush_recorder hfl
  obtain ⟨hstate', hpending', hsource', hled⟩ := deliver_recorder hd
  rw [hstate] at hstate'
  rw [hinput] at hled
  by_cases hk : c.kind = .methodHead
  · rw [Cut.kind_element, if_pos hk] at h
    have hnone : c.event.inclusion? = none := inclusion?_eq_none fun name => by simp [hk]
    have hi : delivered.input = { s.input with stack := { r with unread := rest } :: below } := by
      rcases hled with ⟨hi, -⟩ | ⟨inclusion, -, hi, -⟩
      · exact hi
      · rw [Cut.event_element, hnone] at hi
        cases hi
    obtain ⟨ht, hshape⟩ := Cut.spec_of_first? hf
    have hdel := hshape.delimited
    rw [hk] at hdel
    have hstop : (c.element r below rest).stop = { r with unread := rest } :: below := by
      rw [Cut.element, hdel.2, List.nil_append]
    obtain ⟨body, after, hb, hstate'', hpending'', hsource'', hinput'⟩ :=
      readMethodBody_recorder (by rw [hi]) (by rw [hi]; exact hx)
        (List.IsSuffix.trans ⟨_, ht.symm⟩ hr) hstop h
    obtain ⟨hwhole, hkind, -⟩ := Cut.eq_append_of_enclosed? hb
    refine ⟨[c, body], after, Cut.pieces?_of_methodHead hf hk hb, ?_,
      hpending''.trans (hpending'.trans hpending), hsource''.trans (hsource'.trans hsource),
      Or.inl ⟨by rw [hinput', hi], fun _ => ?_⟩⟩
    · have hrest : rest = body.whole ++ after := hwhole
      rw [hstate'', hstate', hrest]
      simp [Cut.elements, pendingElements, moveTo]
    · have hnone' : body.event.inclusion? = none :=
        inclusion?_eq_none fun name => by simp [hkind]
      simp [hnone, hnone']
  · rw [Cut.kind_element, if_neg hk] at h
    cases h
    refine ⟨[c], rest, Cut.pieces?_of_first? hf hk, hstate', hpending'.trans hpending,
      hsource'.trans hsource, ?_⟩
    rcases hled with ⟨hi, hn⟩ | ⟨inclusion, hv, hi, ho⟩
    · exact Or.inl ⟨hi, fun hv => by simpa using hn hv⟩
    · exact Or.inr ⟨c, inclusion, rfl, hv, hi, ho⟩

/-- What a step of a recording scan does, if it succeeds. -/
theorem step_recorder {r : Reading} {below : Stack}
    (hid : s.input.stack.sourceId? = s.sourceId?) (hs : s.input.stack = r :: below)
    (hx : s.input.crossing = false ∨ below = []) (hr : r.unread <:+ r.source.content)
    (h : s.step (.recorder follows) disk = .ok s') :
    (Cut.pieces? r.unread = none ∧ s' = s.readText) ∨
      ∃ cuts rest, Cut.pieces? r.unread = some (some (cuts, rest)) ∧
        s'.state = s.state ++ s.pendingElements ++ Cut.elements r below cuts rest ∧
        s'.pending? = none ∧ s'.sourceId? = s.sourceId? ∧
        Leads follows disk cuts { s.input with stack := { r with unread := rest } :: below }
          s'.input := by
  cases hf : Cut.first? r.unread with
  | none =>
    rw [step_plain hid hs hx hr hf] at h
    cases h
    exact Or.inl ⟨Cut.pieces?_eq_none_iff.mpr hf, rfl⟩
  | some found =>
    cases found with
    | none =>
      obtain ⟨halt, he⟩ := step_malformed hid hs hx hr hf
      rw [he] at h
      cases h
    | some found =>
      rw [step_element hid hs hx hr hf] at h
      exact Or.inr (takeElement_recorder hx hr hf h)

end Recording

end Scan

end ServerPages
