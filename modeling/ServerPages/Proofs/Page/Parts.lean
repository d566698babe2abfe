import ServerPages.Compile
import ServerPages.Disk.Tree
import ServerPages.Proofs.Page.Tracking
import ServerPages.Proofs.Text.Breaks

/-!
# Templates in two parts

If the first part of a template can be read alone, and neither an opening delimiter nor a pair of
line break characters lies across the place where the second part begins, then the first part is
read in the same way whatever follows it. What stands between the two parts therefore acts on the
page that the first part makes. A comment does not act at all: the module is the same without it.
-/

namespace ServerPages

namespace Recognition

/-- An opening delimiter begins in the first text and ends in the second one. -/
def Straddled (front rest : Text) : Prop :=
  ∃ d ∈ delimiters, ∃ n, n < d.length ∧ 0 < n ∧ d.take n <:+ front ∧ d.drop n <+: rest

instance (front rest : Text) : Decidable (Straddled front rest) :=
  inferInstanceAs (Decidable (∃ d ∈ delimiters, ∃ n, n < d.length ∧ 0 < n ∧ _ ∧ _))

/-- A delimiter that no cut straddles lies in the first text if it begins there. -/
theorem whole_of_not_straddled {front rest : Text} (h : ¬ Straddled front rest) (t : Text)
    (ht : t <:+ front) (hne : t ≠ []) (d : Text) (hd : d ∈ delimiters) (hp : d <+: t ++ rest) :
    d <+: t := by
  rcases List.prefix_or_prefix_of_prefix hp (List.prefix_append t rest) with hfits | ⟨second, rfl⟩
  · exact hfits
  · by_cases hsecond : second = []
    · exact ⟨[], by rw [hsecond, List.append_nil, List.append_nil]⟩
    · refine absurd ⟨_, hd, t.length, ?_, List.length_pos_iff.mpr hne, ?_, ?_⟩ h
      · rw [List.length_append]
        exact Nat.lt_add_of_pos_right (List.length_pos_iff.mpr hsecond)
      · rwa [List.take_left]
      · rw [List.drop_left]
        exact (List.prefix_append_right_inj t).mp hp

/-- Delimiters stand in one line. -/
theorem not_straddled_unifyBreaks {front rest : Text} (h : ¬ Straddled front rest) :
    ¬ Straddled front.unifyBreaks rest.unifyBreaks := by
  have hline : ∀ d ∈ delimiters, '\n' ∉ d := by decide
  rintro ⟨d, hd, n, hn, hpos, hsuffix, hprefix⟩
  refine h ⟨d, hd, n, hn, hpos, Text.suffix_of_suffix_unifyBreaks ?_ hsuffix,
    Text.prefix_of_prefix_unifyBreaks ?_ hprefix⟩
  · exact fun hm => hline d hd (List.mem_of_mem_take hm)
  · exact fun hm => hline d hd (List.mem_of_mem_drop hm)

/-- A delimiter has only one opening bracket. -/
theorem not_straddled_bracket (front rest : Text) : ¬ Straddled front ('<' :: rest) := by
  have hbracket : ∀ d ∈ delimiters, '<' ∉ d.tail := by decide
  rintro ⟨d, hd, n, hn, hpos, -, hprefix⟩
  obtain ⟨n, rfl⟩ := Nat.exists_eq_succ_of_ne_zero (Nat.ne_of_gt hpos)
  have hne : d.drop (n + 1) ≠ [] := fun hnil => Nat.not_le.mpr hn (List.drop_eq_nil_iff.mp hnil)
  obtain ⟨c, second, hsecond⟩ := List.exists_cons_of_ne_nil hne
  rw [hsecond] at hprefix
  obtain ⟨rfl, -⟩ := List.cons_prefix_cons.mp hprefix
  have hmem : '<' ∈ d.tail.drop n := by
    rw [List.drop_tail, hsecond]
    exact List.mem_cons_self
  exact hbracket d hd (List.mem_of_mem_drop hmem)

end Recognition

namespace Compilation

/-- The text of the module, or the fault without its place. -/
def outcome (c : Compilation) : Except Fault Text :=
  (c.result.map CompiledModule.source).mapError Failure.fault

end Compilation

/-- The scan that reads a template that is given as text. -/
def startText (o : Options) (name source : Text) : Scan Page :=
  Scan.start ((Input.empty o.crossing).openText name source (o.baseDir?.getD ['.']))
    (Page.start o (Compilation.className o name) name)

/-- Compiling a text leads to the outcome of its scan. -/
theorem outcome_compileText (disk : Disk) (o : Options) (name source : Text) :
    (compileText disk o name source).outcome =
      Scan.outcome ((startText o name source).run Page.visitor disk) := by
  rw [compileText, Compilation.ofInput, Compilation.outcome, startText]
  cases Scan.run Page.visitor disk (Scan.start ((Input.empty o.crossing).openText name source
    (o.baseDir?.getD ['.'])) (Page.start o (Compilation.className o name) name)) with
  | error halt => rfl
  | ok last =>
    change ((last.state.generate.1.map _).map _).mapError _ = last.state.generate.1.mapError _
    cases last.state.generate.1 <;> rfl

namespace Scan

variable {root root' : Source} {more rest : Text} {disk : Disk} {last m m' : Scan Page}
  {r : Reading}

/-- A template in two parts is read like its first part alone, up to the second part. -/
theorem tracks_startText (o : Options) (name : Text) {front rest : Text}
    (hcut : ¬ Recognition.Straddled front rest) (hpair : ¬ Text.SplitsPair front rest) :
    Tracks Taken.Alike ⟨0, name, (front ++ rest).unifyBreaks, none⟩ rest.unifyBreaks
      (startText o name front) (startText o name (front ++ rest)) := by
  have hbreaks := Text.unifyBreaks_append hpair
  have hstack : (startText o name (front ++ rest)).input.stack =
      (startText o name front).input.stack.extend ⟨0, name, (front ++ rest).unifyBreaks, none⟩
        rest.unifyBreaks := by
    simp only [startText, Scan.start, Input.openText, Input.push, Input.empty, Stack.extend,
      hbreaks]
    rfl
  refine ⟨⟨hstack, ⟨List.suffix_refl _, ?_, ?_, rfl, rfl⟩, rfl, rfl⟩, .refl _⟩
  · exact ⟨[], hbreaks.symm⟩
  · exact Recognition.whole_of_not_straddled (Recognition.not_straddled_unifyBreaks hcut)

/-- At the end of its text, the root template goes on with the additional text. -/
theorem extend_of_unread (hr : r.unread = []) (root : Source) (more : Text) :
    Stack.extend root more [r] = [{ r with source := root, unread := more }] := by
  rw [Stack.extend, hr, List.nil_append]

/-- At the end of the first part, one may pass over some of the text that follows. -/
theorem tracks_drop {front : Text} {i j : Input} (h : Input.Tracks root (front ++ rest) i j)
    (hi : i.stack = [r]) (hr : r.unread = []) :
    Input.Tracks root rest i { j with stack := [{ r with source := root, unread := rest }] } := by
  have hgoesOn := h.goesOn
  rw [hi] at hgoesOn
  obtain ⟨hsuffix, hmore, -, hcanonical, hid⟩ := hgoesOn
  refine ⟨?_, ?_, h.crossing, h.opened⟩
  · rw [hi, extend_of_unread hr]
  · rw [hi]
    refine ⟨hsuffix, ?_, ?_, hcanonical, hid⟩
    · rw [hr, List.nil_append] at hmore ⊢
      exact List.IsSuffix.trans ⟨front, rfl⟩ hmore
    · intro t ht hne
      rw [hr, List.suffix_nil] at ht
      exact absurd ht hne

/-- The second part makes the same of pages alike, in whichever template it stands. -/
theorem outcome_of_arrival (hlast : last.input.stack = [r]) (hr : r.unread = [])
    (h : Input.Tracks root rest last.input m.input)
    (h' : Input.Tracks root' rest last.input m'.input)
    (hpage : m.page.Alike m'.page) :
    outcome (m.run Page.visitor disk) = outcome (m'.run Page.visitor disk) := by
  have hstack := h.stack
  have hstack' := h'.stack
  have hgoesOn := h.goesOn
  have hgoesOn' := h'.goesOn
  rw [hlast, extend_of_unread hr] at hstack hstack'
  rw [hlast] at hgoesOn hgoesOn'
  obtain ⟨-, hsuffix, -, hcanonical, hid⟩ := hgoesOn
  obtain ⟨-, hsuffix', -, hcanonical', hid'⟩ := hgoesOn'
  rw [hr, List.nil_append] at hsuffix hsuffix'
  have htracks : Tracks Taken.Alike root' [] m m' := by
    refine ⟨⟨?_, ?_, ?_, ?_⟩, hpage⟩
    · rw [hstack, hstack', Stack.extend, List.append_nil]
    · rw [hstack]
      exact ⟨hsuffix, Reading.goesOn_nil hsuffix' (hcanonical'.trans hcanonical.symm)
        (hid'.trans hid.symm)⟩
    · rw [h.crossing, h'.crossing]
    · rw [h.opened, h'.opened]
  exact outcome_of_tracks htracks

/-- An element without a body of its own is handed over with the page that precedes it. -/
theorem exists_takeElement_eq (disk : Disk) (s : Scan Page) {e : Element} (rest : Stack)
    (hk : e.kind ≠ .methodHead) :
    ∃ log, s.takeElement Page.visitor disk e rest =
      deliver Page.visitor disk
        { s.moveTo rest with pending? := none, state := s.page, log } e := by
  obtain ⟨log, hflush⟩ := flush_page disk (s.moveTo rest)
  have hpage : (s.moveTo rest).page = s.page := rfl
  refine ⟨log, ?_⟩
  rw [takeElement, hflush, hpage]
  simp only [hk, if_false, bind, Except.bind]
  split
  · rename_i halt hhalt
    exact hhalt.symm
  · rename_i delivered hdelivered
    exact hdelivered.symm

/-- An element of the root template is handed over with the page that precedes it. -/
theorem exists_step_eq {c : Cut} (hm : m.input.stack = [r]) (hr : r.unread <:+ r.source.content)
    (hf : Cut.first? r.unread = some (some (c, rest))) (hk : c.kind ≠ .methodHead) (disk : Disk) :
    m.settle.input.stack.unread ≠ [] ∧ ∃ flushed : Scan Page,
      m.settle.step Page.visitor disk = flushed.deliver Page.visitor disk (c.element r [] rest) ∧
      flushed.input = { m.input with stack := [{ r with unread := rest }] } ∧
      flushed.pending? = none ∧ flushed.state = m.page := by
  have hsettle : m.settle = m := by rw [settle, moveTo, hm, Stack.settle, ← hm]
  rw [hsettle]
  refine ⟨?_, ?_⟩
  · rw [hm]
    intro hnil
    rw [show r.unread = [] from hnil] at hf
    cases hf
  · obtain ⟨entered, henter, hinput, hpage, hid⟩ := exists_enterFile disk m
    rw [← hinput] at hid hm
    obtain ⟨log, htake⟩ := exists_takeElement_eq disk entered (e := c.element r [] rest)
      [{ r with unread := rest }] hk
    refine ⟨_, (step_of_enterFile henter hid.symm).trans
      ((step_element hid.symm hm (.inr rfl) hr hf).trans htake), ?_, rfl, hpage⟩
    rw [← hinput]
    rfl

section Element

variable {c : Cut} {after : Text} (h : Input.Tracks root more last.input m.input)
  (hlast : last.input.stack = [r]) (hr : r.unread = [])
  (hf : Cut.first? more = some (some (c, after))) (hk : c.kind ≠ .methodHead)

include h hlast hr hf hk

/-- What the first step behind the first part does with an element that stands there. -/
theorem exists_step_behind (disk : Disk) :
    m.settle.input.stack.unread ≠ [] ∧ ∃ (flushed : Scan Page) (e : Element),
      m.settle.step Page.visitor disk = flushed.deliver Page.visitor disk e ∧ e.event = c.event ∧
      Input.Tracks root after last.input flushed.input ∧ flushed.pending? = none ∧
      flushed.state = m.page := by
  have hstack := h.stack
  have hgoesOn := h.goesOn
  rw [hlast] at hstack hgoesOn
  rw [extend_of_unread hr] at hstack
  have hsuffix := hgoesOn.2.suffix
  rw [hr, List.nil_append] at hsuffix
  obtain ⟨hu, flushed, hstep, hinput, hpending, hstate⟩ := exists_step_eq hstack hsuffix hf hk disk
  refine ⟨hu, flushed, _, hstep, rfl, ?_, hpending, hstate⟩
  rw [(Cut.spec_of_first? hf).1] at h
  have hdrop := tracks_drop h hlast hr
  rw [hinput]
  exact hdrop

/-- An element behind the first part that the page takes. -/
theorem run_of_accept {page : Page} (hi : c.event.inclusion? = none)
    (ha : ∀ stack e, e.event = c.event → Page.accept disk stack e m.page = (page, none)) :
    ∃ m' : Scan Page, m.run Page.visitor disk = m'.run Page.visitor disk ∧
      Input.Tracks root after last.input m'.input ∧ m'.page = page := by
  obtain ⟨hu, flushed, e, hstep, he, hinput, hpending, hstate⟩ :=
    exists_step_behind h hlast hr hf hk disk
  rw [← hstate] at ha
  obtain ⟨log, hlog⟩ :=
    deliver_eq_ok (v := Page.visitor) (ha flushed.input.stack e he) fun _ => he ▸ hi
  exact ⟨_, run_of_step hu (hstep.trans hlog), hinput, page_of_pending hpending⟩

/-- An element behind the first part that the page refuses. -/
theorem run_of_refuse {page : Page} {fault : Fault}
    (ha : ∀ stack e, e.event = c.event → Page.accept disk stack e m.page = (page, some fault)) :
    ∃ halt, m.run Page.visitor disk = .error halt ∧ halt.failure.fault = fault := by
  obtain ⟨hu, flushed, e, hstep, he, -, -, hstate⟩ := exists_step_behind h hlast hr hf hk disk
  rw [← hstate] at ha
  obtain ⟨halt, hhalt, hfault⟩ :=
    deliver_eq_error (v := Page.visitor) (ha flushed.input.stack e he)
  exact ⟨halt, run_of_step_error hu (hstep.trans hhalt), hfault⟩

end Element

/-- A template in two parts is read up to the second part, with the page of the first one. -/
theorem exists_arrival {o : Options} {name front rest : Text}
    (hparse : (startText o name front).run Page.visitor disk = .ok last)
    (hcut : ¬ Recognition.Straddled front rest) (hpair : ¬ Text.SplitsPair front rest) :
    ∃ (m : Scan Page) (r : Reading),
      (startText o name (front ++ rest)).run Page.visitor disk = m.run Page.visitor disk ∧
      Input.Tracks ⟨0, name, (front ++ rest).unifyBreaks, none⟩ rest.unifyBreaks last.input
        m.input ∧
      last.state.Alike m.page ∧ last.input.stack = [r] ∧ r.unread = [] :=
  exists_alike_of_run (tracks_startText o name hcut hpair) hparse

end Scan

/-- A comment in a text begins and ends with its delimiters. -/
theorem Cut.first?_comment {comment : Text} (h : ¬ "--%>".toList <:+: comment) (rest : Text) :
    first? ("<%--" ++ comment ++ "--%>" ++ rest) =
      some (some (⟨.comment, .empty, "<%--", comment, "--%>"⟩, rest)) := by
  have hsplit : Text.splitFirst? "--%>" (comment ++ ("--%>" ++ rest)) = some (comment, rest) :=
    Text.splitFirst?_append (w := "--%") (z := '>') (by decide) h rest
  have hopen : first? ("<%--" ++ (comment ++ ("--%>" ++ rest))) =
      some (enclosed? .comment .empty "<%--" "--%>" (comment ++ ("--%>" ++ rest))) := rfl
  rw [List.append_assoc, List.append_assoc, hopen, enclosed?, hsplit]
  rfl

/-- The delimiters of a comment break no line, so breaks are unified inside and behind it. -/
theorem Text.unifyBreaks_comment (comment rest : Text) :
    unifyBreaks ("<%--" ++ comment ++ "--%>" ++ rest) =
      "<%--" ++ comment.unifyBreaks ++ "--%>" ++ rest.unifyBreaks := by
  rw [List.append_assoc, List.append_assoc, unifyBreaks_append_of_cr (by decide),
    unifyBreaks_append_of_head (by simp), unifyBreaks_append_of_cr (by decide),
    ← List.append_assoc, ← List.append_assoc]

/-- A comment between two parts of a template is invisible: with and without it the module has the
same text, or compiling fails with the same fault. The first part is one that can be read alone,
and neither an opening delimiter nor a pair of line break characters is cut by the comment. -/
theorem compileText_comment (disk : Disk) (o : Options) (name : Text)
    {front rest comment : Text} {last : Scan Page}
    (hparse : (startText o name front).run Page.visitor disk = .ok last)
    (hcut : ¬ Recognition.Straddled front rest) (hpair : ¬ Text.SplitsPair front rest)
    (hcomment : ¬ "--%>".toList <:+: comment) :
    (compileText disk o name (front ++ ("<%--" ++ comment ++ "--%>" ++ rest))).outcome =
      (compileText disk o name (front ++ rest)).outcome := by
  rw [outcome_compileText, outcome_compileText]
  have hunified : ¬ "--%>".toList <:+: comment.unifyBreaks :=
    fun h => hcomment (Text.infix_of_infix_unifyBreaks (by decide) h)
  have hbracket : ¬ Recognition.Straddled front ("<%--" ++ comment ++ "--%>" ++ rest) :=
    Recognition.not_straddled_bracket front _
  have hfirst : ¬ Text.SplitsPair front ("<%--" ++ comment ++ "--%>" ++ rest) :=
    fun h => absurd h.2 (by simp)
  obtain ⟨m, r, hm, htracks, halike, hstack, hr⟩ := Scan.exists_arrival hparse hcut hpair
  obtain ⟨m', r', hm', htracks', halike', hstack', hr'⟩ :=
    Scan.exists_arrival hparse hbracket hfirst
  rw [Text.unifyBreaks_comment] at htracks'
  -- the page does not take notice of the comment
  have haccept : ∀ (stack : Stack) (e : Element),
      e.event = ⟨.comment, comment.unifyBreaks, .empty⟩ →
      Page.accept disk stack e m'.page = (m'.page, none) := by
    rintro stack ⟨kind, text, attributes, start, stop⟩ he
    obtain ⟨rfl, rfl, rfl⟩ := Event.mk.inj he
    rfl
  obtain ⟨behind, hrun, hinput, hpage⟩ := Scan.run_of_accept htracks' hstack' hr'
    (Cut.first?_comment hunified _) nofun rfl haccept
  rw [hm, hm', hrun]
  refine Scan.outcome_of_arrival hstack hr hinput htracks ?_
  rw [hpage]
  exact halike'.symm.trans halike

/-- A comment that holds other delimiters, in the blank text between two scripts and in front of a
line feed. -/
theorem compileText_comment_between_scripts :
    ∃ last, (startText {} "page" "<% if x: %>\r ").run Page.visitor FileTree.empty.disk = .ok last ∧
      (compileText FileTree.empty.disk {} "page"
        ("<% if x: %>\r " ++ ("<%--" ++ "<%=\r\n--%" ++ "--%>" ++ "\n<% end %>"))).outcome =
      (compileText FileTree.empty.disk {} "page" ("<% if x: %>\r " ++ "\n<% end %>")).outcome := by
  have hparse : (startText {} "page" "<% if x: %>\r ").run Page.visitor FileTree.empty.disk =
      .ok _ := Scan.run_of_runWithin (n := 10) (Option.some_get (by decide +kernel)).symm
  exact ⟨_, hparse, compileText_comment _ _ _ hparse (by decide +kernel) (by decide)
    (by decide +kernel)⟩

end ServerPages
