import ServerPages.Proofs.Markup.Tracking
import ServerPages.Proofs.Page.Alike

/-!
# Pages of templates that go on

Two scans that read the same make pages alike, whatever part of the plain text each of them has
handed over so far. So the page of a template is alike to the one that a longer template has made
when its scan arrives at the additional text, and it does not matter in which template the rest of a
page stands.
-/

namespace ServerPages

namespace Taken

/-- The page with all text that has been read. -/
def page (a : Taken Page) : Page := a.state.addText (a.text?.getD [])

/-- The pages with all text that has been read are alike. -/
def Alike (a b : Taken Page) : Prop := a.page.Alike b.page

/-- Without pending text, the page is whatever the elements make it. -/
theorem page_withState {a : Taken Page} (h : a.text? = none) (state : Page) :
    page { a with state } = state := by
  rw [page, h]
  exact Page.addText_nil _

/-- Without pending text, the page is the one that the elements have made. -/
theorem page_of_text {a : Taken Page} (h : a.text? = none) : a.page = a.state :=
  page_withState h a.state

end Taken

namespace Scan

variable {root : Source} {more : Text} {disk : Disk} {s t : Scan Page}

/-- The page with all text that has been read. -/
def page (s : Scan Page) : Page := s.state.addText s.pendingText

/-- Without pending text, the page is the one that the elements have made. -/
theorem page_of_pending (h : s.pending? = none) : s.page = s.state :=
  Taken.page_of_text (a := s.taken) (Option.map_eq_none_iff.mpr h)

/-- A page takes every passage of plain text, and adds it as a fragment unless it is empty. -/
theorem accept_plainText (stack : Stack) (p : Passage) (page : Page) :
    Page.visitor.accept disk stack p.element page = (page.addText p.text, none) := by
  by_cases ht : p.text = []
  · simp [Page.visitor, Page.accept, Page.fragment?, Passage.element, Page.addText, ht]
  · simp [Page.visitor, Page.accept, Page.fragment?, Passage.element, Page.addText, ht,
      Element.notices]

/-- Handing over the pending text succeeds, and gives the page that it is about to give. -/
theorem flush_page (disk : Disk) (s : Scan Page) :
    ∃ log, s.flush Page.visitor disk = .ok { s with pending? := none, state := s.page, log } := by
  obtain ⟨input, pending?, sourceId?, state, log⟩ := s
  cases pending? with
  | none => exact ⟨log, by rw [page_of_pending rfl]; rfl⟩
  | some p =>
    exact deliver_eq_ok (s := ⟨input, none, sourceId?, state, log⟩)
      (accept_plainText input.stack p state) fun _ => rfl

/-- Entering a file succeeds, and neither the input nor the page is another one. -/
theorem exists_enterFile (disk : Disk) (s : Scan Page) :
    ∃ t, s.enterFile Page.visitor disk = .ok t ∧ t.input = s.input ∧ t.page = s.page ∧
      t.sourceId? = s.input.stack.sourceId? := by
  by_cases hid : s.input.stack.sourceId? = s.sourceId?
  · exact ⟨s, enterFile_eq_self hid, rfl, rfl, hid.symm⟩
  · obtain ⟨log, hflush⟩ := flush_page disk s
    rw [enterFile, if_neg hid, hflush]
    exact ⟨_, rfl, rfl, page_of_pending rfl, rfl⟩

end Scan

/-- Pages stay alike as long as both scans read the same. -/
theorem Page.keeps_alike (disk : Disk) : visitor.Keeps disk Taken.Alike where
  accept := by
    intro a b stack stack' e e' h ha hb he hresolve
    have hstate : a.state.Alike b.state := by
      rw [← Taken.page_of_text ha, ← Taken.page_of_text hb]
      exact h
    obtain ⟨halike, hfault⟩ := accept_alike hstate he hresolve
    refine ⟨hfault, ?_⟩
    rw [Taken.Alike, Taken.page_withState ha, Taken.page_withState hb]
    exact halike
  read := by
    intro a b h chars
    exact (alike_addText_append _ _ chars).trans
      ((h.addText chars).trans (alike_addText_append _ _ chars).symm)
  flush := by
    intro s t h
    obtain ⟨log, hflush⟩ := Scan.flush_page disk s
    obtain ⟨log', hflush'⟩ := Scan.flush_page disk t
    refine ⟨_, _, hflush, hflush', ?_⟩
    rw [Taken.Alike, Taken.page_of_text rfl, Taken.page_of_text rfl]
    exact h
  enterFile := by
    intro s t h _
    obtain ⟨s', hs', -, hpage, -⟩ := Scan.exists_enterFile disk s
    obtain ⟨t', ht', -, hpage', -⟩ := Scan.exists_enterFile disk t
    refine ⟨s', t', hs', ht', ?_⟩
    change s'.page.Alike t'.page
    rw [hpage, hpage']
    exact h

namespace Scan

variable {root : Source} {more : Text} {disk : Disk} {s t : Scan Page}

/-- Where the first scan comes to its end, the second one arrives at the additional text, and their
pages are alike. -/
theorem exists_alike_of_run {last : Scan Page} (h : Tracks Taken.Alike root more s t)
    (hrun : s.run Page.visitor disk = .ok last) :
    ∃ (m : Scan Page) (r : Reading), t.run Page.visitor disk = m.run Page.visitor disk ∧
      Input.Tracks root more last.input m.input ∧ last.state.Alike m.page ∧
      last.input.stack = [r] ∧ r.unread = [] := by
  obtain ⟨arrived, m, r, hflush, ht, hm, hstack, hr⟩ :=
    tracks_run_ok (Page.keeps_alike disk) h hrun
  obtain ⟨log, hflushed⟩ := flush_page disk arrived
  obtain rfl := Except.ok.inj (hflushed.symm.trans hflush)
  exact ⟨m, r, ht, hm.input, hm.taken, hstack, hr⟩

/-- The module to which a scan leads, or the fault that prevents it. -/
def outcome : Except (Halt Page) (Scan Page) → Except Fault Text
  | .ok last => last.state.outcome
  | .error halt => .error halt.failure.fault

/-- It does not matter in which template the rest of a page stands. -/
theorem outcome_of_tracks (h : Tracks Taken.Alike root [] s t) :
    outcome (s.run Page.visitor disk) = outcome (t.run Page.visitor disk) := by
  have hkeeps := Page.keeps_alike disk
  cases hrun : s.run Page.visitor disk with
  | error halt =>
    obtain ⟨halt', hrun', hfault⟩ := tracks_run_error hkeeps h hrun
    rw [hrun']
    exact congrArg Except.error hfault.symm
  | ok last =>
    obtain ⟨last', hrun', htaken, hpending, hpending'⟩ := tracks_run_end hkeeps h hrun
    have halike : last.page.Alike last'.page := htaken
    rw [page_of_pending hpending, page_of_pending hpending'] at halike
    rw [hrun']
    exact Page.outcome_of_alike halike

end Scan

end ServerPages
