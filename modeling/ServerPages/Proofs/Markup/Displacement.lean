import ServerPages.Proofs.Markup.Single
import ServerPages.Proofs.Markup.Tracking

/-!
# The rest of a template

What is left to read of a template may as well be a template of its own. A recording scan that has
arrived there hands over what a scan hands over that begins there: the same elements one by one, up
to their places. This holds whatever was handed over before, and whichever files the rest includes.
-/

namespace ServerPages

namespace Taken

/-- Both scans have the same text pending, and the second one has recorded the same elements behind
some others. -/
structure Behind (front : List Event) (a b : Taken (List Element)) : Prop where
  /-- The same text is pending. -/
  text : b.text? = a.text?
  /-- It belongs to the same file. -/
  sourceId : b.sourceId? = a.sourceId?
  /-- The same elements have been recorded last. -/
  events : b.state.map Element.event = front ++ a.state.map Element.event

/-- The same elements are recorded next. -/
theorem Behind.append {front : List Event} {a b : Taken (List Element)} (h : Behind front a b)
    {found found' : List Element} (he : found'.map Element.event = found.map Element.event) :
    (b.state ++ found').map Element.event = front ++ (a.state ++ found).map Element.event := by
  rw [List.map_append, List.map_append, h.events, he, List.append_assoc]

end Taken

namespace Scan

variable {front : List Event} {s t : Scan (List Element)} {follows : Bool} {disk : Disk}

/-- The recorder takes plain text. -/
theorem exists_flush_recorder (follows : Bool) (disk : Disk) (s : Scan (List Element)) :
    ∃ s', s.flush (.recorder follows) disk = .ok s' := by
  unfold flush
  split
  · exact ⟨s, rfl⟩
  · rename_i passage hp
    obtain ⟨log, hlog⟩ := @deliver_eq_ok _ (.recorder follows) disk { s with pending? := none }
      passage.element _ rfl fun _ => rfl
    exact ⟨_, hlog⟩

/-- The recorder takes the plain text of the file that is left. -/
theorem exists_enterFile_recorder (follows : Bool) (disk : Disk) (s : Scan (List Element)) :
    ∃ s', s.enterFile (.recorder follows) disk = .ok s' := by
  by_cases hid : s.input.stack.sourceId? = s.sourceId?
  · exact ⟨s, enterFile_eq_self hid⟩
  · obtain ⟨flushed, hflushed⟩ := exists_flush_recorder follows disk s
    rw [enterFile, if_neg hid, hflushed]
    exact ⟨_, rfl⟩

/-- What a pending text says is known from the text. -/
theorem map_event_pendingElements_eq (h : Taken.Behind front s.taken t.taken) :
    t.pendingElements.map Element.event = s.pendingElements.map Element.event := by
  have hevents : ∀ u : Scan (List Element), u.pendingElements.map Element.event =
      (u.taken.text?.map (Event.mk .plainText · .empty)).toList := by
    intro u
    rw [pendingElements, taken]
    cases u.pending? with
    | none => rfl
    | some p => rfl
  rw [hevents, hevents, h.text]

/-- Once both scans have handed over their pending text, they have still recorded the same. -/
theorem behind_of_flush {s' t' : Scan (List Element)} (h : Taken.Behind front s.taken t.taken)
    (hid : t'.sourceId? = s'.sourceId?)
    (hs : s'.state = s.state ++ s.pendingElements ∧ s'.pending? = none)
    (ht : t'.state = t.state ++ t.pendingElements ∧ t'.pending? = none) :
    Taken.Behind front s'.taken t'.taken := by
  refine ⟨?_, hid, ?_⟩
  · rw [taken, taken, hs.2, ht.2]
  · rw [taken, taken, hs.1, ht.1]
    exact h.append (map_event_pendingElements_eq h)

end Scan

/-- The recorder keeps recording the same elements as long as both scans read the same. -/
theorem Visitor.keeps_behind (follows : Bool) (disk : Disk) (front : List Event) :
    (recorder follows).Keeps disk (Taken.Behind front) where
  accept := by
    intro a b _ _ e e' h _ _ he _
    refine ⟨rfl, h.text, h.sourceId, h.append ?_⟩
    rw [List.map_singleton, List.map_singleton, he]
  read := by
    intro a b h chars
    exact ⟨by rw [h.text], h.sourceId, h.events⟩
  flush := by
    intro s t h
    obtain ⟨s', hs'⟩ := Scan.exists_flush_recorder follows disk s
    obtain ⟨t', ht'⟩ := Scan.exists_flush_recorder follows disk t
    obtain ⟨hstate, hpending, hid, -⟩ := Scan.flush_recorder hs'
    obtain ⟨hstate', hpending', hid', -⟩ := Scan.flush_recorder ht'
    have hsame : t'.sourceId? = s'.sourceId? := hid'.trans (h.sourceId.trans hid.symm)
    exact ⟨s', t', hs', ht',
      Scan.behind_of_flush h hsame ⟨hstate, hpending⟩ ⟨hstate', hpending'⟩⟩
  enterFile := by
    intro s t h hsame
    obtain ⟨s', hs'⟩ := Scan.exists_enterFile_recorder follows disk s
    obtain ⟨t', ht'⟩ := Scan.exists_enterFile_recorder follows disk t
    obtain ⟨-, hid, hcases⟩ := Scan.enterFile_recorder hs'
    obtain ⟨-, hid', hcases'⟩ := Scan.enterFile_recorder ht'
    have hleft : t.input.stack.sourceId? = t.sourceId? ↔ s.input.stack.sourceId? = s.sourceId? := by
      rw [hsame, show t.sourceId? = s.sourceId? from h.sourceId]
    have hentered : t'.sourceId? = s'.sourceId? := hid'.trans (hsame.trans hid.symm)
    refine ⟨s', t', hs', ht', ?_⟩
    rcases hcases with ⟨hstays, hstate, hpending⟩ | ⟨hleaves, hhanded⟩
    · obtain ⟨-, hstate', hpending'⟩ :=
        hcases'.resolve_right fun hc => hc.1 (hleft.mpr hstays)
      refine ⟨?_, hentered, ?_⟩
      · rw [Scan.taken, Scan.taken, hpending, hpending']
        exact h.text
      · rw [Scan.taken, Scan.taken, hstate, hstate']
        exact h.events
    · obtain ⟨-, hhanded'⟩ := hcases'.resolve_left fun hc => hleaves (hleft.mp hc.1)
      exact Scan.behind_of_flush h hentered hhanded hhanded'

namespace Scan

/-- Elements at the beginning of a template that ask for no file are handed over first, and then
what the rest of it alone hands over. -/
theorem exists_run_behind {content rest : Text} {found : List Cut}
    (hp : Cut.pieces? content.unifyBreaks = some (some (found, rest.unifyBreaks)))
    (hf : ∀ c ∈ found, c.event.inclusion? = none) {follows crossing : Bool} {disk : Disk}
    {name baseDir : Text} {canonical? : Option Text} {encoding : Encoding}
    {scan : Scan (List Element)}
    (h : (start ((Input.empty crossing).push name rest canonical? baseDir encoding) []).run
      (.recorder follows) disk = .ok scan) :
    ∃ scan',
      (start ((Input.empty crossing).push name content canonical? baseDir encoding) []).run
        (.recorder follows) disk = .ok scan' ∧
      scan'.state.map Element.event = found.map Cut.event ++ scan.state.map Element.event := by
  have halone := alone_start crossing name content canonical? baseDir encoding ([] : List Element)
  have hrest : rest.unifyBreaks <:+ content.unifyBreaks :=
    ⟨_, (Cut.spec_of_pieces? hp).1.symm⟩
  have htakes : ∀ c ∈ Cut.passage [] ++ found,
      (Visitor.recorder follows).Takes disk Event.Recorded c.event := by
    intro c hc
    exact Visitor.recorder_takes_of_none disk fun _ => hf c hc
  obtain ⟨state, log, hstep, hsteps⟩ := halone.step_pieces hp htakes
  have hne : content.unifyBreaks ≠ [] := by
    intro hnil
    rw [hnil] at hp
    cases hp
  have htracks : Tracks (Taken.Behind (found.map Cut.event))
      ⟨0, name, content.unifyBreaks, canonical?⟩ []
      (start ((Input.empty crossing).push name rest canonical? baseDir encoding) [])
      ((start ((Input.empty crossing).push name content canonical? baseDir encoding) []).proceed
        [⟨⟨0, name, content.unifyBreaks, canonical?⟩, rest.unifyBreaks, baseDir, encoding⟩]
        state log) := by
    refine ⟨⟨?_, ?_, rfl, rfl⟩, rfl, rfl, ?_⟩
    · exact congrArg (fun t => [Reading.mk _ t baseDir encoding]) (List.append_nil _).symm
    · exact ⟨List.suffix_rfl, Reading.goesOn_nil hrest rfl rfl⟩
    · exact hsteps.recorded.trans (List.append_nil _).symm
  obtain ⟨scan', hrun, hend, -, -⟩ :=
    tracks_run_end (Visitor.keeps_behind follows disk (found.map Cut.event)) htracks h
  exact ⟨scan', (halone.run_step hne hstep).trans hrun, hend.events⟩

end Scan

end ServerPages
