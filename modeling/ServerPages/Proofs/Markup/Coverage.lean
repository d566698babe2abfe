import ServerPages.Disk.Tree
import ServerPages.Proofs.Markup.Record

/-!
# Elements cover their files

Between them, the elements that a scan hands over take up every byte of every file it opens, each
byte once and in order. The bytes of an element are those between its two places together with the
delimiters around them.
-/

namespace ServerPages

/-- The bytes of the delimiter before the text of an element. -/
def ElementKind.openingSize : ElementKind → Nat
  | .comment => 4
  | .expression => 3
  | .script => 2
  | .moduleCode => 10
  | .classCode => 11
  | _ => 0

/-- The bytes of the delimiter after the text of an element. -/
def ElementKind.closingSize : ElementKind → Nat
  | .comment => 4
  | .expression => 2
  | .script => 2
  | .moduleCode => 11
  | .classCode => 12
  | .methodBody => 13
  | _ => 0

namespace Element

/-- Both places of an element are places of a file. -/
def liesIn (e : Element) (file : Source) : Bool :=
  e.start.head?.map Reading.source = some file ∧ e.stop.head?.map Reading.source = some file

/-- An element takes up the bytes from one offset to another. The text of an expression may begin
after some blanks behind its delimiter. -/
def Spans (content : Text) (e : Element) (first last : Nat) : Prop :=
  first < last ∧ last = e.stop.cursor + e.kind.closingSize ∧
    if e.kind = .expression then
      ∃ front gap rest : Text, content = front ++ ("<%=" ++ gap ++ rest) ∧
        (∀ c ∈ gap, c = ' ' ∨ c = '\t' ∨ c = '\n') ∧ first = front.byteLength ∧
        e.start.cursor = first + e.kind.openingSize + gap.byteLength
    else e.start.cursor = first + e.kind.openingSize

/-- The text of an element is what its file has between its two places. -/
def Shows (content : Text) (e : Element) : Prop :=
  ∃ front rest : Text, content = front ++ e.text ++ rest ∧ e.start.cursor = front.byteLength ∧
    e.stop.cursor = Text.byteLength (front ++ e.text)

/-- Elements take up the bytes from one offset to another, each where the one before it ends. -/
def Tiles (content : Text) : Nat → List Element → Nat → Prop
  | first, [], last => first = last
  | first, e :: elements, last =>
    ∃ middle, e.Spans content first middle ∧ Tiles content middle elements last

/-- An element lies in one file only. -/
theorem eq_of_liesIn {e : Element} {file other : Source} (h : e.liesIn file = true)
    (ho : e.liesIn other = true) : file = other := by
  simp only [liesIn, decide_eq_true_eq] at h ho
  exact Option.some.inj (h.1.symm.trans ho.1)

/-- One more element takes up the bytes up to where it ends. -/
theorem Tiles.concat {content : Text} {first middle last : Nat} {elements : List Element}
    {e : Element} (h : Tiles content first elements middle) (he : e.Spans content middle last) :
    Tiles content first (elements ++ [e]) last := by
  induction elements generalizing first with
  | nil =>
    obtain rfl : first = middle := h
    exact ⟨last, he, rfl⟩
  | cons e' elements ih =>
    obtain ⟨next, hspans, htiles⟩ := h
    exact ⟨next, hspans, ih htiles⟩

end Element

/-- The delimiters of a kind have their sizes, up to the blanks before an expression. -/
theorem ElementKind.Delimited.size {kind : ElementKind} {opening closing : Text}
    (h : kind.Delimited opening closing) :
    closing.byteLength = kind.closingSize ∧
      (kind ≠ .expression → opening.byteLength = kind.openingSize) := by
  cases kind with
  | expression =>
    obtain ⟨-, rfl⟩ := h
    exact ⟨rfl, fun hk => absurd rfl hk⟩
  | _ =>
    obtain ⟨rfl, rfl⟩ := h
    exact ⟨rfl, fun _ => rfl⟩

namespace Cut

variable {c : Cut} {r : Reading} {front rest : Text}

theorem liesIn_element (c : Cut) (r : Reading) (below : Stack) (rest : Text) (file : Source) :
    (c.element r below rest).liesIn file = decide (r.source = file) := by
  simp [Element.liesIn, element]

/-- The places of a cut in a file come after its opening part and before its closing part. -/
theorem cursor_element (below : Stack) (h : r.source.content = front ++ (c.whole ++ rest)) :
    (c.element r below rest).start.cursor = Text.byteLength (front ++ c.opening) ∧
      (c.element r below rest).stop.cursor = Text.byteLength (front ++ c.opening ++ c.body) := by
  constructor
  · exact Reading.cursor_eq (by simpa [whole] using h)
  · exact Reading.cursor_eq (by simpa [whole] using h)

/-- A cut takes up its bytes. -/
theorem WellShaped.spans (hc : c.WellShaped) (below : Stack)
    (h : r.source.content = front ++ (c.whole ++ rest)) (hcr : '\r' ∉ r.source.content) :
    (c.element r below rest).Spans r.source.content (Text.byteLength front)
      (Text.byteLength (front ++ c.whole)) := by
  obtain ⟨hstart, hstop⟩ := cursor_element below h
  obtain ⟨hclosing, hopening⟩ := hc.delimited.size
  simp only [Text.byteLength_append] at hstart hstop
  have hwhole : Text.byteLength c.whole =
      Text.byteLength c.opening + Text.byteLength c.body + Text.byteLength c.closing := by
    simp [whole, Nat.add_assoc]
  refine ⟨?_, ?_, ?_⟩
  · have hpos := Text.byteLength_pos hc.whole_ne
    rw [Text.byteLength_append]
    omega
  · rw [Text.byteLength_append, hstop, kind_element]
    omega
  · rw [kind_element]
    split
    · rename_i hk
      have hdelimited := hc.delimited
      rw [hk] at hdelimited
      obtain ⟨⟨gap, hgap, hopen⟩, -⟩ := hdelimited
      have hcontent : r.source.content =
          front ++ ("<%=" ++ gap ++ (c.body ++ c.closing ++ rest)) := by
        rw [h, whole, hopen]
        simp
      refine ⟨front, gap, _, hcontent, fun x hx => ?_, rfl, ?_⟩
      · have hspace := List.all_eq_true.mp hgap x hx
        have hne : x ≠ '\r' := by
          rintro rfl
          exact hcr (by rw [hcontent]; simp [hx])
        simp only [isTagSpace, Bool.or_eq_true, decide_eq_true_eq] at hspace
        rcases hspace with ((rfl | rfl) | rfl) | rfl
        · exact Or.inl rfl
        · exact Or.inr (Or.inr rfl)
        · exact Or.inr (Or.inl rfl)
        · exact absurd rfl hne
      · rw [hstart, hopen, Text.byteLength_append, hk, Nat.add_assoc]
        rfl
    · rename_i hk
      rw [hstart, hopening hk]

/-- The element of a cut shows the text between its two places. -/
theorem shows_element (below : Stack) (h : r.source.content = front ++ (c.whole ++ rest))
    (hk : c.kind.holdsText = true) : (c.element r below rest).Shows r.source.content := by
  obtain ⟨hstart, hstop⟩ := cursor_element below h
  have htext : (c.element r below rest).text = c.body := if_pos hk
  refine ⟨front ++ c.opening, c.closing ++ rest, ?_, hstart, ?_⟩
  · rw [h, htext, whole]
    simp
  · rw [hstop, htext]

/-- The pending text is well shaped. -/
theorem wellShaped_passage (pending : Text) : ∀ c ∈ passage pending, c.WellShaped := by
  by_cases hp : pending = []
  · simp [passage, hp]
  · have hc : (⟨.plainText, .empty, [], pending, []⟩ : Cut).WellShaped :=
      ⟨⟨rfl, rfl⟩, by simpa [whole] using hp⟩
    simpa [passage, hp] using hc

/-- The pending text is made of its own characters. -/
theorem flatMap_whole_passage (pending : Text) : (passage pending).flatMap whole = pending := by
  by_cases hp : pending = []
  · simp [passage, hp]
  · simp [passage, hp, whole]

/-- The elements of two runs of cuts, one behind the other. -/
theorem elements_append (r : Reading) (below : Stack) (first second : List Cut) (rest : Text) :
    elements r below (first ++ second) rest =
      elements r below first (second.flatMap whole ++ rest) ++ elements r below second rest := by
  induction first with
  | nil => rfl
  | cons c first ih =>
    rw [List.cons_append, elements, elements, ih]
    simp

/-- The elements of one piece lie in one file. -/
theorem filter_elements (r : Reading) (below : Stack) (cuts : List Cut) (rest : Text)
    (file : Source) :
    (elements r below cuts rest).filter (·.liesIn file) =
      if r.source = file then elements r below cuts rest else [] := by
  induction cuts with
  | nil => simp [elements]
  | cons c cuts ih =>
    rw [elements, List.filter_cons, liesIn_element, ih]
    by_cases hr : r.source = file
    · simp [hr]
    · simp [hr]

end Cut

/-- Elements of a file are cut from the beginning of its content, one behind the other. -/
inductive Covers (file : Source) : List Element → Text → Prop
  /-- Nothing has been cut off. -/
  | nil : Covers file [] []
  /-- The next element begins where the one before it ends. -/
  | concat {elements : List Element} {front rest : Text} {c : Cut} {r : Reading} (below : Stack) :
      Covers file elements front → c.WellShaped → r.source = file →
      file.content = front ++ (c.whole ++ rest) →
      Covers file (elements ++ [c.element r below rest]) (front ++ c.whole)

namespace Covers

variable {file : Source} {elements : List Element} {front : Text}

/-- Elements that are cut one behind the other take up the bytes of their file. -/
theorem tiles (h : Covers file elements front) (hcr : '\r' ∉ file.content) :
    Element.Tiles file.content 0 elements front.byteLength := by
  induction h with
  | nil => rfl
  | concat below _ hc hr hcontent ih =>
    subst hr
    exact ih.concat (hc.spans below hcontent hcr)

/-- Elements that are cut out of a file show its text. -/
theorem shows (h : Covers file elements front) :
    ∀ e ∈ elements, e.kind.holdsText = true → e.Shows file.content := by
  induction h with
  | nil => exact fun e he => nomatch he
  | concat below _ hc hr hcontent ih =>
    intro e he hk
    rcases List.mem_append.mp he with he | he
    · exact ih e he hk
    · obtain rfl := List.mem_singleton.mp he
      subst hr
      exact Cut.shows_element below hcontent hk

/-- The elements of further cuts. -/
theorem append {cuts : List Cut} {rest : Text} {r : Reading} (h : Covers file elements front)
    (below : Stack) (hc : ∀ c ∈ cuts, c.WellShaped) (hr : r.source = file)
    (hcontent : file.content = front ++ (cuts.flatMap Cut.whole ++ rest)) :
    Covers file (elements ++ Cut.elements r below cuts rest) (front ++ cuts.flatMap Cut.whole) := by
  induction cuts generalizing elements front with
  | nil => simpa [Cut.elements] using h
  | cons c cuts ih =>
    rw [List.forall_mem_cons] at hc
    rw [List.flatMap_cons, List.append_assoc] at hcontent
    have hnext := ih (h.concat below hc.1 hr hcontent) hc.2 (by simpa using hcontent)
    simpa [Cut.elements] using hnext

end Covers

namespace Stack

/-- What has not been handed over of a file: of the innermost one also the pending text. -/
def ahead (file : Source) : Text → Stack → Text
  | _, [] => []
  | pending, r :: below => if r.source = file then pending ++ r.unread else ahead file [] below

/-- Nothing is ahead in files that are used up. -/
theorem ahead_of_used {file : Source} {s : Stack} (h : ∀ r ∈ s, r.unread = []) :
    ahead file [] s = [] := by
  induction s with
  | nil => rfl
  | cons r below ih =>
    rw [List.forall_mem_cons] at h
    rw [ahead, h.1, ih h.2]
    simp

/-- Nothing is ahead in a file that is not being read. -/
theorem ahead_of_id_not_mem {file : Source} {s : Stack} (pending : Text)
    (h : file.id ∉ s.map (·.source.id)) : ahead file pending s = [] := by
  induction s generalizing pending with
  | nil => rfl
  | cons r below ih =>
    rw [List.map_cons, List.mem_cons, not_or] at h
    rw [ahead, if_neg fun he => h.1 (by rw [he]), ih [] h.2]

/-- Nothing is lost with files that are used up. -/
theorem ahead_append (file : Source) {dropped rest : Stack} (hd : ∀ r ∈ dropped, r.unread = [])
    (hn : ((dropped ++ rest).map (·.source.id)).Nodup) :
    ahead file [] (dropped ++ rest) = ahead file [] rest := by
  induction dropped with
  | nil => rfl
  | cons q dropped ih =>
    rw [List.forall_mem_cons] at hd
    rw [List.cons_append, List.map_cons, List.nodup_cons] at hn
    rw [List.cons_append, ahead, ih hd.2 hn.2]
    split
    · rename_i hq
      rw [hd.1, ← hq, ahead_of_id_not_mem, List.append_nil]
      intro hm
      exact hn.1 (by rw [List.map_append]; exact List.mem_append_right _ hm)
    · rfl

end Stack

namespace Scan

/-- The elements handed over cover all that is not ahead, and the pending text comes next. -/
structure Covered (s : Scan (List Element)) : Prop where
  /-- The elements of each file are cut from what is not ahead of it. -/
  files : ∀ file ∈ s.input.opened, ∃ front, Covers file (s.state.filter (·.liesIn file)) front ∧
    file.content = front ++ s.input.stack.ahead file s.pendingText
  /-- Every element lies in a file that was opened. -/
  placed : ∀ e ∈ s.state, ∃ file ∈ s.input.opened, e.liesIn file = true
  /-- The pending text lies right before what is unread in the innermost file. -/
  pending : ∀ r below, s.input.stack = r :: below →
    s.pendingStart = { r with unread := s.pendingText ++ r.unread } :: below ∧
      ∀ p, s.pending? = some p → p.stop = r :: below

namespace Covered

variable {s s' t last : Scan (List Element)} {disk : Disk} {r : Reading} {below : Stack}
  {cuts : List Cut} {rest : Text}

/-- Elements cut from the innermost file keep it covered. -/
theorem extend (h : s.Covered) (hs : s.input.stack = r :: below) (hc : ∀ c ∈ cuts, c.WellShaped)
    (ht : s.pendingText ++ r.unread = cuts.flatMap Cut.whole ++ rest) {file : Source}
    (hm : file ∈ s.input.opened) :
    ∃ front,
      Covers file ((s.state ++ Cut.elements r below cuts rest).filter (·.liesIn file)) front ∧
      file.content = front ++ if r.source = file then rest else Stack.ahead file [] below := by
  obtain ⟨front, hcovers, hcontent⟩ := h.files file hm
  rw [hs, Stack.ahead] at hcontent
  rw [List.filter_append, Cut.filter_elements]
  by_cases hr : r.source = file
  · rw [if_pos hr, ht] at hcontent
    rw [if_pos hr, if_pos hr]
    exact ⟨_, hcovers.append below hc hr hcontent, by rw [hcontent, List.append_assoc]⟩
  · rw [if_neg hr] at hcontent
    rw [if_neg hr, if_neg hr, List.append_nil]
    exact ⟨front, hcovers, hcontent⟩

/-- Elements cut from a file lie in it. -/
theorem placed_append (h : s.Covered) (hm : r.source ∈ s.input.opened) (below : Stack)
    (cuts : List Cut) (rest : Text) :
    ∀ e ∈ s.state ++ Cut.elements r below cuts rest,
      ∃ file ∈ s.input.opened, e.liesIn file = true := by
  intro e he
  rcases List.mem_append.mp he with he | he
  · exact h.placed e he
  · have hself : e ∈ (Cut.elements r below cuts rest).filter (·.liesIn r.source) := by
      rwa [Cut.filter_elements, if_pos rfl]
    exact ⟨r.source, hm, (List.mem_filter.mp hself).2⟩

/-- The pending text is a cut of the innermost file. -/
theorem pendingElements_eq (h : s.Covered) (hsound : s.Sound) (hs : s.input.stack = r :: below) :
    s.pendingElements = Cut.elements r below (Cut.passage s.pendingText) r.unread := by
  cases hp : s.pending? with
  | none => simp [pendingElements, pendingText, hp, Cut.passage, Cut.elements]
  | some p =>
    obtain ⟨hstart, hstop⟩ := h.pending r below hs
    have hne := (hsound.pending p hp).1
    have htext : s.pendingText = p.text := by simp [pendingText, hp]
    rw [pendingStart, hp, Option.map_some, Option.getD_some, htext] at hstart
    simp [pendingElements, hp, htext, hne, Cut.passage, Cut.elements, Cut.element, Passage.element,
      ElementKind.holdsText, hstart, hstop p hp]

/-- Without pending text, the next element begins where the scan has arrived. -/
theorem pending_of_none (h : s.pending? = none) (hs : s.input.stack = r :: below) :
    s.pendingStart = { r with unread := s.pendingText ++ r.unread } :: below ∧
      ∀ p, s.pending? = some p → p.stop = r :: below := by
  refine ⟨?_, fun p hp => by rw [h] at hp; cases hp⟩
  simp [pendingStart, pendingText, h, hs]

/-- Dropping files that are used up. -/
theorem of_enter (h : s.Covered) (hsound : s.Sound)
    (he : s.settle.enterFile (.recorder true) disk = .ok t) : t.Covered := by
  obtain ⟨hinput, -, ⟨hsame, hstate, hpending⟩ | ⟨hne, hstate, hpending⟩⟩ := hsound.enter he
  · have hin : t.input = s.input := by rw [hinput, hsame]
    have htext : t.pendingText = s.pendingText := by rw [pendingText, hpending, pendingText]
    have hstart : t.pendingStart = s.pendingStart := by
      rw [pendingStart, hpending, hin, pendingStart]
    constructor
    · rw [hin, hstate, htext]
      exact h.files
    · rw [hin, hstate]
      exact h.placed
    · rw [hin, hstart, htext, hpending]
      exact h.pending
  · obtain ⟨dropped, hs, hd⟩ := Stack.settle_eq s.input.stack
    cases dropped with
    | nil => exact absurd hs.symm hne
    | cons q dropped =>
      rw [List.cons_append] at hs
      have hq := (List.forall_mem_cons.mp hd).1
      have htext : t.pendingText = [] := by rw [pendingText, hpending]; rfl
      have helements := h.pendingElements_eq hsound hs
      rw [hq] at helements
      have hopened : t.input.opened = s.input.opened := by rw [hinput]
      constructor
      · intro file hm
        rw [hopened] at hm
        obtain ⟨front, hcovers, hcontent⟩ := h.extend hs (Cut.wellShaped_passage s.pendingText)
          (by rw [hq, Cut.flatMap_whole_passage]) hm
        have hahead : (if q.source = file then [] else
            Stack.ahead file [] (dropped ++ s.input.stack.settle)) =
              Stack.ahead file [] s.input.stack.settle := by
          have hn := hsound.input.distinct
          rw [hs] at hn
          have := Stack.ahead_append file hd hn
          rwa [List.cons_append, Stack.ahead, hq] at this
        rw [hahead] at hcontent
        rw [hstate, helements, htext, hinput]
        exact ⟨front, hcovers, hcontent⟩
      · rw [hstate, helements, hopened]
        refine h.placed_append (hsound.input.opened q ?_) _ _ _
        rw [hs]
        exact List.mem_cons_self
      · intro r below hr
        exact pending_of_none hpending hr

/-- Reading plain text only adds to what is pending. -/
theorem readText (h : t.Covered) (hs : t.input.stack = r :: below) (hu : r.unread ≠ []) :
    t.readText.Covered := by
  have htext : t.pendingText ++ Cut.plainHead r.unread ++ Cut.plainTail r.unread =
      t.pendingText ++ r.unread := by
    rw [List.append_assoc, Cut.plainHead_append_plainTail]
  rw [readText_eq hs hu]
  constructor
  · intro file hm
    obtain ⟨front, hcovers, hcontent⟩ := h.files file hm
    refine ⟨front, hcovers, ?_⟩
    rw [hs, Stack.ahead] at hcontent
    rw [hcontent, ← htext]
    rfl
  · exact h.placed
  · intro q others hq
    obtain ⟨rfl, rfl⟩ := List.cons.inj hq
    refine ⟨?_, fun p hp => ?_⟩
    · rw [pendingStart, Option.map_some, Option.getD_some, (h.pending r below hs).1, ← htext]
      rfl
    · obtain rfl := Option.some.inj hp
      rfl

/-- The elements of a piece are handed over after the pending text. -/
theorem pieces (h : t.Covered) (hsound : t.Sound) (hs : t.input.stack = r :: below)
    {found : List Cut} (hp : Cut.pieces? r.unread = some (some (found, rest)))
    (hinput : s'.input = { t.input with stack := { r with unread := rest } :: below })
    (hstate : s'.state = t.state ++ t.pendingElements ++ Cut.elements r below found rest)
    (hpending : s'.pending? = none) : s'.Covered := by
  obtain ⟨hwhole, hshaped⟩ := Cut.spec_of_pieces? hp
  have htext : s'.pendingText = [] := by rw [pendingText, hpending]; rfl
  have hall : s'.state =
      t.state ++ Cut.elements r below (Cut.passage t.pendingText ++ found) rest := by
    rw [hstate, h.pendingElements_eq hsound hs, Cut.elements_append, ← hwhole, List.append_assoc]
  have hc : ∀ c ∈ Cut.passage t.pendingText ++ found, c.WellShaped := by
    intro c hc
    rcases List.mem_append.mp hc with hc | hc
    · exact Cut.wellShaped_passage t.pendingText c hc
    · exact hshaped c hc
  have hopened : s'.input.opened = t.input.opened := by rw [hinput]
  constructor
  · intro file hm
    rw [hopened] at hm
    have hahead : t.pendingText ++ r.unread =
        (Cut.passage t.pendingText ++ found).flatMap Cut.whole ++ rest := by
      rw [List.flatMap_append, Cut.flatMap_whole_passage, List.append_assoc, ← hwhole]
    obtain ⟨front, hcovers, hcontent⟩ := h.extend hs hc hahead hm
    rw [hall, htext, hinput]
    exact ⟨front, hcovers, hcontent⟩
  · rw [hall, hopened]
    exact h.placed_append (hsound.input.opened r (by simp [hs])) _ _ _
  · intro q others hq
    exact pending_of_none hpending hq

/-- Nothing has been handed over of a file that is just opened. -/
theorem opens (h : t.Covered) (hsound : t.Sound) {inclusion : Inclusion}
    (ho : t.input.tryOpen disk inclusion = .ok s'.input) (hstate : s'.state = t.state)
    (hnone : t.pending? = none) (hpending : s'.pending? = none) : s'.Covered := by
  obtain ⟨r, below, hs⟩ := List.exists_cons_of_ne_nil hsound.input.reading
  obtain ⟨path, content, canonical?, encoding, -, -, hopened, hstack⟩ :=
    Input.push_of_tryOpen hs ho
  have htext : t.pendingText = [] := by rw [pendingText, hnone]; rfl
  have htext' : s'.pendingText = [] := by rw [pendingText, hpending]; rfl
  have hnew : ∀ file ∈ t.input.opened,
      ⟨t.input.opened.length, path, content, canonical?⟩ ≠ file := by
    rintro file hm rfl
    exact Nat.lt_irrefl _ (hsound.input.id_lt hm)
  constructor
  · intro file hm
    rw [hopened] at hm
    rw [hstate, hstack, htext', Stack.ahead]
    rcases List.mem_append.mp hm with hm | hm
    · obtain ⟨front, hcovers, hcontent⟩ := h.files file hm
      rw [if_neg (hnew file hm)]
      rw [htext] at hcontent
      exact ⟨front, hcovers, hcontent⟩
    · obtain rfl := List.mem_singleton.mp hm
      have hnil : t.state.filter
          (·.liesIn ⟨t.input.opened.length, path, content, canonical?⟩) = [] := by
        refine List.filter_eq_nil_iff.mpr fun e he hl => ?_
        obtain ⟨file, hm, hfile⟩ := h.placed e he
        exact hnew file hm (Element.eq_of_liesIn hl hfile)
      rw [hnil, if_pos rfl]
      exact ⟨[], .nil, rfl⟩
  · intro e he
    rw [hstate] at he
    obtain ⟨file, hm, hfile⟩ := h.placed e he
    rw [hopened]
    exact ⟨file, List.mem_append_left _ hm, hfile⟩
  · intro q others hq
    exact pending_of_none hpending hq

/-- A step of the scan hands over what it passes. -/
theorem of_step (h : t.Covered) (hsound : t.Sound) (hid : t.input.stack.sourceId? = t.sourceId?)
    (hs : t.input.stack = r :: below) (hu : r.unread ≠ [])
    (hstep : t.step (.recorder true) disk = .ok s') : s'.Covered := by
  have hr : r.unread <:+ r.source.content := hsound.input.suffix r (by simp [hs])
  rcases step_recorder hid hs (Or.inl hsound.input.crossing) hr hstep with
    ⟨-, rfl⟩ | ⟨found, rest, hp, hstate, hpending, -, hled⟩
  · exact h.readText hs hu
  · rcases hled with ⟨hi, -⟩ | ⟨c, inclusion, -, -, -, ho⟩
    · exact h.pieces hsound hs hp hi hstate hpending
    · -- between handing over the include directive and opening its file
      let moved : Scan (List Element) :=
        { s' with input := { t.input with stack := { r with unread := rest } :: below } }
      have hmoved : moved.Covered := h.pieces hsound hs hp rfl hstate hpending
      have hrest : rest <:+ r.unread := ⟨_, (Cut.spec_of_pieces? hp).1.symm⟩
      have hsound' : moved.Sound := by
        refine ⟨hsound.input.move hs hrest, fun p hp => ?_⟩
        rw [show moved.pending? = none from hpending] at hp
        cases hp
      exact hmoved.opens hsound' ho rfl hpending hpending

/-- At the end every file is covered to its end. -/
theorem covers_of_stop (h : s.Covered) (hsound : s.Sound) (hu : s.input.stack.settle.unread = [])
    (hstate : last.state = s.state ++ s.pendingElements) {file : Source}
    (hm : file ∈ s.input.opened) :
    Covers file (last.state.filter (·.liesIn file)) file.content := by
  obtain ⟨r, below, hs⟩ := List.exists_cons_of_ne_nil hsound.input.reading
  have hused := Stack.unread_eq_nil_of_settle hu
  rw [hs, List.forall_mem_cons] at hused
  have helements := h.pendingElements_eq hsound hs
  rw [hused.1] at helements
  obtain ⟨front, hcovers, hcontent⟩ := h.extend hs (Cut.wellShaped_passage s.pendingText)
    (by rw [hused.1, Cut.flatMap_whole_passage]) hm
  rw [Stack.ahead_of_used hused.2, ite_self, List.append_nil] at hcontent
  rw [hstate, helements, hcontent]
  exact hcovers

/-- What is covered when a scan comes to its end. -/
theorem of_run (h : s.Covered) (hsound : s.Sound) (hrun : s.run (.recorder true) disk = .ok last) :
    s.input.opened ⊆ last.input.opened ∧
      (∀ e ∈ last.state, ∃ file ∈ last.input.opened, e.liesIn file = true) ∧
      ∀ file ∈ last.input.opened, '\r' ∉ file.content ∧
        Covers file (last.state.filter (·.liesIn file)) file.content := by
  refine hsound.run_induction (motive := fun s => s.Covered → s.input.opened ⊆ last.input.opened ∧
    (∀ e ∈ last.state, ∃ file ∈ last.input.opened, e.liesIn file = true) ∧
    ∀ file ∈ last.input.opened, '\r' ∉ file.content ∧
      Covers file (last.state.filter (·.liesIn file)) file.content) ?stop ?round hrun h
  case stop =>
    intro s hsound hu hstate hinput h
    have hopened : last.input.opened = s.input.opened := by rw [hinput]
    obtain ⟨r, below, hs⟩ := List.exists_cons_of_ne_nil hsound.input.reading
    rw [hopened]
    refine ⟨List.Subset.refl _, ?_, fun file hm => ⟨?_, h.covers_of_stop hsound hu hstate hm⟩⟩
    · rw [hstate, h.pendingElements_eq hsound hs]
      exact h.placed_append (hsound.input.opened r (by simp [hs])) _ _ _
    · rw [← hsound.input.unified file hm]
      exact Text.cr_not_mem_unifyBreaks _
  case round =>
    intro s t s' r below hsound he hsound' hid hs hu hstep ih h
    have ht := h.of_enter hsound he
    obtain ⟨hsubset, hrest⟩ := ih (ht.of_step hsound' hid hs hu hstep)
    have hopened : t.input.opened = s.input.opened := by rw [(hsound.enter he).1]
    refine ⟨?_, hrest⟩
    rw [← hopened]
    exact List.Subset.trans (hsound'.opened_subset hid hs hu hstep) hsubset

end Covered

/-- At the start of a scan, nothing has been passed. -/
theorem covered_start (name content : Text) (canonical? : Option Text) (baseDir : Text)
    (encoding : Encoding) :
    (start ((Input.empty false).push name content canonical? baseDir encoding) []).Covered := by
  refine ⟨fun file hm => ⟨[], .nil, ?_⟩, nofun, fun r below hs => ?_⟩
  · obtain rfl := List.mem_singleton.mp hm
    simp [start, Input.push, Input.empty, Stack.ahead, pendingText]
  · exact Covered.pending_of_none rfl hs

/-- When a root template is scanned to its end, files being read at their include directives, the
elements of every file that was opened take up all its bytes, each byte once and in order, and
those that hold text hold what the file has between their two places. -/
theorem tiles_of_run (name : Text) (canonical? : Option Text) (encoding : Encoding)
    {disk : Disk} {source baseDir : Text} {scan : Scan (List Element)}
    (h : (start ((Input.empty false).push name source canonical? baseDir encoding) []).run
      (.recorder true) disk = .ok scan) :
    ⟨0, name, source.unifyBreaks, canonical?⟩ ∈ scan.input.opened ∧
      (∀ e ∈ scan.state, ∃ file ∈ scan.input.opened, e.liesIn file = true) ∧
      ∀ file ∈ scan.input.opened,
        Element.Tiles file.content 0 (scan.state.filter (·.liesIn file)) file.content.byteLength ∧
        ∀ e ∈ scan.state, e.liesIn file = true → e.kind.holdsText = true →
          e.Shows file.content := by
  obtain ⟨hopened, hplaced, hcovers⟩ :=
    (covered_start name source canonical? baseDir encoding).of_run
      (sound_start name source canonical? baseDir encoding) h
  refine ⟨hopened (List.mem_singleton.mpr rfl), hplaced, fun file hm => ?_⟩
  obtain ⟨hcr, hfile⟩ := hcovers file hm
  exact ⟨hfile.tiles hcr, fun e he hl => hfile.shows e (List.mem_filter.mpr ⟨he, hl⟩)⟩

/-- An expression behind blanks, in a template that is left for another file and resumed. -/
theorem tiles_of_included_comment :
    ∃ scan, (start ((Input.empty false).push "page" "é<%@ include file='b' %><%= \n e %>" none []
        .utf8) []).run (.recorder true)
          (FileTree.empty.add "b" (.file (Encoding.encode "<%--x--%>y"))).disk = .ok scan ∧
      scan.input.opened.map Source.content =
        [("é<%@ include file='b' %><%= \n e %>" : Text), ("<%--x--%>y" : Text)] ∧
      ∀ file ∈ scan.input.opened,
        Element.Tiles file.content 0 (scan.state.filter (·.liesIn file))
          file.content.byteLength := by
  refine ⟨_, run_of_runWithin (n := 10) (Option.some_get ?_).symm, ?_, fun file hm => ?_⟩
  · decide +kernel
  · decide +kernel
  · exact ((tiles_of_run "page" none .utf8
      (run_of_runWithin (Option.some_get _).symm)).2.2 file hm).1

end Scan

end ServerPages
