import Mathlib.Data.List.Chain
import ServerPages.Proofs.Markup.Coverage
import ServerPages.Proofs.Markup.Upkeep

/-!
# Plain text is whole

Plain text is handed over in pieces that are as long as they can be. Such a piece lies in one file
and hides nothing that could begin an element, and where two of them follow each other directly,
they come from different files. This holds of every visitor, and also of what a visitor has been
handed before a scan is broken off.
-/

namespace ServerPages

namespace Element

/-- Plain text that stands in one of the files, where no element begins. -/
structure PlainIn (files : List Source) (e : Element) : Prop where
  /-- There is some text. -/
  nonempty : e.text ≠ []
  /-- It is what a file has between two places, and nowhere between them the file goes on with an
  opener. -/
  inFile : ∃ file ∈ files, e.liesIn file = true ∧
    file.content.slice? e.start.cursor e.stop.cursor = some e.text ∧
    ∀ front rest : Text, file.content = front ++ rest → e.start.cursor ≤ front.byteLength →
      front.byteLength < e.stop.cursor → ∀ opener ∈ Recognition.openers, ¬ opener <+: rest

/-- Two elements that are not both plain text of one file. -/
def Apart (e other : Element) : Prop :=
  e.kind = .plainText → other.kind = .plainText → e.start.sourceId? ≠ other.start.sourceId?

/-- Plain text stays plain text of its file when more files are opened. -/
theorem PlainIn.mono {files more : List Source} {e : Element} (h : e.PlainIn files)
    (hmore : files ⊆ more) : e.PlainIn more := by
  obtain ⟨file, hfile, hlies⟩ := h.inFile
  exact ⟨h.nonempty, file, hmore hfile, hlies⟩

end Element

/-- A passage that ends at a place is plain text of the innermost file. -/
theorem Passage.EndsAt.plainIn {files : List Source} {p : Passage} {r : Reading} {below : Stack}
    (h : p.EndsAt r below) (hfile : files[r.source.id]? = some r.source) :
    p.element.PlainIn files := by
  obtain ⟨front, hfront⟩ := h.suffix
  have hcontent : r.source.content = front ++ (p.text ++ r.unread) := hfront.symm
  have hstart : p.start.cursor = Text.byteLength front := by
    rw [h.start]
    exact Reading.cursor_eq (r := { r with unread := p.text ++ r.unread }) hcontent
  have hstop : p.stop.cursor = Text.byteLength front + p.text.byteLength := by
    rw [h.stop, ← Text.byteLength_append]
    exact Reading.cursor_eq (by rw [hcontent, List.append_assoc])
  refine ⟨h.nonempty, r.source, List.mem_of_getElem? hfile, ?_, ?_, ?_⟩
  · simp [Element.liesIn, Passage.element, h.start, h.stop]
  · show r.source.content.slice? p.start.cursor p.stop.cursor = some p.text
    rw [hstart, hstop, hcontent, Text.slice?, if_pos (Nat.le_add_right ..),
      Text.dropBytes?_append, Option.bind_some, Nat.add_sub_cancel_left, Text.takeBytes?_append]
  · intro before rest hsplit hle hlt
    replace hle : Text.byteLength front ≤ before.byteLength := hstart ▸ hle
    replace hlt : before.byteLength < Text.byteLength front + p.text.byteLength := hstop ▸ hlt
    -- The place lies in the passage: some of its text is left there.
    obtain ⟨read, rfl⟩ := Text.prefix_of_byteLength_le ⟨_, hfront⟩ ⟨rest, hsplit.symm⟩ hle
    have hrest : read ++ rest = p.text ++ r.unread := by
      rw [hcontent, List.append_assoc] at hsplit
      exact (List.append_cancel_left hsplit).symm
    rw [Text.byteLength_append] at hlt
    obtain ⟨left, hleft⟩ := Text.prefix_of_byteLength_le ⟨rest, hrest⟩ (List.prefix_append _ _)
      (by omega : Text.byteLength read ≤ p.text.byteLength)
    have hne : left ≠ [] := by
      rintro rfl
      rw [List.append_nil] at hleft
      rw [hleft] at hlt
      omega
    obtain rfl : rest = left ++ r.unread := by
      rw [← hleft, List.append_assoc] at hrest
      exact List.append_cancel_left hrest
    exact Cut.first?_eq_none_iff.mp (h.plain left ⟨read, hleft⟩ hne)

/-- Elements whose plain texts are whole, behind which plain text comes next from some files
only. -/
structure Element.Whole (files : List Source) (ids : List Nat) (found : List Element) : Prop where
  /-- Plain text stands in the files. -/
  plain : ∀ e ∈ found, e.kind = .plainText → e.PlainIn files
  /-- Plain texts that follow each other come from different files. -/
  apart : found.IsChain Element.Apart
  /-- The next plain text comes from another file than the last one. -/
  last : ∀ e ∈ found.getLast?, e.kind = .plainText → ∀ n ∈ e.start.sourceId?,
    n < files.length ∧ n ∉ ids

/-- One more element keeps passages whole if it is no text of the same file as the last one. -/
theorem Element.Whole.concat {files : List Source} {ids : List Nat} {found : List Element}
    {e : Element} (h : Whole files ids found) {others : List Nat}
    (he : e.kind = .plainText → e.PlainIn files)
    (hbefore : ∀ last ∈ found.getLast?, last.Apart e)
    (hnext : e.kind = .plainText → ∀ n ∈ e.start.sourceId?, n < files.length ∧ n ∉ others) :
    Whole files others (found ++ [e]) := by
  refine ⟨?_, ?_, ?_⟩
  · intro e' he'
    rcases List.mem_append.mp he' with hold | hnew
    · exact h.plain e' hold
    · obtain rfl := List.mem_singleton.mp hnew
      exact he
  · rw [List.isChain_append]
    refine ⟨h.apart, List.isChain_singleton e, ?_⟩
    intro last hlast first hfirst
    obtain rfl : e = first := Option.some.inj hfirst
    exact hbefore last hlast
  · intro last hlast
    rw [List.getLast?_concat] at hlast
    obtain rfl : e = last := Option.some.inj hlast
    exact hnext

/-- Whatever the visitor does, passages are handed over as a whole. -/
theorem Visitor.upholds_whole {σ : Type} (v : Visitor σ) (disk : Disk) :
    v.recording.Upholds disk fun files ids state => Element.Whole files ids state.2 where
  fewer h hfewer :=
    ⟨h.plain, h.apart, fun e he hk n hn => ⟨(h.last e he hk n hn).1,
      fun hmem => (h.last e he hk n hn).2 (hfewer hmem)⟩⟩
  opens {files ids a file} h hid _ := by
    refine ⟨fun e he hk => (h.plain e he hk).mono (List.subset_append_left _ _), h.apart, ?_⟩
    intro e he hk n hn
    obtain ⟨hlt, hnot⟩ := h.last e he hk n hn
    refine ⟨by rw [List.length_append]; omega, ?_⟩
    rw [List.mem_cons, not_or]
    exact ⟨by omega, hnot⟩
  text {files ids others a stack p r below} hp hfile h hothers hn := by
    have hstart : p.element.start.sourceId? = some r.source.id := by
      show p.start.sourceId? = _
      rw [hp.start]
      rfl
    refine h.concat (fun _ => hp.plainIn hfile) ?_ ?_
    · intro last hlast hk _ hsame
      rw [hstart] at hsame
      exact (h.last last hlast hk _ hsame).2 List.mem_cons_self
    · intro _ n hmem
      obtain rfl : r.source.id = n := Option.some.inj (hstart.symm.trans hmem)
      exact ⟨(List.getElem?_eq_some_iff.mp hfile).1, hn⟩
  element {files ids a stack e} hkind _ _ h :=
    h.concat (fun hk => absurd hk hkind) (fun _ _ _ hk => absurd hk hkind)
      fun hk => absurd hk hkind

namespace Scan

variable {σ : Type}

/-- The state of a scan at its end, or when it was broken off. -/
def left : Except (Halt σ) (Scan σ) → Scan σ
  | .ok s => s
  | .error halt => halt.scan

/-- Whatever a visitor does with the elements of a template, and whether or not the scan comes to an
end: every plain text that is handed over stands in a file as it is and hides no opener, and two
plain texts follow each other directly only if they come from different files. -/
theorem plainText_whole (v : Visitor σ) (disk : Disk) (crossing : Bool) (name source : Text)
    (canonical? : Option Text) (baseDir : Text) (encoding : Encoding) (state : σ) :
    let last := left ((start ((Input.empty crossing).push name source canonical? baseDir encoding)
      (state, [])).run v.recording disk)
    (∀ e ∈ last.state.2, e.kind = .plainText → e.PlainIn last.input.opened) ∧
      last.state.2.IsChain Element.Apart := by
  intro last
  have hkept : (start ((Input.empty crossing).push name source canonical? baseDir encoding)
      (state, [])).Kept fun files ids state => Element.Whole files ids state.2 := by
    apply kept_start (.root crossing name source canonical? baseDir encoding)
    exact ⟨fun e he => absurd he List.not_mem_nil, List.isChain_nil,
      fun e he => absurd he.symm (Option.some_ne_none e)⟩
  have hends := ends_run (v.upholds_whole disk) hkept
  have hwhole : Element.Whole last.input.opened [] last.state.2 := by
    simp only [last]
    generalize Scan.run _ _ _ = result at hends ⊢
    cases result with
    | ok s => exact hends
    | error halt => exact hends.1
  exact ⟨hwhole.plain, hwhole.apart⟩

/-- Plain text with brackets that open nothing, at the end of an included file and then in the file
that includes it. -/
theorem plainText_whole_of_include :
    let v : Visitor Unit := ⟨fun _ _ _ state => (state, none), true⟩
    let disk := (FileTree.empty.add "c" (.file (Encoding.encode "x<p"))).disk
    ∃ last, (start ((Input.empty true).push "page" "a<é<%@ include file='c' %>d" none [] .utf8)
        ((), [])).run v.recording disk = .ok last ∧
      last.state.2.map (fun e => (e.text, e.start.sourceId?)) =
        [("a<é".toList, some 0), ("<%@ include file='c' %>".toList, some 0),
          ("x<p".toList, some 1), ("d".toList, some 0)] ∧
      (∀ e ∈ last.state.2, e.kind = .plainText → e.PlainIn last.input.opened) ∧
      last.state.2.IsChain Element.Apart := by
  intro v disk
  have hwhole := plainText_whole v disk true "page" "a<é<%@ include file='c' %>d" none [] .utf8 ()
  have hrun : (start ((Input.empty true).push "page" "a<é<%@ include file='c' %>d" none [] .utf8)
      ((), [])).run v.recording disk = .ok _ :=
    run_of_runWithin (n := 10) (Option.some_get (by decide +kernel)).symm
  rw [hrun] at hwhole
  exact ⟨_, hrun, by decide +kernel, hwhole⟩

end Scan

end ServerPages
