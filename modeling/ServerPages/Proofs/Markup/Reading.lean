import ServerPages.Markup.Progress
import ServerPages.Proofs.Input.Reach
import ServerPages.Proofs.Markup.Shape

/-!
# Reading elements

Recognising an element reads on from the place where it begins: the element lies where reading has
come by, and if it turns out to be malformed, the failure is placed there as well. Whether an
element begins at all depends on the innermost file alone.
-/

namespace ServerPages

/-- A failure is placed where reading on from a stack comes by. -/
def Failure.PlacedFrom (s : Stack) (f : Failure) : Prop :=
  ∃ s', s.Reaches s' ∧ f.span? = some s'.span

namespace Recognition

open Stack

/-- What has been recognised at a place was found by reading on from there. -/
def ReadsOn (s : Stack) : Except Failure (Element × Stack) → Prop
  | .ok (e, rest) =>
    e.kind ≠ .plainText ∧ s.Reaches e.start ∧ s.Reaches e.stop ∧ s.Reaches rest
  | .error f => f.PlacedFrom s

variable {s start body rest : Stack} {crossing : Bool} {f : Failure}

/-- A delimiter that is missed is reported where the search for it began. -/
theorem span?_of_skipUntil {literal : Text}
    (h : s.skipUntil crossing literal = (.error f, rest)) : f.span? = some s.span := by
  unfold skipUntil at h
  split at h
  · cases h
  · cases h
    rfl

/-- An element up to a closing delimiter is read on from its beginning. -/
theorem readsOn_enclosed {kind : ElementKind} (hkind : kind ≠ .plainText) {close : Text}
    (h : s.Reaches body) : ReadsOn s (enclosed crossing kind close body) := by
  unfold enclosed
  split
  · rename_i stop after hskip
    obtain ⟨hstop, hafter⟩ := reaches_skipUntil_ok hskip
    exact ⟨hkind, h, h.trans hstop, h.trans (hstop.trans hafter)⟩
  · rename_i hskip
    exact ⟨body, h, span?_of_skipUntil hskip⟩

/-- Closing a tag reads on. -/
theorem reaches_closeTag {closes : List Text} (h : closeTag start s closes = .ok rest) :
    s.Reaches rest := by
  fun_induction closeTag start s closes with
  | case1 =>
    cases h
    exact .refl s
  | case2 close after ha =>
    cases h
    exact reaches_accept? ha
  | case3 => cases h
  | case4 close others _ after ha =>
    cases h
    exact reaches_accept? ha
  | case5 close others _ _ ih => exact ih h

/-- A tag that is not closed is reported where it begins. -/
theorem span?_of_closeTag {closes : List Text} (h : closeTag start s closes = .error f) :
    f.span? = some start.span := by
  fun_induction closeTag start s closes with
  | case1 => cases h
  | case2 => cases h
  | case3 =>
    cases h
    rfl
  | case4 => cases h
  | case5 close others _ _ ih => exact ih h

/-- Reading the rest of a tag reads on. -/
theorem reaches_tagRest {closes : List Text} {found : Attributes}
    (h : tagRest start body closes = .ok (found, rest)) : body.Reaches rest := by
  have hread := reaches_readAttributes body
  unfold tagRest at h
  split at h
  · cases h
  · rename_i attributes after ha
    rw [ha] at hread
    split at h
    · rename_i stop hclose
      cases h
      exact hread.trans ((reaches_skipSpaces after).trans (reaches_closeTag hclose))
    · cases h

/-- The rest of a tag is missed where the tag begins, or where its attributes break off. -/
theorem placedFrom_tagRest {closes : List Text} (hstart : s.Reaches start) (hbody : s.Reaches body)
    (hne : body ≠ []) (h : tagRest start body closes = .error f) : f.PlacedFrom s := by
  have hread := reaches_readAttributes body
  unfold tagRest at h
  split at h
  · rename_i failure after ha
    cases h
    rw [ha] at hread
    refine ⟨after, hbody.trans hread, ?_⟩
    unfold readAttributes at ha
    split at ha
    · cases ha
    · cases ha
      rw [Stack.failure, if_neg (hread.ne_nil hne)]
  · split at h
    · cases h
    · rename_i failure hclose
      cases h
      exact ⟨start, hstart, span?_of_closeTag hclose⟩

/-- A directive is read on from its beginning. -/
theorem readsOn_directive (hbody : s.Reaches body) (hne : body ≠ []) :
    ReadsOn s (directive s body) := by
  have hnamed : s.Reaches body.skipSpaces := hbody.trans (reaches_skipSpaces body)
  have hrest : s.Reaches (body.skipSpaces.setUnread (body.skipSpaces.unread.drop
      (body.skipSpaces.unread.takeWhile Char.isAlphanum).length)) :=
    hnamed.trans (reaches_setUnread (List.drop_suffix _ _))
  have hne' := (reaches_skipSpaces body).ne_nil hne
  simp only [directive]
  split
  · split
    · rename_i found stop htag
      have hstop := hrest.trans (reaches_tagRest htag)
      exact ⟨fun hkind => (by cases hkind), .refl s, hstop, hstop⟩
    · rename_i failure htag
      exact placedFrom_tagRest (.refl s) hrest
        ((reaches_setUnread (List.drop_suffix _ _)).ne_nil hne') htag
  · exact ⟨s, .refl s, rfl⟩

/-- The head of a method is read on from its beginning. -/
theorem readsOn_methodHead (hbody : s.Reaches body) (hne : body ≠ []) :
    ReadsOn s (methodHead s body) := by
  unfold methodHead
  split
  · rename_i found stop htag
    have hstop := hbody.trans (reaches_tagRest htag)
    exact ⟨fun hkind => (by cases hkind), .refl s, hstop, hstop⟩
  · rename_i failure htag
    exact placedFrom_tagRest (.refl s) hbody hne htag

/-- A tag without a body is read on from its beginning. -/
theorem readsOn_emptyTag {kind : ElementKind} (hkind : kind ≠ .plainText) (hbody : s.Reaches body)
    (hne : body ≠ []) : ReadsOn s (emptyTag kind s body) := by
  have hrest := hbody.trans (reaches_skipSpaces body)
  unfold emptyTag
  split
  · rename_i found stop htag
    have hstop := hrest.trans (reaches_tagRest htag)
    exact ⟨hkind, .refl s, hstop, hstop⟩
  · rename_i failure htag
    exact placedFrom_tagRest (.refl s) hrest ((reaches_skipSpaces body).ne_nil hne) htag

/-- The end of a block is read on from its beginning. -/
theorem readsOn_endBlock? {e : Element} (h : endBlock? s = some (e, rest)) :
    ReadsOn s (.ok (e, rest)) := by
  have hkind : ∀ marked, ElementKind.endBlock marked ≠ .plainText := fun _ hk => by cases hk
  unfold endBlock? at h
  split at h
  · cases h
  · rename_i body hopen
    split at h
    · cases h
    · rename_i word hword
      have hgap : s.Reaches word.skipSpaces :=
        (reaches_accept? hopen).trans ((reaches_skipSpaces body).trans
          ((reaches_accept? hword).trans (reaches_skipSpaces word)))
      split at h
      · rename_i stop hclose
        cases h
        have hstop := hgap.trans (reaches_accept? hclose)
        exact ⟨hkind false, .refl s, hstop, hstop⟩
      · obtain ⟨stop, hclose, he⟩ := Option.map_eq_some_iff.mp h
        cases he
        have hstop := hgap.trans (reaches_accept? hclose)
        exact ⟨hkind true, .refl s, hstop, hstop⟩

/-- Every element is read on from its beginning. -/
theorem readsOn_element? {result : Except Failure (Element × Stack)}
    (h : element? crossing s = some result) : ReadsOn s result := by
  have hne : ∀ {literal : Text} {b : Stack}, s.accept? literal = some b → b ≠ [] := by
    intro literal b hb
    apply (reaches_accept? hb).ne_nil
    rintro rfl
    cases hb
  simp only [element?, Option.or_eq_some_iff, Option.map_eq_some_iff] at h
  rcases h with ((((((((⟨b, hb, rfl⟩ | ⟨-, b, hb, rfl⟩) | ⟨-, b, hb, rfl⟩) |
    ⟨-, ⟨e, rest⟩, hb, rfl⟩) | ⟨-, b, hb, rfl⟩) | ⟨-, b, hb, rfl⟩) | ⟨-, b, hb, rfl⟩) |
    ⟨-, b, hb, rfl⟩) | ⟨-, b, hb, rfl⟩) | ⟨-, b, hb, rfl⟩
  · exact readsOn_enclosed (by decide) (reaches_accept? hb)
  · exact readsOn_enclosed (by decide) ((reaches_accept? hb).trans (reaches_skipSpaces b))
  · exact readsOn_directive (reaches_accept? hb) (hne hb)
  · exact readsOn_endBlock? hb
  · exact readsOn_enclosed (by decide) (reaches_accept? hb)
  · exact readsOn_enclosed (by decide) (reaches_accept? hb)
  · exact readsOn_enclosed (by decide) (reaches_accept? hb)
  · exact readsOn_methodHead (reaches_accept? hb) (hne hb)
  · exact readsOn_emptyTag (by decide) (reaches_accept? hb) (hne hb)
  · exact readsOn_emptyTag (by decide) (reaches_accept? hb) (hne hb)

/-- The body of a method begins where its head ends. -/
theorem readsOn_methodBody {head e : Element}
    (h : methodBody crossing head s = .ok (e, rest)) :
    e.kind ≠ .plainText ∧ e.start = head.stop ∧ s.Reaches rest := by
  unfold methodBody at h
  split at h
  · rename_i stop after hskip
    cases h
    obtain ⟨hstop, hafter⟩ := reaches_skipUntil_ok hskip
    exact ⟨fun hkind => (by cases hkind), rfl, hstop.trans hafter⟩
  · cases h

/-- A body that is not closed is reported where it begins. -/
theorem span?_of_methodBody {head : Element} (h : methodBody crossing head s = .error f) :
    f.span? = some s.span := by
  unfold methodBody at h
  split at h
  · cases h
  · rename_i hskip
    cases h
    exact span?_of_skipUntil hskip

/-- An element begins where the innermost file goes on with an opener, whether or not elements may
cross the ends of files. -/
theorem element?_eq_none_iff {r : Reading} {below : Stack}
    (hr : r.unread <:+ r.source.content) :
    element? crossing (r :: below) = none ↔ Cut.first? r.unread = none := by
  simp only [element?, Cut.first?, Cut.endBlock?_cons hr, Stack.accept?, Option.or_eq_none_iff,
    Option.map_eq_none_iff]

end Recognition

/-- No element begins inside of plain text. -/
theorem Cut.first?_of_suffix_plainHead {t u : Text} (h : first? t = none)
    (hu : u <:+ plainHead t) (hne : u ≠ []) : first? (u ++ plainTail t) = none := by
  cases t with
  | nil => exact absurd (List.suffix_nil.mp hu) hne
  | cons c rest =>
    rcases List.suffix_cons_iff.mp hu with rfl | hrest
    · rw [← plainHead, plainHead_append_plainTail]
      exact h
    · obtain ⟨d, more, rfl⟩ := List.exists_cons_of_ne_nil hne
      have hd : d ≠ '<' := by
        have hall := List.all_takeWhile (p := (· ≠ '<')) (l := rest)
        simpa using List.all_eq_true.mp hall d (hrest.subset List.mem_cons_self)
      exact first?_cons_eq_none hd _

end ServerPages
