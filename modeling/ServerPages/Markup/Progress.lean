import ServerPages.Input.Progress
import ServerPages.Markup.Recognition

/-!
# Progress by recognition

Recognising an element is progress in the input: its opening delimiter is read in the innermost
file, and what follows is read in the same file or, for a closing delimiter that may lie beyond the
end of the file, in a file below it.
-/

namespace ServerPages.Recognition

open Stack

private theorem stays_readAttributes {s s' : Stack} {found : Except Failure Attributes}
    (h : readAttributes s = (found, s')) : Stays s' s := by
  have hl : (AttributeList.read s.unread).2.length ≤ s.unread.length :=
    AttributeList.length_readFrom_le _ _
  unfold readAttributes at h
  split at h
  · rename_i he
    cases h
    exact stays_setUnread (by simpa only [he] using hl)
  · rename_i he
    cases h
    exact stays_setUnread (by simpa only [he] using hl)

private theorem stays_closeTag {start s s' : Stack} {closes : List Text}
    (hc : ∀ close ∈ closes, close ≠ []) (h : closeTag start s closes = .ok s') : Stays s' s := by
  fun_induction closeTag start s closes with
  | case1 => cases h; exact .refl s
  | case2 close rest ha => cases h; exact (nearer_of_accept? (hc _ (by simp)) ha).stays
  | case3 => cases h
  | case4 close others _ rest ha => cases h; exact (nearer_of_accept? (hc _ (by simp)) ha).stays
  | case5 close others _ _ ih => exact ih (fun c hm => hc c (by simp [hm])) h

private theorem stays_tagRest {start body s' : Stack} {closes : List Text} {found : Attributes}
    (hc : ∀ close ∈ closes, close ≠ []) (h : tagRest start body closes = .ok (found, s')) :
    Stays s' body := by
  unfold tagRest at h
  split at h
  · cases h
  · rename_i rest hr
    split at h
    · rename_i stop hs
      cases h
      exact (stays_closeTag hc hs).trans
        ((stays_skipSpaces rest).trans (stays_readAttributes hr))
    · cases h

private theorem ahead_enclosed {crossing : Bool} {kind : ElementKind} {close : Text}
    {body s' : Stack} {e : Element} (hc : close ≠ [])
    (h : enclosed crossing kind close body = .ok (e, s')) :
    Ahead s' body ∧ s'.length ≤ body.length := by
  unfold enclosed at h
  split at h
  · rename_i hs
    cases h
    exact ahead_of_skipUntil hc hs
  · cases h

theorem ahead_methodBody {crossing : Bool} {head e : Element} {s s' : Stack}
    (h : methodBody crossing head s = .ok (e, s')) : Ahead s' s ∧ s'.length ≤ s.length := by
  unfold methodBody at h
  split at h
  · rename_i hs
    cases h
    exact ahead_of_skipUntil (by decide) hs
  · cases h

private theorem stays_directive {start body s' : Stack} {e : Element}
    (h : directive start body = .ok (e, s')) : Stays s' body := by
  simp only [directive] at h
  split at h
  · split at h
    · rename_i found stop hr
      cases h
      exact (stays_tagRest (by decide) hr).trans
        ((stays_setUnread (by simp)).trans (stays_skipSpaces body))
    · cases h
  · cases h

private theorem nearer_endBlock? {s s' : Stack} {e : Element} (h : endBlock? s = some (e, s')) :
    Nearer s' s := by
  unfold endBlock? at h
  split at h
  · cases h
  · rename_i body hb
    have hb := nearer_of_accept? (by decide) hb
    split at h
    · cases h
    · rename_i rest hr
      have hr := (nearer_of_accept? (by decide) hr).stays.trans (stays_skipSpaces body)
      split at h
      · rename_i stop ha
        cases h
        have ha := (nearer_of_accept? (by decide) ha).stays.trans (stays_skipSpaces rest)
        exact .of_stays (ha.trans hr) hb
      · obtain ⟨stop, ha, he⟩ := Option.map_eq_some_iff.mp h
        cases he
        have ha := (nearer_of_accept? (by decide) ha).stays.trans (stays_skipSpaces rest)
        exact .of_stays (ha.trans hr) hb

private theorem stays_methodHead {start body s' : Stack} {e : Element}
    (h : methodHead start body = .ok (e, s')) : Stays s' body := by
  unfold methodHead at h
  split at h
  · rename_i hr
    cases h
    exact stays_tagRest (by decide) hr
  · cases h

private theorem stays_emptyTag {kind : ElementKind} {start body s' : Stack} {e : Element}
    (h : emptyTag kind start body = .ok (e, s')) : Stays s' body := by
  unfold emptyTag at h
  split at h
  · rename_i hr
    cases h
    exact (stays_tagRest (by decide) hr).trans (stays_skipSpaces body)
  · cases h


private theorem ahead_of_nearer {s'' s' s : Stack} (h : Nearer s' s)
    (h' : Ahead s'' s' ∧ s''.length ≤ s'.length) : Ahead s'' s ∧ s''.length ≤ s.length :=
  ⟨h'.1.trans h.ahead, h.length_eq ▸ h'.2⟩

private theorem ahead_of_stays {s'' s' s : Stack} (h : Nearer s' s) (h' : Stays s'' s') :
    Ahead s'' s ∧ s''.length ≤ s.length :=
  have hn : Nearer s'' s := .of_stays h' h
  ⟨hn.ahead, Nat.le_of_eq hn.length_eq⟩

/-- Every element that is recognised is progress, and takes files off at most. -/
theorem ahead_element? {crossing : Bool} {s s' : Stack} {e : Element}
    (h : element? crossing s = some (.ok (e, s'))) : Ahead s' s ∧ s'.length ≤ s.length := by
  simp only [element?, Option.or_eq_some_iff, Option.map_eq_some_iff, Except.ok.injEq] at h
  rcases h with ((((((((⟨b, hb, h⟩ | ⟨-, b, hb, h⟩) | ⟨-, b, hb, h⟩) | ⟨-, b, hb, rfl⟩) |
    ⟨-, b, hb, h⟩) | ⟨-, b, hb, h⟩) | ⟨-, b, hb, h⟩) | ⟨-, b, hb, h⟩) | ⟨-, b, hb, h⟩) |
    ⟨-, b, hb, h⟩
  · exact ahead_of_nearer (nearer_of_accept? (by decide) hb) (ahead_enclosed (by decide) h)
  · exact ahead_of_nearer (.of_stays (stays_skipSpaces b) (nearer_of_accept? (by decide) hb))
      (ahead_enclosed (by decide) h)
  · exact ahead_of_stays (nearer_of_accept? (by decide) hb) (stays_directive h)
  · exact ahead_of_stays (nearer_endBlock? hb) (.refl s')
  · exact ahead_of_nearer (nearer_of_accept? (by decide) hb) (ahead_enclosed (by decide) h)
  · exact ahead_of_nearer (nearer_of_accept? (by decide) hb) (ahead_enclosed (by decide) h)
  · exact ahead_of_nearer (nearer_of_accept? (by decide) hb) (ahead_enclosed (by decide) h)
  · exact ahead_of_stays (nearer_of_accept? (by decide) hb) (stays_methodHead h)
  · exact ahead_of_stays (nearer_of_accept? (by decide) hb) (stays_emptyTag h)
  · exact ahead_of_stays (nearer_of_accept? (by decide) hb) (stays_emptyTag h)

end ServerPages.Recognition
