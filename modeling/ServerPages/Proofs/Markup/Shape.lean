import ServerPages.Proofs.Markup.Cut

/-!
# The shape of cuts

The kind of an element settles its delimiters, and a text begins an element exactly when it begins
with one of six openers. A text is cut to its end by taking one piece after the other: plain text
collects until an element begins, and a method head comes together with its body.
-/

namespace ServerPages

/-- The beginnings by which elements are told from plain text. -/
def Recognition.openers : List Text :=
  ["<%", "<psp:file>", "<psp:class>", "<psp:method", "<psp:include", "<psp:insert"]

/-- The parts of an element that lie before and after the text between its two places. -/
def ElementKind.Delimited : ElementKind → Text → Text → Prop
  | .comment, opening, closing => opening = "<%--" ∧ closing = "--%>"
  | .expression, opening, closing =>
    (∃ gap : Text, gap.all isTagSpace ∧ opening = "<%=" ++ gap) ∧ closing = "%>"
  | .script, opening, closing => opening = "<%" ∧ closing = "%>"
  | .moduleCode, opening, closing => opening = "<psp:file>" ∧ closing = "</psp:file>"
  | .classCode, opening, closing => opening = "<psp:class>" ∧ closing = "</psp:class>"
  | .methodBody, opening, closing => opening = [] ∧ closing = "</psp:method>"
  | _, opening, closing => opening = [] ∧ closing = []

namespace Cut

/-- A cut has the delimiters of its kind and is not empty. -/
structure WellShaped (c : Cut) : Prop where
  /-- The opening and closing parts belong to the kind. -/
  delimited : c.kind.Delimited c.opening c.closing
  /-- Something is read. -/
  whole_ne : c.whole ≠ []

/-- An enclosed element is cut off between its delimiters. -/
theorem eq_append_of_enclosed? {kind : ElementKind} {attributes : Attributes}
    {opening close t rest : Text} {c : Cut}
    (h : enclosed? kind attributes opening close t = some (c, rest)) :
    opening ++ t = c.whole ++ rest ∧ c.kind = kind ∧ c.attributes = attributes ∧
      c.opening = opening ∧ c.closing = close := by
  obtain ⟨⟨body, after⟩, hs, he⟩ := Option.map_eq_some_iff.mp h
  obtain ⟨rfl, rfl⟩ := Prod.mk.inj he
  refine ⟨?_, rfl, rfl, rfl, rfl⟩
  rw [Text.eq_append_of_splitFirst? hs, whole]
  simp only [List.append_assoc]

/-- A tag has no delimiters around it and takes more than its opener. -/
private theorem spec_of_tag {kind : ElementKind} {opener t body stop rest : Text}
    {found : Attributes} {c : Cut} (ho : Text.after? opener t = some body) (hn : opener ≠ [])
    (hs : stop <:+ body) (h : tag kind t (found, stop) = (c, rest)) (hk : kind.Delimited [] []) :
    t = c.whole ++ rest ∧ c.WellShaped := by
  obtain ⟨front, rfl⟩ := hs
  obtain rfl := Text.after?_eq_some_iff.mp ho
  rw [← List.append_assoc, tag_append] at h
  obtain ⟨rfl, rfl⟩ := Prod.mk.inj h
  refine ⟨by simp [whole], hk, ?_⟩
  simp [whole, hn]

/-- An enclosed element behind its opening delimiter is well shaped. -/
private theorem spec_of_enclosed? {kind : ElementKind} {opener gap close t body after rest : Text}
    {c : Cut} (ho : Text.after? opener t = some body) (hn : opener ≠ [])
    (hg : body = gap ++ after)
    (h : enclosed? kind .empty (opener ++ gap) close after = some (c, rest))
    (hk : kind.Delimited (opener ++ gap) close) :
    t = c.whole ++ rest ∧ c.WellShaped := by
  obtain ⟨hw, rfl, -, hop, rfl⟩ := eq_append_of_enclosed? h
  rw [Text.after?_eq_some_iff.mp ho, hg, ← List.append_assoc, hw]
  refine ⟨rfl, hop ▸ hk, ?_⟩
  simp [whole, hop, hn]

/-- The end of a block is well shaped. -/
private theorem spec_of_endBlock? {t rest : Text} {c : Cut} (h : endBlock? t = some (c, rest)) :
    t = c.whole ++ rest ∧ c.WellShaped := by
  simp only [endBlock?, Option.bind_eq_some_iff, Option.or_eq_some_iff,
    Option.map_eq_some_iff] at h
  obtain ⟨body, ho, word, he, ⟨stop, hc, h⟩ | ⟨-, stop, hc, h⟩⟩ := h
  all_goals
    have hs := (Text.suffix_of_after? hc).trans ((AttributeList.suffix_skipSpaces word).trans
      ((Text.suffix_of_after? he).trans (AttributeList.suffix_skipSpaces body)))
    exact spec_of_tag ho (by decide) hs h ⟨rfl, rfl⟩

/-- The element with which a text begins has the shape of its kind, and with the rest it makes up
the text. -/
theorem spec_of_first? {t rest : Text} {c : Cut} (h : first? t = some (some (c, rest))) :
    t = c.whole ++ rest ∧ c.WellShaped := by
  simp only [first?, Option.or_eq_some_iff, Option.map_eq_some_iff, Option.some.injEq] at h
  rcases h with ((((((((⟨b, hb, h⟩ | ⟨-, b, hb, h⟩) | ⟨-, b, hb, h⟩) | ⟨-, b, hb, rfl⟩) |
    ⟨-, b, hb, h⟩) | ⟨-, b, hb, h⟩) | ⟨-, b, hb, h⟩) | ⟨-, b, hb, found, hf, h⟩) |
    ⟨-, b, hb, found, hf, h⟩) | ⟨-, b, hb, found, hf, h⟩
  · exact spec_of_enclosed? hb (by decide) (List.nil_append b).symm h ⟨rfl, rfl⟩
  · have hg : (b.takeWhile isTagSpace).all isTagSpace := by simp
    exact spec_of_enclosed? hb (by decide) (Text.takeWhile_isTagSpace_append b).symm h
      ⟨⟨_, hg, rfl⟩, rfl⟩
  · simp only [directive?] at h
    split at h
    · obtain ⟨found, hf, h⟩ := Option.map_eq_some_iff.mp h
      have hs := (suffix_tagRest? hf).trans
        ((List.drop_suffix _ _).trans (AttributeList.suffix_skipSpaces b))
      exact spec_of_tag hb (by decide) hs h ⟨rfl, rfl⟩
    · cases h
  · exact spec_of_endBlock? hb
  · exact spec_of_enclosed? hb (by decide) (List.nil_append b).symm h ⟨rfl, rfl⟩
  · exact spec_of_enclosed? hb (by decide) (List.nil_append b).symm h ⟨rfl, rfl⟩
  · exact spec_of_enclosed? hb (by decide) (List.nil_append b).symm h ⟨rfl, rfl⟩
  · exact spec_of_tag hb (by decide) (suffix_tagRest? hf) h ⟨rfl, rfl⟩
  · have hs := (suffix_tagRest? hf).trans (AttributeList.suffix_skipSpaces b)
    exact spec_of_tag hb (by decide) hs h ⟨rfl, rfl⟩
  · have hs := (suffix_tagRest? hf).trans (AttributeList.suffix_skipSpaces b)
    exact spec_of_tag hb (by decide) hs h ⟨rfl, rfl⟩

/-- Plain text goes on exactly where no opener stands. -/
theorem first?_eq_none_iff {t : Text} :
    first? t = none ↔ ∀ opener ∈ Recognition.openers, ¬ opener <+: t := by
  simp only [first?, Option.or_eq_none_iff, Option.map_eq_none_iff, Text.after?_eq_none_iff,
    Recognition.openers, List.forall_mem_cons]
  constructor
  · rintro ⟨⟨⟨⟨⟨⟨-, hscript⟩, hfile⟩, hclass⟩, hmethod⟩, hinclude⟩, hinsert⟩
    exact ⟨hscript, hfile, hclass, hmethod, hinclude, hinsert, fun _ h => absurd h List.not_mem_nil⟩
  · rintro ⟨hscript, hfile, hclass, hmethod, hinclude, hinsert, -⟩
    -- every delimiter that begins with the opener of scripts is excluded with it
    have hlonger : ∀ more : Text, ¬ "<%".toList ++ more <+: t := fun more h =>
      hscript ((List.prefix_append _ _).trans h)
    have hend : endBlock? t = none := by rw [endBlock?, Text.after?_eq_none_iff.mpr hscript]; rfl
    exact ⟨⟨⟨⟨⟨⟨⟨⟨⟨hlonger ['-', '-'], hlonger ['=']⟩, hlonger ['@']⟩, hend⟩, hscript⟩, hfile⟩,
      hclass⟩, hmethod⟩, hinclude⟩, hinsert⟩

/-- Every opener begins with the same bracket. -/
theorem first?_cons_eq_none {c : Char} (hc : c ≠ '<') (rest : Text) :
    first? (c :: rest) = none := by
  have hhead : ∀ opener ∈ Recognition.openers, opener.head? = some '<' := by decide
  rw [first?_eq_none_iff]
  intro opener ho hp
  have hlt := hhead opener ho
  rw [List.head?_eq_some_iff] at hlt
  obtain ⟨tail, rfl⟩ := hlt
  exact hc (List.cons_prefix_cons.mp hp).1.symm

/-- The plain text at the beginning of a text that begins no element. -/
def plainHead : Text → Text
  | [] => []
  | c :: rest => c :: rest.takeWhile (· ≠ '<')

/-- What follows the plain text at the beginning. -/
def plainTail : Text → Text
  | [] => []
  | _ :: rest => rest.dropWhile (· ≠ '<')

/-- A text consists of its plain text and the rest. -/
theorem plainHead_append_plainTail (t : Text) : plainHead t ++ plainTail t = t := by
  cases t with
  | nil => rfl
  | cons c rest => simp [plainHead, plainTail]

/-- The cut of collected plain text, if there is any. -/
def passage (pending : Text) : List Cut :=
  if pending = [] then [] else [⟨.plainText, .empty, [], pending, []⟩]

/-- The elements that are read in one go at the beginning of a text: one, or a method head with its
body. -/
def pieces? (t : Text) : Option (Option (List Cut × Text)) :=
  (first? t).map fun found => found.bind fun (c, rest) =>
    if c.kind = .methodHead then
      (enclosed? .methodBody c.attributes [] "</psp:method>" rest).map fun (b, rest) =>
        ([c, b], rest)
    else some ([c], rest)

theorem pieces?_eq_none_iff {t : Text} : pieces? t = none ↔ first? t = none := by
  rw [pieces?, Option.map_eq_none_iff]

/-- An element without a body is a piece by itself. -/
theorem pieces?_of_first? {t rest : Text} {c : Cut} (h : first? t = some (some (c, rest)))
    (hk : c.kind ≠ .methodHead) : pieces? t = some (some ([c], rest)) := by
  rw [pieces?, h, Option.map_some, Option.bind_some]
  exact congrArg some (if_neg hk)

/-- The head of a method and its body are one piece. -/
theorem pieces?_of_methodHead {t after rest : Text} {head body : Cut}
    (h : first? t = some (some (head, after))) (hk : head.kind = .methodHead)
    (hb : enclosed? .methodBody head.attributes [] "</psp:method>" after = some (body, rest)) :
    pieces? t = some (some ([head, body], rest)) := by
  rw [pieces?, h, Option.map_some, Option.bind_some]
  refine congrArg some ((if_pos hk).trans ?_)
  rw [hb, Option.map_some]

/-- A piece is one element, or a method head and its body. -/
theorem cases_of_pieces? {t rest : Text} {cuts : List Cut}
    (h : pieces? t = some (some (cuts, rest))) :
    (∃ c, first? t = some (some (c, rest)) ∧ c.kind ≠ .methodHead ∧ cuts = [c]) ∨
      ∃ head body after, first? t = some (some (head, after)) ∧ head.kind = .methodHead ∧
        enclosed? .methodBody head.attributes [] "</psp:method>" after = some (body, rest) ∧
        cuts = [head, body] := by
  obtain ⟨found, hf, hm⟩ := Option.map_eq_some_iff.mp h
  obtain ⟨⟨c, after⟩, rfl, hc⟩ := Option.bind_eq_some_iff.mp hm
  dsimp only at hc
  split at hc
  · rename_i hk
    obtain ⟨⟨body, stop⟩, hb, he⟩ := Option.map_eq_some_iff.mp hc
    obtain ⟨rfl, rfl⟩ := Prod.mk.inj he
    exact Or.inr ⟨c, body, after, hf, hk, hb, rfl⟩
  · rename_i hk
    obtain ⟨rfl, rfl⟩ := Prod.mk.inj (Option.some.inj hc)
    exact Or.inl ⟨c, hf, hk, rfl⟩

/-- The elements of a piece have the shapes of their kinds, and with the rest they make up the
text. -/
theorem spec_of_pieces? {t rest : Text} {cuts : List Cut}
    (h : pieces? t = some (some (cuts, rest))) :
    t = cuts.flatMap whole ++ rest ∧ ∀ c ∈ cuts, c.WellShaped := by
  rcases cases_of_pieces? h with ⟨c, hf, -, rfl⟩ | ⟨head, body, after, hf, -, hb, rfl⟩
  · obtain ⟨ht, hc⟩ := spec_of_first? hf
    exact ⟨by simpa using ht, by simpa using hc⟩
  · obtain ⟨ht, hc⟩ := spec_of_first? hf
    obtain ⟨ha, hk, -, ho, hcl⟩ := eq_append_of_enclosed? hb
    have hbody : body.WellShaped := by
      refine ⟨by rw [hk, ho, hcl]; exact ⟨rfl, rfl⟩, ?_⟩
      simp [whole, hcl]
    refine ⟨?_, by simpa using ⟨hc, hbody⟩⟩
    rw [List.nil_append] at ha
    rw [ht, ha]
    simp

/-- After some collected plain text, a text is cut to its end. -/
inductive Reads : Text → Text → List Cut → Prop
  /-- At the end the collected text is cut off. -/
  | done (pending : Text) : Reads pending [] (passage pending)
  /-- Plain text is collected. -/
  | plain {pending t : Text} {cuts : List Cut} : t ≠ [] → pieces? t = none →
      Reads (pending ++ plainHead t) (plainTail t) cuts → Reads pending t cuts
  /-- Before an element the collected text is cut off. -/
  | pieces {pending t rest : Text} {found cuts : List Cut} : pieces? t = some (some (found, rest)) →
      Reads [] rest cuts → Reads pending t (passage pending ++ found ++ cuts)

end Cut

end ServerPages
