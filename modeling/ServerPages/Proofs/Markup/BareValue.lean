import ServerPages.Proofs.Markup.Bindings
import ServerPages.Proofs.Markup.Continuation

/-!
# Bare values at the end of a tag

A value without quotes runs up to the next delimiter. Three of the four ends of a tag are delimiters
where they begin, so a value in front of them is read as it stands. The fourth one begins with two
dashes, which are none: they go to the value, and the tag ends behind them.
-/

namespace ServerPages

namespace AttributeList

/-- A character that a bare name or value can hold anywhere, and with which no tag can end. -/
def isBareChar (c : Char) : Bool := isNameChar c && c ≠ '%' && c ≠ '-'

theorem isBareChar_iff {c : Char} :
    isBareChar c = true ↔ isNameChar c = true ∧ c ≠ '%' ∧ c ≠ '-' := by
  simp [isBareChar, and_assoc]

/-- A bare character is no delimiter, whatever follows it. -/
theorem atDelimiter_bareChar {c : Char} (h : isBareChar c = true) (rest : Text) :
    atDelimiter (c :: rest) = false := by
  obtain ⟨hname, hpercent, hdash⟩ := isBareChar_iff.mp h
  rw [atDelimiter_cons_eq hdash hpercent rest ['=']]
  have hnil : List.all [] isNameChar = true := rfl
  exact atDelimiter_name hnil (.inr rfl) hname

/-- Bare characters are read with the token that follows them. -/
theorem readBare_append_of_bare {t : Text} (h : t.all isBareChar = true) (rest : Text) :
    readBare (t ++ rest) = (t ++ (readBare rest).1, (readBare rest).2) := by
  induction t with
  | nil => rfl
  | cons c t ih =>
    rw [List.all_cons, Bool.and_eq_true] at h
    have hslash : c ≠ '\\' := by
      rintro rfl
      cases h.1
    rw [List.cons_append, readBare_cons hslash, atDelimiter_bareChar h.1, ih h.2]
    rfl

end AttributeList

/-- A name or a value that can stand without quotes. -/
structure BareWord where
  /-- The text. -/
  text : Text
  /-- There is some text. -/
  text_ne : text ≠ []
  /-- It holds neither blanks nor quotes, and nothing with which a tag can end. -/
  bare : text.all AttributeList.isBareChar = true

namespace BareWord

variable (w : BareWord)

/-- A bare value is not empty. -/
theorem exists_eq_cons : ∃ c more, w.text = c :: more ∧ AttributeList.isBareChar c = true := by
  obtain ⟨c, more, hw⟩ := List.exists_cons_of_ne_nil w.text_ne
  have hbare := w.bare
  rw [hw, List.all_cons, Bool.and_eq_true] at hbare
  exact ⟨c, more, hw, hbare.1⟩

/-- There are no blanks in front of a bare word. -/
theorem skipSpaces_append (rest : Text) : Text.skipSpaces (w.text ++ rest) = w.text ++ rest := by
  obtain ⟨c, more, hw, hc⟩ := w.exists_eq_cons
  have hspace : isTagSpace c = false := by
    have hname := (AttributeList.isBareChar_iff.mp hc).1
    simp only [AttributeList.isNameChar, Bool.not_eq_true', Bool.or_eq_false_iff] at hname
    exact hname.1.1.1.1.1.1
  rw [hw]
  exact List.dropWhile_cons_of_neg (by simp [hspace])

theorem all_isNameChar : w.text.all AttributeList.isNameChar = true :=
  List.all_eq_true.mpr fun c hc =>
    (AttributeList.isBareChar_iff.mp (List.all_eq_true.mp w.bare c hc)).1

/-- A bare value holds no carriage return. -/
theorem cr_not_mem : '\r' ∉ w.text := by
  intro hm
  have hbare := List.all_eq_true.mp w.bare '\r' hm
  cases hbare

/-- A bare word is no quoted value. -/
theorem readValue_append (rest : Text) :
    AttributeList.readValue (w.text ++ rest) =
      some (w.text ++ (AttributeList.readBare rest).1, (AttributeList.readBare rest).2) := by
  rw [← AttributeList.readBare_append_of_bare w.bare]
  obtain ⟨c, more, hw, hc⟩ := w.exists_eq_cons
  rw [hw, List.cons_append, AttributeList.readValue]
  · intro more' he
    rw [(List.cons.inj he).1] at hc
    cases hc
  · intro more' he
    rw [(List.cons.inj he).1] at hc
    cases hc

end BareWord

namespace AttributeList

/-- One attribute with a bare value, which goes on as a token goes on behind it. -/
theorem readOne_bare (name value : BareWord) (rest : Text) :
    readOne (name.text ++ '=' :: (value.text ++ rest)) =
      .ok ((name.text, value.text ++ (readBare rest).1), (readBare rest).2) := by
  have hname : readBare (name.text ++ '=' :: (value.text ++ rest)) =
      (name.text, '=' :: (value.text ++ rest)) := readBare_name name.all_isNameChar (.inr rfl)
  have hequals : Text.skipSpaces ('=' :: (value.text ++ rest)) = '=' :: (value.text ++ rest) := rfl
  simp only [readOne, hname, hequals, value.skipSpaces_append, value.readValue_append]

/-- Of the ends of a tag, only the one with dashes is no delimiter where it begins. -/
theorem atDelimiter_tagEnd {stop : Text} (h : stop ∈ tagEnds) (rest : Text) :
    atDelimiter (stop ++ rest) = decide (stop ≠ "--%>") := by
  simp only [tagEnds, List.mem_cons, List.not_mem_nil, or_false] at h
  rcases h with rfl | rfl | rfl | rfl <;> rfl

/-- A bare token has no part in the end of a tag that is a delimiter. -/
theorem readBare_tagEnd {stop : Text} (h : stop ∈ tagEnds) (hdashes : stop ≠ "--%>")
    (rest : Text) : readBare (stop ++ rest) = ([], stop ++ rest) := by
  have hdelimiter : atDelimiter (stop ++ rest) = true := by
    rw [atDelimiter_tagEnd h, decide_eq_true hdashes]
  cases ht : stop ++ rest with
  | nil => rfl
  | cons c more =>
    rw [ht] at hdelimiter
    have hslash : c ≠ '\\' := by
      rintro rfl
      rw [atDelimiter_cons_eq (by decide) (by decide) more []] at hdelimiter
      cases hdelimiter
    rw [readBare_cons hslash, if_pos hdelimiter]

/-- The dashes in front of the end of a tag go to the token. -/
theorem readBare_dashes (rest : Text) :
    readBare ("--%>" ++ rest) = (['-', '-'], "%>" ++ rest) := rfl

/-- A bare value is read up to where its token stops, if the tag ends there. -/
theorem read_bare (name value : BareWord) {tail more stop : Text}
    (htail : readBare tail = (more, stop)) (hstop : atTagEnd stop = true) :
    read (name.text ++ '=' :: (value.text ++ tail)) =
      (.ok ⟨[(name.text, value.text ++ more)]⟩, stop) := by
  have hskip := name.skipSpaces_append ('=' :: (value.text ++ tail))
  have hend : atTagEnd (name.text ++ '=' :: (value.text ++ tail)) = false :=
    atTagEnd_name name.all_isNameChar (.inr rfl)
  have hone := readOne_bare name value tail
  rw [htail] at hone
  rw [← hskip] at hend hone
  have hne : Text.skipSpaces (name.text ++ '=' :: (value.text ++ tail)) ≠ [] := by
    rw [hskip]
    exact List.append_ne_nil_of_left_ne_nil name.text_ne _
  rw [read, readFrom_of_readOne hend hne hone, readFrom, skipSpaces_tagEnd hstop, if_pos hstop]
  rfl

end AttributeList

namespace Recognition

/-- An attribute with a bare value, at the beginning of a file and right in front of the end of a
tag. The value is read up to that end, unless the end begins with dashes: then the dashes go to the
value, and what is left is the shorter end behind them. -/
theorem readAttributes_bare (name value : BareWord) {stop : Text}
    (hstop : stop ∈ AttributeList.tagEnds) (rest : Text) (i : Input) (file : Text)
    (canonical? : Option Text) (baseDir : Text) (encoding : Encoding) :
    let s := (i.push file (name.text ++ '=' :: (value.text ++ (stop ++ rest))) canonical? baseDir
      encoding).stack
    (stop ≠ "--%>" → readAttributes s =
      (.ok ⟨[(name.text, value.text)]⟩, s.setUnread (stop ++ rest.unifyBreaks))) ∧
    (stop = "--%>" → readAttributes s =
      (.ok ⟨[(name.text, value.text ++ "--")]⟩, s.setUnread ("%>" ++ rest.unifyBreaks))) := by
  intro s
  have hunread : s.unread = name.text ++ '=' :: (value.text ++ (stop ++ rest.unifyBreaks)) := by
    have hcr : '\r' ∉ name.text ++ '=' :: (value.text ++ stop) := by
      have hstopcr : ∀ t ∈ AttributeList.tagEnds, '\r' ∉ t := by decide
      simp [name.cr_not_mem, value.cr_not_mem, hstopcr stop hstop]
    have hsplit := Text.unifyBreaks_append_of_cr hcr rest
    rw [List.append_assoc, List.append_assoc, List.cons_append, List.cons_append,
      List.append_assoc, List.append_assoc] at hsplit
    exact hsplit
  constructor
  · intro hdashes
    have hend : AttributeList.atTagEnd (stop ++ rest.unifyBreaks) = true :=
      List.any_eq_true.mpr ⟨stop, hstop, List.isPrefixOf_iff_prefix.mpr (List.prefix_append _ _)⟩
    have hread := AttributeList.read_bare name value
      (AttributeList.readBare_tagEnd hstop hdashes rest.unifyBreaks) hend
    rw [readAttributes, hunread, hread, List.append_nil]
  · rintro rfl
    have hread := AttributeList.read_bare name value
      (AttributeList.readBare_dashes rest.unifyBreaks) rfl
    rw [readAttributes, hunread, hread]
    rfl

/-- A value right in front of a closing delimiter, behind which the line breaks. -/
theorem readAttributes_bare_before_percent :
    let s := ((Input.empty false).push "page" "file=x.txt%>\r\n>" none [] .utf8).stack
    "%>".toList ∈ AttributeList.tagEnds ∧ "%>".toList ≠ "--%>".toList ∧
      readAttributes s = (.ok ⟨[("file", "x.txt")]⟩, s.setUnread "%>\n>") := by
  have hstop : "%>".toList ∈ AttributeList.tagEnds := by decide
  have hdashes : "%>".toList ≠ "--%>".toList := by decide
  exact ⟨hstop, hdashes, (readAttributes_bare ⟨"file", by decide, by decide⟩
    ⟨"x.txt", by decide, by decide⟩ hstop "\r\n>" (Input.empty false) "page" none [] .utf8).1
    hdashes⟩

/-- The two dashes in front of the closing delimiter become part of the value, so the tag does not
end where they stand. -/
theorem readAttributes_bare_takes_dashes :
    let s := ((Input.empty false).openText "tag" "a=1--%>" []).stack
    "--%>".toList ∈ AttributeList.tagEnds ∧
      readAttributes s = (.ok ⟨[("a", "1--")]⟩, s.setUnread "%>") ∧
      readAttributes s ≠ (.ok ⟨[("a", "1")]⟩, s.setUnread "--%>") := by
  decide +kernel

end Recognition

end ServerPages
