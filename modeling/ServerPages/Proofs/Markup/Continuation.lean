import ServerPages.Proofs.Markup.Shape

/-!
# Reading a text that goes on

What has been read completely stays as it is when more text follows. Where reading looks at a
delimiter, the delimiter was there before, and a bare token that was ended keeps its end. This
holds of searching, of attribute lists, and of every element with which a text begins.
-/

namespace ServerPages

namespace Text

variable {t : Text}

/-- A literal at the beginning of a text is found there with more text behind it. -/
theorem after?_append_of_eq_some {literal rest : Text} (h : after? literal t = some rest)
    (more : Text) : after? literal (t ++ more) = some (rest ++ more) := by
  rw [after?_eq_some_iff] at h ⊢
  rw [h, List.append_assoc]

/-- A literal that is missed in a text that is long enough is missed in a longer text. -/
theorem after?_append_of_eq_none {literal : Text} (h : after? literal t = none)
    (hl : literal.length ≤ t.length) (more : Text) : after? literal (t ++ more) = none := by
  rw [after?_eq_none_iff] at h ⊢
  intro hp
  exact h (List.prefix_of_prefix_length_le hp (List.prefix_append t more) hl)

/-- The first occurrence of a literal stays the first one, since no earlier one reaches beyond
it. -/
theorem splitFirst?_append_of_eq_some {literal before after : Text} (hl : literal ≠ [])
    (h : splitFirst? literal t = some (before, after)) (more : Text) :
    splitFirst? literal (t ++ more) = some (before, after ++ more) := by
  fun_induction splitFirst? literal t generalizing before with
  | case1 =>
    obtain ⟨rest, hr, -⟩ := Option.map_eq_some_iff.mp h
    exact absurd (List.append_eq_nil_iff.mp (after?_eq_some_iff.mp hr).symm).1 hl
  | case2 c rest found hf =>
    cases h
    rw [List.cons_append, splitFirst?, ← List.cons_append, after?_append_of_eq_some hf]
  | case3 c rest hn ih =>
    obtain ⟨⟨b, a⟩, hb, he⟩ := Option.map_eq_some_iff.mp h
    obtain ⟨rfl, rfl⟩ := Prod.mk.inj he
    have hlength : literal.length ≤ (c :: rest).length := by
      rw [eq_append_of_splitFirst? hb]
      simp only [List.length_cons, List.length_append]
      omega
    have hnone := after?_append_of_eq_none hn hlength more
    rw [List.cons_append] at hnone ⊢
    rw [splitFirst?, hnone]
    simp only [ih hb, Option.map_some]

/-- Spaces that end before more text comes are skipped as before. -/
theorem skipSpaces_append_of_ne_nil (h : t.skipSpaces ≠ []) (more : Text) :
    skipSpaces (t ++ more) = t.skipSpaces ++ more := by
  induction t with
  | nil => exact absurd rfl h
  | cons c t ih =>
    by_cases hc : isTagSpace c = true
    · have hskip : skipSpaces (c :: t) = skipSpaces t := List.dropWhile_cons_of_pos hc
      rw [hskip] at h ⊢
      rw [← ih h]
      exact List.dropWhile_cons_of_pos hc
    · have hskip : skipSpaces (c :: t) = c :: t := List.dropWhile_cons_of_neg hc
      rw [hskip]
      exact List.dropWhile_cons_of_neg hc

end Text

namespace AttributeList

/-- A prefix of a text is a prefix of the text with more text behind it. -/
theorem isPrefixOf_append {literal t : Text} (h : literal.isPrefixOf t = true) (more : Text) :
    literal.isPrefixOf (t ++ more) = true := by
  rw [List.isPrefixOf_iff_prefix] at h ⊢
  exact h.trans (List.prefix_append t more)

/-- Where a tag ends, it ends with more text behind it. -/
theorem atTagEnd_append {t : Text} (h : atTagEnd t = true) (more : Text) :
    atTagEnd (t ++ more) = true := by
  obtain ⟨literal, hl, hp⟩ := List.any_eq_true.mp h
  exact List.any_eq_true.mpr ⟨literal, hl, isPrefixOf_append hp more⟩

/-- Only a dash and a percent sign are no delimiters by themselves. -/
theorem atDelimiter_cons_eq {c : Char} (hdash : c ≠ '-') (hpercent : c ≠ '%') (t u : Text) :
    atDelimiter (c :: t) = atDelimiter (c :: u) := by
  rw [atDelimiter, atDelimiter]
  all_goals assumption

/-- Where a delimiter begins, it begins with more text behind it. -/
theorem atDelimiter_append {c : Char} {t : Text} (h : atDelimiter (c :: t) = true) (more : Text) :
    atDelimiter (c :: (t ++ more)) = true := by
  by_cases hdash : c = '-'
  · subst hdash
    simp only [atDelimiter, Bool.or_eq_true] at h ⊢
    exact h.imp (isPrefixOf_append · more) (isPrefixOf_append · more)
  by_cases hpercent : c = '%'
  · subst hpercent
    exact isPrefixOf_append h more
  · rw [atDelimiter_cons_eq hdash hpercent _ t]
    exact h

/-- Before a bare token has ended, its end is not brought about by what follows. -/
theorem atDelimiter_append_eq_false {c : Char} {t : Text} (h : atDelimiter (c :: t) = false)
    (hr : (readBare t).2 ≠ []) (more : Text) : atDelimiter (c :: (t ++ more)) = false := by
  cases t with
  | nil => exact absurd rfl hr
  | cons d t =>
    by_cases hdash : c = '-'
    · subst hdash
      simp only [atDelimiter, Bool.or_eq_false_iff] at h ⊢
      refine ⟨h.1, ?_⟩
      cases t with
      | nil =>
        have hd : d ≠ '-' := by
          rintro rfl
          exact hr (by decide)
        simp [List.isPrefixOf, Ne.symm hd]
      | cons e t => exact h.2
    by_cases hpercent : c = '%'
    · subst hpercent
      exact h
    · rw [atDelimiter_cons_eq hdash hpercent _ (d :: t)]
      exact h

/-- A bare token that was ended keeps its end. -/
theorem readBare_append {t : Text} (h : (readBare t).2 ≠ []) (more : Text) :
    readBare (t ++ more) = ((readBare t).1, (readBare t).2 ++ more) := by
  fun_induction readBare t with
  | case1 => exact absurd rfl h
  | case2 e rest he ih =>
    change readBare ('\\' :: e :: (rest ++ more)) = _
    rw [readBare, if_pos he, ih h]
    rfl
  | case3 e rest he ih =>
    change readBare ('\\' :: e :: (rest ++ more)) = _
    rw [readBare, if_neg he]
    change consRead _ (readBare ((e :: rest) ++ more)) = _
    rw [ih h]
    rfl
  | case4 c rest _ hd =>
    have hc : c ≠ '\\' := by
      rintro rfl
      rw [atDelimiter_cons_eq (by decide) (by decide) _ []] at hd
      cases hd
    rw [List.cons_append, readBare_cons hc, if_pos (atDelimiter_append hd more)]
  | case5 c rest hslash hd ih =>
    have hc : c ≠ '\\' := by
      rintro rfl
      cases rest with
      | nil => exact h rfl
      | cons e rest => exact hslash e rest rfl rfl
    have hd := atDelimiter_append_eq_false (Bool.eq_false_iff.mpr hd) h more
    rw [List.cons_append, readBare_cons hc, hd, ih h]
    rfl

/-- A quoted value that is closed is read as before with more text behind it. -/
theorem readQuoted_append {quote : Char} {t value rest : Text}
    (h : readQuoted quote t = some (value, rest)) (more : Text) :
    readQuoted quote (t ++ more) = some (value, rest ++ more) := by
  fun_induction readQuoted quote t generalizing value with
  | case1 => cases h
  | case2 => cases h
  | case3 c tail ih =>
    obtain ⟨⟨v, r⟩, hr, he⟩ := Option.map_eq_some_iff.mp h
    obtain ⟨rfl, rfl⟩ := Prod.mk.inj he
    change (readQuoted quote (tail ++ more)).map (consRead c) = _
    rw [ih hr]
    rfl
  | case4 tail hend hslash =>
    cases h
    have hc : quote ≠ '\\' := by
      rintro rfl
      cases rest with
      | nil => exact hend rfl rfl
      | cons d tail => exact hslash d tail rfl rfl
    rw [List.cons_append, readQuoted_cons hc, if_pos rfl]
  | case5 c tail hend hslash hne ih =>
    obtain ⟨⟨v, r⟩, hr, he⟩ := Option.map_eq_some_iff.mp h
    obtain ⟨rfl, rfl⟩ := Prod.mk.inj he
    have hc : c ≠ '\\' := by
      rintro rfl
      cases tail with
      | nil => exact hend rfl rfl
      | cons d tail => exact hslash d tail rfl rfl
    rw [List.cons_append, readQuoted_cons hc, if_neg hne, ih hr]
    rfl

/-- A value behind which something follows. -/
theorem readValue_append {t value rest : Text} (h : readValue t = some (value, rest))
    (hr : rest ≠ []) (more : Text) : readValue (t ++ more) = some (value, rest ++ more) := by
  fun_cases readValue t with
  | case1 tail => exact readQuoted_append h more
  | case2 tail => exact readQuoted_append h more
  | case3 _ hdouble hsingle =>
    have hbare : readBare t = (value, rest) := by
      rw [readValue] at h
      · exact Option.some.inj h
      · exact hdouble
      · exact hsingle
    cases t with
    | nil =>
      obtain ⟨-, rfl⟩ := Prod.mk.inj hbare
      exact absurd rfl hr
    | cons c t =>
      have happend := readBare_append (t := c :: t) (by rw [hbare]; exact hr) more
      rw [hbare] at happend
      rw [List.cons_append] at happend ⊢
      rw [readValue, happend]
      · intro tail h
        obtain ⟨rfl, -⟩ := List.cons.inj h
        exact hdouble t rfl
      · intro tail h
        obtain ⟨rfl, -⟩ := List.cons.inj h
        exact hsingle t rfl

/-- An attribute behind which something follows. -/
theorem readOne_append {t rest : Text} {pair : Text × Text} (h : readOne t = .ok (pair, rest))
    (hr : rest ≠ []) (more : Text) : readOne (t ++ more) = .ok (pair, rest ++ more) := by
  simp only [readOne] at h ⊢
  split at h
  · rename_i tail hequals
    have hspaces : (readBare t).2.skipSpaces ≠ [] := by
      rw [hequals]
      exact List.cons_ne_nil _ _
    have hbare : (readBare t).2 ≠ [] := by
      intro hnil
      rw [hnil] at hspaces
      exact hspaces rfl
    split at h
    · rename_i value after hvalue
      obtain ⟨rfl, rfl⟩ := Prod.mk.inj (Except.ok.inj h)
      have htail : Text.skipSpaces tail ≠ [] := by
        intro hnil
        rw [hnil] at hvalue
        cases hvalue
        exact hr rfl
      rw [readBare_append hbare, Text.skipSpaces_append_of_ne_nil hspaces, hequals]
      simp only [List.cons_append]
      rw [Text.skipSpaces_append_of_ne_nil htail, readValue_append hvalue hr]
    · cases h
  · cases h
  · cases h

/-- An attribute holds an equals sign. -/
theorem equals_mem_of_readOne {t rest : Text} {pair : Text × Text}
    (h : readOne t = .ok (pair, rest)) : '=' ∈ t := by
  simp only [readOne] at h
  split at h
  · rename_i tail hequals
    have hmem : '=' ∈ (readBare t).2.skipSpaces := by
      rw [hequals]
      exact List.mem_cons_self
    exact ((suffix_skipSpaces _).trans (suffix_readBare t)).subset hmem
  · cases h
  · cases h

/-- A text that holds an equals sign does not become the end of a tag by what follows. -/
theorem atTagEnd_append_eq_false {t : Text} (h : atTagEnd t = false) (he : '=' ∈ t) (more : Text) :
    atTagEnd (t ++ more) = false := by
  rw [atTagEnd, List.any_eq_false] at h ⊢
  intro literal hl hp
  rw [List.isPrefixOf_iff_prefix] at hp
  rcases List.prefix_or_prefix_of_prefix hp (List.prefix_append t more) with hshort | hlong
  · exact h literal hl (List.isPrefixOf_iff_prefix.mpr hshort)
  · have hmem : '=' ∈ literal := hlong.subset he
    simp only [tagEnds, List.mem_cons, List.not_mem_nil, or_false] at hl
    rcases hl with rfl | rfl | rfl | rfl <;> exact absurd hmem (by decide)

/-- A text that ends within a list leaves the list open. -/
theorem readFrom_nil (found : Attributes) :
    readFrom found [] = (.error .unterminatedAttribute, []) := by
  rw [readFrom]
  rfl

/-- A list goes on behind an attribute. -/
theorem readFrom_of_readOne {found : Attributes} {t name value rest : Text}
    (hend : atTagEnd t.skipSpaces = false) (hne : t.skipSpaces ≠ [])
    (hone : readOne t.skipSpaces = .ok ((name, value), rest)) :
    readFrom found t = readFrom (found.insert name value) rest := by
  rw [readFrom, hend, if_neg Bool.false_ne_true, if_neg hne]
  split
  · rename_i name' value' rest' he
    rw [hone] at he
    cases he
    rfl
  · rename_i fault rest' he
    rw [hone] at he
    cases he

/-- An attribute list that has been read to its end stays as it is. -/
theorem readFrom_append {found result : Attributes} {t rest : Text}
    (h : readFrom found t = (.ok result, rest)) (more : Text) :
    readFrom found (t ++ more) = (.ok result, rest ++ more) := by
  fun_induction readFrom found t with
  | case1 found t hend =>
    obtain ⟨hfound, rfl⟩ := Prod.mk.inj h
    have hspaces : t.skipSpaces ≠ [] := by
      intro hnil
      rw [hnil] at hend
      exact absurd hend (by decide)
    rw [readFrom, Text.skipSpaces_append_of_ne_nil hspaces, if_pos (atTagEnd_append hend more),
      hfound]
  | case2 => cases h
  | case3 found t hend hspaces name value tail hone ih =>
    have htail : tail ≠ [] := by
      rintro rfl
      rw [readFrom_nil] at h
      cases h
    have hnot := atTagEnd_append_eq_false (Bool.eq_false_iff.mpr hend) (equals_mem_of_readOne hone)
      more
    have hskip := Text.skipSpaces_append_of_ne_nil hspaces more
    rw [← hskip] at hnot
    have hone := readOne_append hone htail more
    rw [← hskip] at hone
    rw [readFrom_of_readOne hnot (by simp [hskip, hspaces]) hone]
    exact ih h
  | case4 => cases h

/-- A list that is closed is read as before with more text behind it. -/
theorem read_append {result : Attributes} {t rest : Text} (h : read t = (.ok result, rest))
    (more : Text) : read (t ++ more) = (.ok result, rest ++ more) :=
  readFrom_append h more

/-- An attribute list ends where its tag ends. -/
theorem atTagEnd_of_readFrom {found result : Attributes} {t rest : Text}
    (h : readFrom found t = (.ok result, rest)) : atTagEnd rest = true := by
  fun_induction readFrom found t with
  | case1 found t hend =>
    obtain ⟨-, rfl⟩ := Prod.mk.inj h
    exact hend
  | case2 => cases h
  | case3 found t hend hspaces name value tail hone ih => exact ih h
  | case4 => cases h

end AttributeList

namespace Cut

/-- Closing delimiters that begin with different characters. -/
theorem findSome?_after?_append {closes : List Text}
    (hc : closes.Pairwise fun a b => a.head? ≠ b.head?) (hne : ∀ close ∈ closes, close ≠ [])
    {t stop : Text} (h : (closes.findSome? fun close => Text.after? close t) = some stop)
    (more : Text) :
    (closes.findSome? fun close => Text.after? close (t ++ more)) = some (stop ++ more) := by
  induction closes with
  | nil => cases h
  | cons close others ih =>
    obtain ⟨hclose, hothers⟩ := List.pairwise_cons.mp hc
    rw [List.findSome?_cons] at h ⊢
    cases ha : Text.after? close t with
    | some rest =>
      rw [ha] at h
      rw [Text.after?_append_of_eq_some ha, ← Option.some.inj h]
    | none =>
      rw [ha] at h
      obtain ⟨other, hmem, hother⟩ := List.exists_of_findSome?_eq_some h
      have hnone : Text.after? close (t ++ more) = none := by
        rw [Text.after?_eq_none_iff]
        intro hp
        apply hclose other hmem
        rw [Text.after?_eq_some_iff.mp hother, List.append_assoc] at hp
        obtain ⟨a, first, rfl⟩ := List.exists_cons_of_ne_nil (hne close List.mem_cons_self)
        obtain ⟨b, second, rfl⟩ :=
          List.exists_cons_of_ne_nil (hne other (List.mem_cons_of_mem _ hmem))
        exact congrArg some (List.cons_prefix_cons.mp hp).1
      rw [hnone]
      exact ih hothers (fun c hm => hne c (List.mem_cons_of_mem close hm)) h

/-- A tag that is closed is read as before with more text behind it. -/
theorem tagRest?_append {closes : List Text}
    (hc : closes.Pairwise fun a b => a.head? ≠ b.head?) (hne : ∀ close ∈ closes, close ≠ [])
    {t stop : Text} {found : Attributes} (h : tagRest? t closes = some (found, stop))
    (more : Text) : tagRest? (t ++ more) closes = some (found, stop ++ more) := by
  unfold tagRest? at h
  split at h
  · rename_i rest hread
    obtain ⟨stop', hstop, he⟩ := Option.map_eq_some_iff.mp h
    obtain ⟨rfl, rfl⟩ := Prod.mk.inj he
    have hend := AttributeList.atTagEnd_of_readFrom hread
    rw [AttributeList.skipSpaces_tagEnd hend] at hstop
    rw [tagRest?, AttributeList.read_append hread]
    simp only [AttributeList.skipSpaces_tagEnd (AttributeList.atTagEnd_append hend more),
      findSome?_after?_append hc hne hstop more, Option.map_some]
  · cases h

/-- The element of a tag does not depend on the text behind it. -/
theorem tag_append_right {kind : ElementKind} {t stop : Text} {found : Attributes} (more : Text) :
    tag kind (t ++ more) (found, stop ++ more) =
      ((tag kind t (found, stop)).1, stop ++ more) := by
  have hlength : (t ++ more).length - (stop ++ more).length = t.length - stop.length := by
    simp only [List.length_append]
    omega
  rw [tag, hlength, List.take_append_of_le_length (Nat.sub_le ..)]
  rfl

theorem tagRest?_nil (closes : List Text) : tagRest? [] closes = none := by
  rw [tagRest?, AttributeList.read, AttributeList.readFrom_nil]

/-- A directive that is closed is recognized as before with more text behind it. -/
theorem directive?_append {t body rest : Text} {c : Cut} (h : directive? t body = some (c, rest))
    (more : Text) : directive? (t ++ more) (body ++ more) = some (c, rest ++ more) := by
  simp only [directive?] at h ⊢
  split at h
  · rename_i hname
    obtain ⟨⟨found, stop⟩, htag, he⟩ := Option.map_eq_some_iff.mp h
    -- behind the name there is text left, so the name ends inside the text
    have hdrop : body.skipSpaces.drop (body.skipSpaces.takeWhile Char.isAlphanum).length ≠ [] := by
      intro hnil
      rw [hnil, tagRest?_nil] at htag
      cases htag
    have hlength : (body.skipSpaces.takeWhile Char.isAlphanum).length < body.skipSpaces.length := by
      rw [← Nat.not_le]
      exact fun hle => hdrop (List.drop_eq_nil_of_le hle)
    have hspaces : body.skipSpaces ≠ [] := by
      rintro hnil
      rw [hnil] at hlength
      cases hlength
    have htake : (body.skipSpaces ++ more).takeWhile Char.isAlphanum =
        body.skipSpaces.takeWhile Char.isAlphanum := by
      rw [List.takeWhile_append, if_neg (Nat.ne_of_lt hlength)]
    rw [Text.skipSpaces_append_of_ne_nil hspaces, htake, if_pos hname,
      List.drop_append_of_le_length (Nat.le_of_lt hlength),
      tagRest?_append (by simp) (by decide) htag, Option.map_some, tag_append_right]
    obtain ⟨rfl, rfl⟩ := Prod.mk.inj he
    rfl
  · cases h

/-- The end of a block is one tag. -/
theorem endBlock?_append {t rest : Text} {c : Cut} (h : endBlock? t = some (c, rest))
    (more : Text) : endBlock? (t ++ more) = some (c, rest ++ more) := by
  simp only [endBlock?, Option.bind_eq_some_iff, Option.or_eq_some_iff,
    Option.map_eq_some_iff] at h ⊢
  have hspaces : ∀ {literal u after : Text}, literal ≠ [] →
      Text.after? literal u.skipSpaces = some after → u.skipSpaces ≠ [] := by
    intro literal u after hl ha hnil
    rw [Text.after?_eq_some_iff, hnil] at ha
    exact hl (List.append_eq_nil_iff.mp ha.symm).1
  obtain ⟨body, hopen, word, hend, hmark⟩ := h
  refine ⟨body ++ more, Text.after?_append_of_eq_some hopen more, word ++ more, ?_, ?_⟩
  · rw [Text.skipSpaces_append_of_ne_nil (hspaces (by decide) hend)]
    exact Text.after?_append_of_eq_some hend more
  · rcases hmark with ⟨stop, hstop, he⟩ | ⟨hnone, stop, hstop, he⟩
    · left
      refine ⟨stop ++ more, ?_, ?_⟩
      · rw [Text.skipSpaces_append_of_ne_nil (hspaces (by decide) hstop)]
        exact Text.after?_append_of_eq_some hstop more
      · obtain ⟨rfl, rfl⟩ := Prod.mk.inj he
        exact tag_append_right more
    · right
      have hlength : "%>".toList.length ≤ word.skipSpaces.length := by
        rw [Text.after?_eq_some_iff.mp hstop, List.length_append]
        exact Nat.le_trans (by decide : 2 ≤ 3) (Nat.le_add_right 3 _)
      rw [Text.skipSpaces_append_of_ne_nil (hspaces (by decide) hstop)]
      refine ⟨?_, stop ++ more, Text.after?_append_of_eq_some hstop more, ?_⟩
      · rw [Option.map_eq_none_iff] at hnone ⊢
        exact Text.after?_append_of_eq_none hnone hlength more
      · obtain ⟨rfl, rfl⟩ := Prod.mk.inj he
        exact tag_append_right more

/-- A tag whose first word is its only one is the end of a block. -/
theorem isSome_endBlock?_iff {t body : Text} (ht : Text.after? "<%" t = some body) :
    (endBlock? t).isSome = true ↔ ∃ first second mark stop : Text, first.all isTagSpace = true ∧
      second.all isTagSpace = true ∧ (mark = "%" ∨ mark = "$%") ∧
      body = first ++ ("end" ++ (second ++ (mark ++ '>' :: stop))) := by
  constructor
  · intro h
    obtain ⟨⟨c, rest⟩, hc⟩ := Option.isSome_iff_exists.mp h
    simp only [endBlock?, Option.bind_eq_some_iff, Option.or_eq_some_iff,
      Option.map_eq_some_iff] at hc
    obtain ⟨body', hopen, word, hend, hmark⟩ := hc
    obtain rfl : body' = body := Option.some.inj (hopen.symm.trans ht)
    have hbody := Text.takeWhile_isTagSpace_append body'
    have hword := Text.takeWhile_isTagSpace_append word
    rw [Text.after?_eq_some_iff.mp hend] at hbody
    refine ⟨body'.takeWhile isTagSpace, word.takeWhile isTagSpace, ?_⟩
    rcases hmark with ⟨stop, hstop, -⟩ | ⟨-, stop, hstop, -⟩
    all_goals
      rw [Text.after?_eq_some_iff.mp hstop] at hword
      rw [← hword] at hbody
    · exact ⟨"%", stop, List.all_takeWhile, List.all_takeWhile, .inl rfl, hbody.symm⟩
    · exact ⟨"$%", stop, List.all_takeWhile, List.all_takeWhile, .inr rfl, hbody.symm⟩
  · rintro ⟨first, second, mark, stop, hfirst, hsecond, hmark, rfl⟩
    have hword : ∀ u : Text, Text.skipSpaces ("end" ++ u) = "end" ++ u := fun u => rfl
    have hmarked : Text.skipSpaces (mark ++ '>' :: stop) = mark ++ '>' :: stop := by
      rcases hmark with rfl | rfl <;> rfl
    simp only [endBlock?, ht, Option.bind_some, Text.skipSpaces_append hfirst, hword,
      Text.after?_append, Text.skipSpaces_append hsecond, hmarked]
    rcases hmark with rfl | rfl <;> rfl

theorem gt_not_mem_of_all_isTagSpace {t : Text} (h : t.all isTagSpace = true) : '>' ∉ t :=
  fun hm => absurd (List.all_eq_true.mp h '>' hm) (by decide)

/-- A script that has been read to its end does not become the end of a block. -/
theorem endBlock?_append_eq_none {t body : Text} (ht : Text.after? "<%" t = some body)
    (hclose : '>' ∈ body) (h : endBlock? t = none) (more : Text) :
    endBlock? (t ++ more) = none := by
  rw [← Option.not_isSome_iff_eq_none] at h ⊢
  rw [isSome_endBlock?_iff (Text.after?_append_of_eq_some ht more)]
  rintro ⟨first, second, mark, stop, hfirst, hsecond, hmark, hbody⟩
  have hgt : '>' ∉ first ++ ("end" ++ (second ++ mark)) := by
    simp only [List.mem_append, not_or]
    refine ⟨gt_not_mem_of_all_isTagSpace hfirst, by decide,
      gt_not_mem_of_all_isTagSpace hsecond, ?_⟩
    rcases hmark with rfl | rfl <;> decide
  have hsplit : body ++ more = (first ++ ("end" ++ (second ++ mark))) ++ '>' :: stop := by
    rw [hbody]
    simp only [List.append_assoc]
  -- the tag would end with the first bracket, which lies in the script already
  rcases List.append_eq_append_iff.mp hsplit with ⟨excess, hexcess, -⟩ | ⟨excess, hexcess, hstop⟩
  · rw [hexcess] at hgt
    exact hgt (List.mem_append_left _ hclose)
  · cases excess with
    | nil =>
      rw [hexcess, List.append_nil] at hclose
      exact hgt hclose
    | cons c excess =>
      obtain ⟨rfl, -⟩ := List.cons.inj hstop
      apply h
      refine (isSome_endBlock?_iff ht).mpr ⟨first, second, mark, excess, hfirst, hsecond, hmark, ?_⟩
      rw [hexcess]
      simp only [List.append_assoc]

end Cut

end ServerPages
