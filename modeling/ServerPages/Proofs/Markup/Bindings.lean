import Mathlib.Data.List.Induction
import ServerPages.Markup.Recognition
import ServerPages.Proofs.Markup.AttributeList
import ServerPages.Proofs.Text.Breaks

/-!
# What a tag binds

A name that is written several times in a tag keeps the place of its first appearance and takes the
value of its last. So an attribute list binds its names without repetition, each to the value that
was written last, also when it stands in a file whose line breaks have been unified: a break is a
blank between the parts of a tag however it is written.
-/

namespace ServerPages

namespace Attributes

/-- The names that are bound, in order. -/
def names (a : Attributes) : List Text := a.entries.map Prod.fst

theorem any_entries_iff {entries : List (Text × Text)} {name : Text} :
    (entries.any fun entry => entry.1 = name) = true ↔ name ∈ entries.map Prod.fst := by
  simp [List.any_eq_true, List.mem_map]

/-- A name that is bound keeps its place, and a new one is put at the end. -/
theorem names_insert (a : Attributes) (name value : Text) :
    (a.insert name value).names = if name ∈ a.names then a.names else a.names ++ [name] := by
  obtain ⟨entries⟩ := a
  by_cases hm : name ∈ entries.map Prod.fst
  · rw [insert, if_pos (any_entries_iff.mpr hm), names, names, if_pos hm, List.map_map]
    rfl
  · rw [insert_of_not_mem hm, names, names, if_neg hm, List.map_append]
    rfl

/-- Changing the value of a name leaves those of all other names. -/
private theorem lookup_update (entries : List (Text × Text)) (name value key : Text) :
    (entries.map fun (other, old) => (other, if other = name then value else old)).lookup key =
      if key = name then (entries.lookup key).map fun _ => value else entries.lookup key := by
  induction entries with
  | nil => simp
  | cons entry entries ih =>
    obtain ⟨first, old⟩ := entry
    rw [List.map_cons, List.lookup_cons, List.lookup_cons]
    by_cases hk : key = first
    · subst hk
      by_cases hn : key = name <;> simp [hn]
    · rw [beq_false_of_ne hk]
      exact ih

/-- Just the names of a list have a value in it. -/
private theorem lookup_eq_none_iff_not_mem {entries : List (Text × Text)} {name : Text} :
    entries.lookup name = none ↔ name ∉ entries.map Prod.fst := by
  rw [List.lookup_eq_none_iff, List.mem_map]
  constructor
  · rintro h ⟨entry, hm, rfl⟩
    simpa using h entry hm
  · intro h entry hm
    exact bne_iff_ne.mpr fun he => h ⟨entry, hm, he.symm⟩

/-- The new value is found under its name, and all others where they were. -/
theorem get?_insert (a : Attributes) (name value key : Text) :
    (a.insert name value).get? key = if key = name then some value else a.get? key := by
  obtain ⟨entries⟩ := a
  by_cases hm : name ∈ entries.map Prod.fst
  · rw [insert, if_pos (any_entries_iff.mpr hm), get?, get?, lookup_update]
    by_cases hk : key = name
    · obtain ⟨old, hold⟩ := Option.ne_none_iff_exists'.mp fun hnone =>
        lookup_eq_none_iff_not_mem.mp hnone hm
      rw [if_pos hk, if_pos hk, hk, hold]
      rfl
    · rw [if_neg hk, if_neg hk]
  · rw [insert_of_not_mem hm, get?, get?, List.lookup_append, List.lookup_cons]
    by_cases hk : key = name
    · rw [if_pos hk, hk, lookup_eq_none_iff_not_mem.mpr hm, beq_self_eq_true]
      rfl
    · rw [if_neg hk, beq_false_of_ne hk]
      exact Option.or_none

/-- A list is built up attribute by attribute. -/
theorem ofList_concat (pairs : List (Text × Text)) (name value : Text) :
    ofList (pairs ++ [(name, value)]) = (ofList pairs).insert name value := by
  rw [ofList, List.foldl_append]
  rfl

/-- Names are bound without repetition, in order of first appearance. -/
theorem names_ofList (pairs : List (Text × Text)) :
    (ofList pairs).names = (pairs.map Prod.fst).eraseDups := by
  induction pairs using List.reverseRecOn with
  | nil => rfl
  | append_singleton pairs pair ih =>
    obtain ⟨name, value⟩ := pair
    rw [ofList_concat, names_insert, ih, List.map_append, List.eraseDups_append]
    by_cases hm : name ∈ pairs.map Prod.fst
    · rw [if_pos (List.mem_eraseDups.mpr hm)]
      simp [List.removeAll, hm]
    · rw [if_neg fun he => hm (List.mem_eraseDups.mp he)]
      simp [List.removeAll, hm, List.eraseDups_cons]

/-- The last value of a name wins. -/
theorem get?_ofList (pairs : List (Text × Text)) (key : Text) :
    (ofList pairs).get? key = pairs.reverse.lookup key := by
  induction pairs using List.reverseRecOn with
  | nil => rfl
  | append_singleton pairs pair ih =>
    obtain ⟨name, value⟩ := pair
    rw [ofList_concat, get?_insert, ih, List.reverse_concat]
    by_cases hk : key = name
    · simp [hk]
    · rw [if_neg hk, List.lookup_cons, beq_false_of_ne hk]

end Attributes

/-- The same blanks with unified line breaks. -/
def Blanks.unify (b : Blanks) : Blanks :=
  ⟨b.text.unifyBreaks, Text.all_isTagSpace_unifyBreaks b.blank⟩

namespace WrittenAttribute

variable (a : WrittenAttribute)

/-- The same attribute with unified line breaks between its parts. -/
def unify : WrittenAttribute :=
  { a with
    before := a.before.unify
    beforeEquals := a.beforeEquals.unify
    afterEquals := a.afterEquals.unify }

/-- An attribute is quoted with one of two quotation marks. -/
theorem quote_ne {c : Char} (hc : c ≠ '"') (hs : c ≠ '\'') : a.quote ≠ c := by
  rw [quote]
  split
  · exact hs.symm
  · exact hc.symm

/-- The name of an attribute does not begin with a line feed. -/
theorem head?_name_append (rest : Text) : (a.name ++ rest).head? ≠ some '\n' := by
  obtain ⟨c, name, hname⟩ := List.exists_cons_of_ne_nil a.name_ne
  have hplain := a.plain
  rw [hname, List.all_cons, Bool.and_eq_true] at hplain
  rw [hname, List.cons_append, List.head?_cons]
  rintro ⟨⟩
  cases hplain.1

/-- The name of an attribute holds no carriage return. -/
theorem cr_not_mem_name : '\r' ∉ a.name := by
  intro hm
  have hplain := List.all_eq_true.mp a.plain '\r' hm
  cases hplain

variable {a}

/-- Escaping adds no carriage return. -/
theorem cr_not_mem_escape (h : '\r' ∉ a.value) : '\r' ∉ AttributeList.escape a.quote a.value := by
  rw [AttributeList.escape, List.mem_flatMap]
  rintro ⟨c, hc, hm⟩
  have hne : '\r' ≠ c := fun he => h (he ▸ hc)
  by_cases hescaped : c = a.quote ∨ c = '\\'
  · rw [if_pos hescaped, List.mem_cons, List.mem_singleton] at hm
    exact hm.elim (by decide) hne
  · rw [if_neg hescaped, List.mem_singleton] at hm
    exact hne hm

/-- Unifying the line breaks of a written attribute changes the blanks between its parts only. -/
theorem unifyBreaks_print (h : '\r' ∉ a.value) (rest : Text) :
    (a.print ++ rest).unifyBreaks = a.unify.print ++ rest.unifyBreaks := by
  have hcr := a.quote_ne (c := '\r') (by decide) (by decide)
  have hlf := a.quote_ne (c := '\n') (by decide) (by decide)
  have hvalue :
      Text.unifyBreaks (a.quote :: (AttributeList.escape a.quote a.value ++ a.quote :: rest)) =
        a.quote :: (AttributeList.escape a.quote a.value ++ a.quote :: rest.unifyBreaks) := by
    rw [Text.unifyBreaks_cons hcr, Text.unifyBreaks_append_of_cr (cr_not_mem_escape h),
      Text.unifyBreaks_cons hcr]
  simp only [print, tail, List.append_assoc, List.cons_append, List.nil_append]
  rw [Text.unifyBreaks_append_of_head (a.head?_name_append _),
    Text.unifyBreaks_append_of_cr a.cr_not_mem_name,
    Text.unifyBreaks_append_of_head (by simp), Text.unifyBreaks_cons (by decide),
    Text.unifyBreaks_append_of_head (by simpa using hlf), hvalue]
  rfl

/-- Unifying the line breaks of a written attribute list. -/
theorem unifyBreaks_flatMap_print {attributes : List WrittenAttribute}
    (h : ∀ a ∈ attributes, '\r' ∉ a.value) (rest : Text) :
    Text.unifyBreaks (attributes.flatMap print ++ rest) =
      (attributes.map unify).flatMap print ++ rest.unifyBreaks := by
  induction attributes with
  | nil => rfl
  | cons a attributes ih =>
    obtain ⟨ha, hrest⟩ := List.forall_mem_cons.mp h
    rw [List.flatMap_cons, List.append_assoc, unifyBreaks_print ha, ih hrest, List.map_cons,
      List.flatMap_cons, List.append_assoc]

end WrittenAttribute

namespace AttributeList

/-- Blanks in front of the end of a tag are the only place for line breaks there. -/
theorem unifyBreaks_tagEnd {stop : Text} (h : stop ∈ tagEnds) (close : Blanks)
    (rest : Text) :
    Text.unifyBreaks (close.text ++ (stop ++ rest)) =
      close.unify.text ++ (stop ++ rest.unifyBreaks) := by
  have hstop : (stop ++ rest).head? ≠ some '\n' ∧ '\r' ∉ stop := by
    simp only [tagEnds, List.mem_cons, List.not_mem_nil, or_false] at h
    rcases h with rfl | rfl | rfl | rfl <;> exact ⟨by simp, by decide⟩
  rw [Text.unifyBreaks_append_of_head hstop.1, Text.unifyBreaks_append_of_cr hstop.2]
  rfl

end AttributeList

namespace Recognition

/-- An attribute list that is written with quoted values, at the beginning of a file and in front of
the end of a tag, is read up to that end. It binds the names that are written, without repetition
and in order of first appearance, each to the value that is written last. -/
theorem readAttributes_print (attributes : List WrittenAttribute)
    (h : ∀ a ∈ attributes, '\r' ∉ a.value) (close : Blanks) {stop : Text}
    (hstop : stop ∈ AttributeList.tagEnds) (rest : Text) (i : Input) (name : Text)
    (canonical? : Option Text) (baseDir : Text) (encoding : Encoding) :
    let s := (i.push name (attributes.flatMap WrittenAttribute.print ++
      (close.text ++ (stop ++ rest))) canonical? baseDir encoding).stack
    ∃ found : Attributes,
      readAttributes s = (.ok found, s.setUnread (stop ++ rest.unifyBreaks)) ∧
      found.names = (attributes.map WrittenAttribute.name).eraseDups ∧
      ∀ key, found.get? key =
        (attributes.map fun a => (a.name, a.value)).reverse.lookup key := by
  intro s
  have hend : AttributeList.atTagEnd (stop ++ rest.unifyBreaks) = true :=
    List.any_eq_true.mpr ⟨stop, hstop, List.isPrefixOf_iff_prefix.mpr (List.prefix_append _ _)⟩
  have hunread : s.unread =
      (attributes.map WrittenAttribute.unify).flatMap WrittenAttribute.print ++
        (close.unify.text ++ (stop ++ rest.unifyBreaks)) := by
    change Text.unifyBreaks _ = _
    rw [WrittenAttribute.unifyBreaks_flatMap_print h, AttributeList.unifyBreaks_tagEnd hstop]
  have hread := AttributeList.read_print (attributes.map WrittenAttribute.unify) close.unify hend
  have hbindings : (attributes.map WrittenAttribute.unify).map WrittenAttribute.binding =
      attributes.map fun a => (a.name, a.value) := by
    rw [List.map_map]
    rfl
  rw [← hunread, hbindings] at hread
  refine ⟨.ofList (attributes.map fun a => (a.name, a.value)), ?_, ?_, ?_⟩
  · rw [readAttributes, hread]
  · have hnames := Attributes.names_ofList (attributes.map fun a => (a.name, a.value))
    rwa [List.map_map] at hnames
  · exact Attributes.get?_ofList _

/-- A name that is written twice, around a value that holds both quotes, a backslash, a line break
and the end of a tag. -/
theorem readAttributes_print_repeated_name :
    let tight : Blanks := ⟨[], by decide⟩
    let gap : Blanks := ⟨"\r\n ", by decide⟩
    let attributes : List WrittenAttribute :=
      [⟨"a", "1", tight, tight, tight, false, by decide, by decide⟩,
        ⟨"b", "it's \\ \"%>\"\n", gap, gap, tight, true, by decide, by decide⟩,
        ⟨"a", "2", gap, tight, gap, false, by decide, by decide⟩]
    let s := ((Input.empty false).push "page" (attributes.flatMap WrittenAttribute.print ++
      (gap.text ++ ("--%>".toList ++ "\r\n>".toList))) none [] .utf8).stack
    (∀ a ∈ attributes, '\r' ∉ a.value) ∧ "--%>".toList ∈ AttributeList.tagEnds ∧
      ∃ found : Attributes,
        readAttributes s = (.ok found, s.setUnread ("--%>".toList ++ "\n>".toList)) ∧
        found.names = ["a".toList, "b".toList] ∧
        ∀ key, found.get? key = [("a".toList, "2".toList),
          ("b".toList, "it's \\ \"%>\"\n".toList), ("a".toList, "1".toList)].lookup key := by
  intro tight gap attributes s
  have hvalues : ∀ a ∈ attributes, '\r' ∉ a.value := by decide +kernel
  have hstop : "--%>".toList ∈ AttributeList.tagEnds := by decide +kernel
  exact ⟨hvalues, hstop, readAttributes_print attributes hvalues gap hstop "\r\n>"
    (Input.empty false) "page" none [] .utf8⟩

/-- A carriage return ends a name like any other line break, so a name that holds one is not read
back. -/
theorem readAttributes_name_with_break :
    let name : Text := "a\rb"
    let s := ((Input.empty false).openText "page" (name ++ "=\"1\">".toList) []).stack
    (name ≠ [] ∧ name.all (fun c => !(" \t\n=\"'/>\\".toList.contains c)) = true) ∧
      (readAttributes s).1 =
        .error ⟨.missingValue "a", some (.point ⟨"page", 2, 2, 2⟩)⟩ := by
  decide +kernel

end Recognition

end ServerPages
