import ServerPages.Markup.Attributes
import ServerPages.Proofs.Text.Search

/-!
# Reading attribute lists

Reading an attribute list takes a beginning of the text and leaves the rest as it is. A list that is
written with quoted values is read back as the bindings it was written from, whatever spaces stand
between its parts and whichever quotes are chosen.
-/

namespace ServerPages

namespace AttributeList

theorem suffix_skipSpaces (t : Text) : t.skipSpaces <:+ t := List.dropWhile_suffix _

/-- A bare token is read from the beginning of the text. -/
theorem suffix_readBare (t : Text) : (readBare t).2 <:+ t := by
  fun_induction readBare t with
  | case1 => exact List.suffix_rfl
  | case2 e more _ ih => exact ih.trans ((List.suffix_cons e more).trans (List.suffix_cons _ _))
  | case3 e more _ ih => exact ih.trans (List.suffix_cons _ _)
  | case4 => exact List.suffix_rfl
  | case5 c rest _ _ ih => exact ih.trans (List.suffix_cons c rest)

/-- A quoted value is read at the beginning of a text. -/
theorem suffix_readQuoted {quote : Char} {t value rest : Text}
    (h : readQuoted quote t = some (value, rest)) : rest <:+ t := by
  fun_induction readQuoted quote t generalizing value with
  | case1 => cases h
  | case2 => cases h
  | case3 c more ih =>
    obtain ⟨⟨v, r⟩, hr, he⟩ := Option.map_eq_some_iff.mp h
    obtain ⟨-, rfl⟩ := Prod.mk.inj he
    exact (ih hr).trans ((List.suffix_cons c more).trans (List.suffix_cons _ _))
  | case4 =>
    cases h
    exact List.suffix_cons _ _
  | case5 c more _ _ _ ih =>
    obtain ⟨⟨v, r⟩, hr, he⟩ := Option.map_eq_some_iff.mp h
    obtain ⟨-, rfl⟩ := Prod.mk.inj he
    exact (ih hr).trans (List.suffix_cons c more)

/-- A value is read at the beginning of a text. -/
theorem suffix_readValue {t value rest : Text} (h : readValue t = some (value, rest)) :
    rest <:+ t := by
  fun_cases readValue t with
  | case1 more => exact (suffix_readQuoted h).trans (List.suffix_cons _ _)
  | case2 more => exact (suffix_readQuoted h).trans (List.suffix_cons _ _)
  | case3 =>
    have hb := suffix_readBare t
    simp_all [readValue]

/-- What follows an attribute is the end of the text, also when the attribute is faulty. -/
theorem suffix_readOne {t rest : Text} :
    (∀ pair, readOne t = .ok (pair, rest) → rest <:+ t) ∧
      ∀ fault, readOne t = .error (fault, rest) → rest <:+ t := by
  have hs := (suffix_skipSpaces (readBare t).2).trans (suffix_readBare t)
  constructor
  · intro pair h
    simp only [readOne] at h
    split at h
    · rename_i more he
      split at h
      · rename_i value after hv
        cases h
        rw [he] at hs
        exact (suffix_readValue hv).trans
          ((suffix_skipSpaces more).trans ((List.suffix_cons _ _).trans hs))
      · cases h
    · cases h
    · cases h
  · intro fault h
    simp only [readOne] at h
    split at h
    · split at h
      · cases h
      · cases h
        exact List.nil_suffix
    · cases h
      exact List.nil_suffix
    · cases h
      exact hs

/-- A list is read at the beginning of a text. -/
theorem suffix_readFrom (found : Attributes) (t : Text) : (readFrom found t).2 <:+ t := by
  fun_induction readFrom found t with
  | case1 found t => exact suffix_skipSpaces t
  | case2 => exact List.nil_suffix
  | case3 found t _ _ name value rest hr ih =>
    exact ih.trans ((suffix_readOne.1 _ hr).trans (suffix_skipSpaces t))
  | case4 found t _ _ fault rest hr => exact (suffix_readOne.2 _ hr).trans (suffix_skipSpaces t)

/-- Reading an attribute list leaves the end of the text. -/
theorem suffix_read (t : Text) : (read t).2 <:+ t := suffix_readFrom .empty t

/-- A character that a name can hold anywhere. -/
def isNameChar (c : Char) : Bool :=
  !(isTagSpace c || c = '=' || c = '"' || c = '\'' || c = '/' || c = '>' || c = '\\')

/-- A value between quotes. A backslash stands before each quote and each backslash. -/
def escape (quote : Char) (value : Text) : Text :=
  value.flatMap fun c => if c = quote ∨ c = '\\' then ['\\', c] else [c]

end AttributeList

/-- Blanks that may stand between the parts of a tag. -/
structure Blanks where
  /-- The blanks. -/
  text : Text
  /-- Nothing else is among them. -/
  blank : text.all isTagSpace = true

/-- An attribute as it is written, with a quoted value. -/
structure WrittenAttribute where
  /-- The name. -/
  name : Text
  /-- The value. -/
  value : Text
  /-- The blanks before the name. -/
  before : Blanks
  /-- The blanks before the equals sign. -/
  beforeEquals : Blanks
  /-- The blanks after the equals sign. -/
  afterEquals : Blanks
  /-- Whether the quotes are single ones. -/
  single : Bool
  /-- There is a name. -/
  name_ne : name ≠ []
  /-- The name can be told from what stands around it. -/
  plain : name.all AttributeList.isNameChar = true

namespace WrittenAttribute

/-- The quote at both ends of the value. -/
def quote (a : WrittenAttribute) : Char := if a.single then '\'' else '"'

/-- The equals sign and the value, with the blanks before them. -/
def tail (a : WrittenAttribute) : Text :=
  a.beforeEquals.text ++ '=' :: (a.afterEquals.text ++
    a.quote :: (AttributeList.escape a.quote a.value ++ [a.quote]))

/-- The text of an attribute. -/
def print (a : WrittenAttribute) : Text := a.before.text ++ (a.name ++ a.tail)

/-- What an attribute binds. -/
def binding (a : WrittenAttribute) : Text × Text := (a.name, a.value)

end WrittenAttribute

namespace AttributeList

/-- A character of a quoted value closes the value or belongs to it. -/
theorem readQuoted_cons {quote c : Char} (hc : c ≠ '\\') (rest : Text) :
    readQuoted quote (c :: rest) =
      if c = quote then some ([], rest) else (readQuoted quote rest).map (consRead c) := by
  rw [readQuoted]
  · exact fun h => absurd h hc
  · exact fun _ _ h => absurd h hc

/-- A quoted value is read back. -/
theorem readQuoted_escape {quote : Char} (hq : quote ≠ '\\') (value rest : Text) :
    readQuoted quote (escape quote value ++ quote :: rest) = some (value, rest) := by
  induction value with
  | nil =>
    rw [escape, List.flatMap_nil, List.nil_append, readQuoted_cons hq, if_pos rfl]
  | cons c value ih =>
    rw [escape, List.flatMap_cons, ← escape, List.append_assoc]
    by_cases hc : c = quote ∨ c = '\\'
    · rw [if_pos hc, List.cons_append, List.cons_append, List.nil_append, readQuoted, ih]
      rfl
    · rw [if_neg hc, List.singleton_append, readQuoted_cons fun h => hc (Or.inr h),
        if_neg fun h => hc (Or.inl h), ih]
      rfl

/-- A delimiter that holds a character which a name cannot hold does not begin in that name. -/
theorem not_prefix_name {literal name rest : Text} {z d : Char} (hz : z ∈ literal) (hn : z ∉ name)
    (hd : d ∉ literal) : ¬ literal <+: name ++ d :: rest := by
  intro h
  rcases List.prefix_or_prefix_of_prefix h (List.prefix_append _ _) with hp | ⟨more, rfl⟩
  · exact hn (hp.subset hz)
  · rw [List.prefix_append_right_inj] at h
    cases more with
    | nil => exact hn (by simpa using hz)
    | cons x more =>
      obtain ⟨rfl, -⟩ := List.cons_prefix_cons.mp h
      exact hd (by simp)

/-- A character of a bare token belongs to it unless a delimiter begins there. -/
theorem readBare_cons {c : Char} (hc : c ≠ '\\') (rest : Text) :
    readBare (c :: rest) =
      if atDelimiter (c :: rest) then ([], c :: rest) else consRead c (readBare rest) := by
  rw [readBare]
  exact fun _ _ h => absurd h hc

section Name

variable {name rest : Text} {d : Char} (hn : name.all isNameChar = true)
  (hd : isTagSpace d = true ∨ d = '=')

include hn hd

/-- A tag does not end where a name begins. -/
theorem not_prefix_of_tagEnd {literal : Text} (hz : '>' ∈ literal)
    (hl : (literal.all fun c => c = '-' || c = '%' || c = '/' || c = '>') = true) :
    ¬ literal <+: name ++ d :: rest := by
  refine not_prefix_name hz (fun hm => ?_) fun hm => ?_
  · have := List.all_eq_true.mp hn '>' hm
    cases this
  · have hcases : d = '-' ∨ d = '%' ∨ d = '/' ∨ d = '>' := by
      simpa [or_assoc] using List.all_eq_true.mp hl d hm
    rcases hcases with rfl | rfl | rfl | rfl <;> simp [isTagSpace] at hd

/-- No tag ends within a name that a blank or an equals sign follows. -/
theorem atTagEnd_name : atTagEnd (name ++ d :: rest) = false := by
  rw [atTagEnd, List.any_eq_false]
  intro literal hl
  rw [List.isPrefixOf_iff_prefix]
  simp only [tagEnds, List.mem_cons, List.not_mem_nil, or_false] at hl
  rcases hl with rfl | rfl | rfl | rfl
  all_goals exact not_prefix_of_tagEnd hn hd (by decide) (by decide)

/-- No delimiter begins within a name that a blank or an equals sign follows. -/
theorem atDelimiter_name {c : Char} (hc : isNameChar c = true) :
    atDelimiter (c :: (name ++ d :: rest)) = false := by
  have hgt : List.isPrefixOf ['>'] (name ++ d :: rest) = false := by
    rw [← Bool.not_eq_true, List.isPrefixOf_iff_prefix]
    exact not_prefix_of_tagEnd hn hd (by decide) (by decide)
  have harrow : List.isPrefixOf ['-', '>'] (name ++ d :: rest) = false := by
    rw [← Bool.not_eq_true, List.isPrefixOf_iff_prefix]
    exact not_prefix_of_tagEnd hn hd (by decide) (by decide)
  unfold atDelimiter
  split
  · rename_i he
    cases he
  · rename_i he
    obtain ⟨-, rfl⟩ := List.cons.inj he
    rw [hgt, harrow]
    rfl
  · rename_i he
    obtain ⟨-, rfl⟩ := List.cons.inj he
    exact hgt
  · rename_i he
    obtain ⟨rfl, -⟩ := List.cons.inj he
    simp_all [isNameChar]

/-- A name is read up to a blank or an equals sign. -/
theorem readBare_name : readBare (name ++ d :: rest) = (name, d :: rest) := by
  induction name with
  | nil =>
    have hne : d ≠ '\\' := by
      rintro rfl
      simp [isTagSpace] at hd
    have hdelimiter : atDelimiter (d :: rest) = true := by
      unfold atDelimiter
      split <;> simp_all [isTagSpace]
    rw [List.nil_append, readBare_cons hne, if_pos hdelimiter]
  | cons c name ih =>
    rw [List.all_cons, Bool.and_eq_true] at hn
    have hne : c ≠ '\\' := by
      rintro rfl
      cases hn.1
    rw [List.cons_append, readBare_cons hne, atDelimiter_name hn.2 hd hn.1, ih hn.2]
    rfl

end Name

variable (a : WrittenAttribute) (rest : Text)

/-- There are two kinds of quotation marks. -/
private theorem quote_cases : a.quote = '"' ∨ a.quote = '\'' := by
  rw [WrittenAttribute.quote]
  cases a.single with
  | true => exact Or.inr rfl
  | false => exact Or.inl rfl

/-- Behind the name of an attribute stands a blank or the equals sign. -/
private theorem exists_tail_eq_cons :
    ∃ d more, a.tail ++ rest = d :: more ∧ (isTagSpace d = true ∨ d = '=') := by
  rw [WrittenAttribute.tail]
  cases hb : a.beforeEquals.text with
  | nil => exact ⟨'=', _, rfl, Or.inr rfl⟩
  | cons d more =>
    have hd := a.beforeEquals.blank
    rw [hb, List.all_cons, Bool.and_eq_true] at hd
    exact ⟨d, _, rfl, Or.inl hd.1⟩

/-- The value of an attribute is read back. -/
private theorem readValue_print :
    readValue (Text.skipSpaces (a.afterEquals.text ++
      a.quote :: (escape a.quote a.value ++ a.quote :: rest))) = some (a.value, rest) := by
  rw [Text.skipSpaces_append a.afterEquals.blank]
  rcases quote_cases a with hq | hq
  · rw [hq]
    exact readQuoted_escape (by decide) a.value rest
  · rw [hq]
    exact readQuoted_escape (by decide) a.value rest

/-- One attribute is read back. -/
theorem readOne_print : readOne (a.name ++ (a.tail ++ rest)) = .ok (a.binding, rest) := by
  obtain ⟨d, more, ht, hd⟩ := exists_tail_eq_cons a rest
  have hname : readBare (a.name ++ (a.tail ++ rest)) = (a.name, a.tail ++ rest) := by
    rw [ht]
    exact readBare_name a.plain hd
  have hequals : (a.tail ++ rest).skipSpaces = '=' :: (a.afterEquals.text ++
      a.quote :: (escape a.quote a.value ++ a.quote :: rest)) := by
    rw [WrittenAttribute.tail, List.append_assoc, Text.skipSpaces_append a.beforeEquals.blank]
    simp [Text.skipSpaces, isTagSpace]
  simp only [readOne, hname, hequals, readValue_print a rest]
  rfl

/-- The end of a tag is no blank. -/
theorem skipSpaces_tagEnd {stop : Text} (h : atTagEnd stop = true) :
    stop.skipSpaces = stop := by
  obtain ⟨literal, hl, hp⟩ := List.any_eq_true.mp h
  obtain ⟨more, rfl⟩ := List.isPrefixOf_iff_prefix.mp hp
  simp only [tagEnds, List.mem_cons, List.not_mem_nil, or_false] at hl
  rcases hl with rfl | rfl | rfl | rfl <;> rfl

/-- Behind the spaces in front of an attribute stands its name. -/
private theorem skipSpaces_print : (a.print ++ rest).skipSpaces = a.name ++ (a.tail ++ rest) := by
  obtain ⟨c, name, hname⟩ := List.exists_cons_of_ne_nil a.name_ne
  have hc : isTagSpace c = false := by
    have hplain := a.plain
    rw [hname, List.all_cons, Bool.and_eq_true] at hplain
    have hc := hplain.1
    simp only [isNameChar, Bool.not_eq_true', Bool.or_eq_false_iff] at hc
    exact hc.1.1.1.1.1.1
  rw [WrittenAttribute.print, List.append_assoc, Text.skipSpaces_append a.before.blank, hname,
    List.append_assoc]
  exact List.dropWhile_cons_of_neg (by simp [hc])

/-- Blanks before an attribute list make no difference. -/
theorem read_skipSpaces (t : Text) : read t.skipSpaces = read t := by
  rw [read, read, readFrom, readFrom, Text.skipSpaces_skipSpaces]

/-- A written attribute list is read back up to the end of the tag. -/
theorem readFrom_print (attributes : List WrittenAttribute) (found : Attributes) (close : Blanks)
    {stop : Text} (hs : atTagEnd stop = true) :
    readFrom found (attributes.flatMap WrittenAttribute.print ++ (close.text ++ stop)) =
      (.ok (attributes.foldl (fun found a => found.insert a.name a.value) found), stop) := by
  induction attributes generalizing found with
  | nil =>
    rw [List.flatMap_nil, List.nil_append, readFrom, Text.skipSpaces_append close.blank,
      skipSpaces_tagEnd hs, if_pos hs]
    rfl
  | cons a attributes ih =>
    rw [List.flatMap_cons, List.append_assoc]
    generalize hrest : attributes.flatMap WrittenAttribute.print ++ (close.text ++ stop) = rest
    obtain ⟨d, more, ht, hd⟩ := exists_tail_eq_cons a rest
    have hend : atTagEnd (a.name ++ (a.tail ++ rest)) = false := by
      rw [ht]
      exact atTagEnd_name a.plain hd
    rw [readFrom, skipSpaces_print, if_neg (by simp [hend]), if_neg (by simp [a.name_ne])]
    split
    · rename_i hr
      rw [readOne_print] at hr
      cases hr
      rw [← hrest]
      exact ih _
    · rename_i hr
      rw [readOne_print] at hr
      cases hr

/-- A written attribute list binds what its attributes bind, a later one winning. -/
theorem read_print (attributes : List WrittenAttribute) (close : Blanks) {stop : Text}
    (hs : atTagEnd stop = true) :
    read (attributes.flatMap WrittenAttribute.print ++ (close.text ++ stop)) =
      (.ok (.ofList (attributes.map WrittenAttribute.binding)), stop) := by
  rw [read, readFrom_print attributes .empty close hs, Attributes.ofList, List.foldl_map]
  rfl

end AttributeList

namespace Attributes

/-- A new name is bound behind the others. -/
theorem insert_of_not_mem {entries : List (Text × Text)} {name : Text}
    (h : name ∉ entries.map Prod.fst) (value : Text) :
    insert ⟨entries⟩ name value = ⟨entries ++ [(name, value)]⟩ := by
  refine if_neg fun hany => h ?_
  obtain ⟨pair, hm, hp⟩ := List.any_eq_true.mp hany
  exact List.mem_map.mpr ⟨pair, hm, of_decide_eq_true hp⟩

/-- Attributes of different names are kept in the order in which they are given. -/
private theorem foldl_insert (front rest : List (Text × Text))
    (h : ((front ++ rest).map Prod.fst).Nodup) :
    rest.foldl (fun (a : Attributes) (name, value) => a.insert name value) ⟨front⟩ =
      ⟨front ++ rest⟩ := by
  induction rest generalizing front with
  | nil => rw [List.append_nil, List.foldl_nil]
  | cons pair rest ih =>
    obtain ⟨name, value⟩ := pair
    have hnot : name ∉ front.map Prod.fst := by
      rw [List.map_append, List.map_cons, List.nodup_append] at h
      exact fun hm => h.2.2 _ hm _ List.mem_cons_self rfl
    have hnext := ih (front ++ [(name, value)]) (by simpa using h)
    rw [List.append_assoc, List.singleton_append] at hnext
    rw [List.foldl_cons, ← hnext, ← insert_of_not_mem hnot value]

/-- Distinct names keep their values and their order. -/
theorem ofList_eq {pairs : List (Text × Text)} (h : (pairs.map Prod.fst).Nodup) :
    ofList pairs = ⟨pairs⟩ :=
  foldl_insert [] pairs h

end Attributes

end ServerPages
