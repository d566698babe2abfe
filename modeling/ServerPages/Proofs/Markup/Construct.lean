import ServerPages.Proofs.Markup.Single

/-!
# Constructs as they are written

A template is written as a list of constructs. Whatever blanks stand inside the tags and whichever
quotes surround the values, a scan of the written text reports just the constructs, one after the
other: neither plain text nor the body of an element swallows or makes a delimiter.
-/

namespace ServerPages

/-- The attributes of a tag as they are written, up to its closing delimiter. -/
structure WrittenList where
  /-- The attributes. -/
  attributes : List WrittenAttribute
  /-- The blanks before the closing delimiter. -/
  close : Blanks
  /-- No name is bound twice. -/
  distinct : (attributes.map WrittenAttribute.name).Nodup

namespace WrittenList

/-- The text of an attribute list. -/
def print (w : WrittenList) : Text := w.attributes.flatMap WrittenAttribute.print ++ w.close.text

/-- What an attribute list binds. -/
def bindings (w : WrittenList) : Attributes := ⟨w.attributes.map WrittenAttribute.binding⟩

/-- Whether the first attribute is set off from what precedes the list. -/
def isSetOff (w : WrittenList) : Bool :=
  match w.attributes with
  | [] => true
  | a :: _ => !a.before.text.isEmpty

end WrittenList

/-- A construct of a template as it is written. -/
inductive Construct where
  /-- Plain text. -/
  | text (t : Text)
  /-- A comment. -/
  | comment (t : Text)
  /-- An expression, with blanks before it. -/
  | expression (gap : Blanks) (t : Text)
  /-- A directive, with blanks before its name. -/
  | directive (gap : Blanks) (name : Text) (list : WrittenList)
  /-- The end of a block, with blanks around the word and perhaps a marker. -/
  | endBlock (before after : Blanks) (marked : Bool)
  /-- Statements of the page body. -/
  | script (t : Text)
  /-- Statements of the module. -/
  | moduleCode (t : Text)
  /-- Statements of the class. -/
  | classCode (t : Text)
  /-- A method with its body. -/
  | method (list : WrittenList) (body : Text)
  /-- The response of another page, perhaps with a slash at the end of the tag. -/
  | urlInclude (list : WrittenList) (slash : Bool)
  /-- The contents of a file, perhaps with a slash at the end of the tag. -/
  | fileInsert (list : WrittenList) (slash : Bool)

namespace Construct

/-- The end of a tag that holds no text. -/
def tagEnd : Bool → Text
  | true => "/>"
  | false => ">"

/-- The end of a block's end, perhaps with a marker. -/
def blockEnd : Bool → Text
  | true => "$%>"
  | false => "%>"

/-- The head of a method. -/
def methodHead (list : WrittenList) : Text := "<psp:method" ++ (list.print ++ ">")

/-- The text of a construct. -/
def print : Construct → Text
  | text t => t
  | comment t => "<%--" ++ (t ++ "--%>")
  | expression gap t => "<%=" ++ (gap.text ++ (t ++ "%>"))
  | directive gap name list => "<%@" ++ (gap.text ++ (name ++ (list.print ++ "%>")))
  | endBlock before after marked =>
    "<%" ++ (before.text ++ ("end" ++ (after.text ++ blockEnd marked)))
  | script t => "<%" ++ (t ++ "%>")
  | moduleCode t => "<psp:file>" ++ (t ++ "</psp:file>")
  | classCode t => "<psp:class>" ++ (t ++ "</psp:class>")
  | method list body => methodHead list ++ (body ++ "</psp:method>")
  | urlInclude list slash => "<psp:include" ++ (list.print ++ tagEnd slash)
  | fileInsert list slash => "<psp:insert" ++ (list.print ++ tagEnd slash)

/-- What a construct says. A directive and the head of a method hold their own text. -/
def events : Construct → List Event
  | text t => [⟨.plainText, t, .empty⟩]
  | comment t => [⟨.comment, t, .empty⟩]
  | expression _ t => [⟨.expression, t, .empty⟩]
  | directive gap name list => [⟨.directive name, (directive gap name list).print, list.bindings⟩]
  | endBlock _ _ marked => [⟨.endBlock marked, [], .empty⟩]
  | script t => [⟨.script, t, .empty⟩]
  | moduleCode t => [⟨.moduleCode, t, .empty⟩]
  | classCode t => [⟨.classCode, t, .empty⟩]
  | method list body =>
    [⟨.methodHead, methodHead list, list.bindings⟩, ⟨.methodBody, body, list.bindings⟩]
  | urlInclude list _ => [⟨.urlInclude, [], list.bindings⟩]
  | fileInsert list _ => [⟨.fileInsert, [], list.bindings⟩]

/-- Whether the text between script delimiters makes them the end of a block. -/
def isEndWord (t : Text) : Bool :=
  match Text.after? "end" t.skipSpaces with
  | some rest => rest.skipSpaces = [] || rest.skipSpaces = "$"
  | none => false

/-- A script with a colon is not the end of a block. -/
theorem isEndWord_eq_false {t : Text} (h : ':' ∈ t) : isEndWord t = false := by
  have hskip := Text.mem_skipSpaces (by decide) h
  rw [isEndWord]
  split
  · rename_i rest hrest
    rw [Text.after?_eq_some_iff.mp hrest, List.mem_append] at hskip
    have hmem := Text.mem_skipSpaces (by decide) (hskip.resolve_left (by decide))
    rw [Bool.or_eq_false_iff, decide_eq_false_iff_not, decide_eq_false_iff_not]
    constructor
    · exact List.ne_nil_of_mem hmem
    · exact fun he => absurd (he ▸ hmem) (by decide)
  · rfl

/-- What makes a construct recognisable: no part of it holds the delimiter that ends the part. -/
def Valid : Construct → Prop
  | text t => t ≠ [] ∧ ∀ opener ∈ Recognition.openers, ¬ opener <:+: t
  | comment t => ¬ "--%>".toList <:+: t
  | expression _ t => ¬ "%>".toList <:+: t ∧ (t.head?.all fun c => !isTagSpace c) = true
  | directive _ name list => name ∈ Recognition.directiveNames ∧ list.isSetOff = true
  | endBlock _ _ _ => True
  | script t => ¬ "%>".toList <:+: t ∧ ¬ "--".toList <+: t ∧ ¬ "=".toList <+: t ∧
      ¬ "@".toList <+: t ∧ isEndWord t = false
  | moduleCode t => ¬ "</psp:file>".toList <:+: t
  | classCode t => ¬ "</psp:class>".toList <:+: t
  | method _ body => ¬ "</psp:method>".toList <:+: body
  | urlInclude _ _ => True
  | fileInsert _ _ => True

instance : DecidablePred Valid
  | text t => inferInstanceAs (Decidable (t ≠ [] ∧ ∀ opener ∈ Recognition.openers, ¬ opener <:+: t))
  | comment t => inferInstanceAs (Decidable (¬ "--%>".toList <:+: t))
  | expression _ t =>
    inferInstanceAs (Decidable
      (¬ "%>".toList <:+: t ∧ (t.head?.all fun c => !isTagSpace c) = true))
  | directive _ name list =>
    inferInstanceAs (Decidable (name ∈ Recognition.directiveNames ∧ list.isSetOff = true))
  | script t => inferInstanceAs (Decidable (¬ "%>".toList <:+: t ∧ ¬ "--".toList <+: t ∧
      ¬ "=".toList <+: t ∧ ¬ "@".toList <+: t ∧ isEndWord t = false))
  | moduleCode t => inferInstanceAs (Decidable (¬ "</psp:file>".toList <:+: t))
  | classCode t => inferInstanceAs (Decidable (¬ "</psp:class>".toList <:+: t))
  | method _ body => inferInstanceAs (Decidable (¬ "</psp:method>".toList <:+: body))
  | endBlock _ _ _ | urlInclude _ _ | fileInsert _ _ => .isTrue trivial

/-- Plain text, which must not stand next to plain text. -/
def isText : Construct → Bool
  | text _ => true
  | _ => false

/-- The cuts of a construct. -/
def cuts : Construct → List Cut
  | text t => [⟨.plainText, .empty, [], t, []⟩]
  | comment t => [⟨.comment, .empty, "<%--", t, "--%>"⟩]
  | expression gap t => [⟨.expression, .empty, "<%=" ++ gap.text, t, "%>"⟩]
  | directive gap name list =>
    [⟨.directive name, list.bindings, [], (directive gap name list).print, []⟩]
  | endBlock before after marked =>
    [⟨.endBlock marked, .empty, [], (endBlock before after marked).print, []⟩]
  | script t => [⟨.script, .empty, "<%", t, "%>"⟩]
  | moduleCode t => [⟨.moduleCode, .empty, "<psp:file>", t, "</psp:file>"⟩]
  | classCode t => [⟨.classCode, .empty, "<psp:class>", t, "</psp:class>"⟩]
  | method list body =>
    [⟨.methodHead, list.bindings, [], methodHead list, []⟩,
      ⟨.methodBody, list.bindings, [], body, "</psp:method>"⟩]
  | urlInclude list slash => [⟨.urlInclude, list.bindings, [], (urlInclude list slash).print, []⟩]
  | fileInsert list slash => [⟨.fileInsert, list.bindings, [], (fileInsert list slash).print, []⟩]

theorem map_event_cuts (c : Construct) : c.cuts.map Cut.event = c.events := by
  cases c <;> rfl

end Construct

namespace Text

/-- A literal is found before a character that it does not hold, or not at all. -/
theorem after?_append_cons {literal : Text} {d : Char} (hd : d ∉ literal) (t rest : Text) :
    after? literal (t ++ d :: rest) = (after? literal t).map (· ++ d :: rest) := by
  induction literal generalizing t with
  | nil => cases t <;> rfl
  | cons a literal ih =>
    rw [List.mem_cons, not_or] at hd
    cases t with
    | nil => exact if_neg fun he => hd.1 he.symm
    | cons c t =>
      rw [List.cons_append, after?, after?, ih hd.2]
      split <;> rfl

/-- Blanks are skipped up to a character that is none. -/
theorem skipSpaces_append_cons {d : Char} (hd : isTagSpace d = false) (t rest : Text) :
    skipSpaces (t ++ d :: rest) = skipSpaces t ++ d :: rest := by
  rw [skipSpaces, skipSpaces, List.dropWhile_append, List.dropWhile_cons_of_neg (by simp [hd])]
  split
  · rename_i he
    rw [List.isEmpty_iff.mp he, List.nil_append]
  · rfl

/-- A literal at the beginning of a text is found there first. -/
theorem splitFirst?_of_after? {literal t after : Text} (h : after? literal t = some after) :
    splitFirst? literal t = some ([], after) := by
  cases t with
  | nil => rw [splitFirst?, h, Option.map_some]
  | cons c t => rw [splitFirst?, h]

/-- The closing delimiter behind a text that holds none is found at once only if there is no
text. -/
theorem eq_nil_of_after?_close {t rest after : Text} (hi : ¬ "%>".toList <:+: t)
    (h : after? "%>" (t ++ ("%>" ++ rest)) = some after) : t = [] := by
  have hsplit : splitFirst? "%>" (t ++ ("%>" ++ rest)) = some (t, rest) :=
    splitFirst?_append (w := ['%']) (z := '>') (by decide) hi rest
  rw [splitFirst?_of_after? h] at hsplit
  exact (Prod.mk.inj (Option.some.inj hsplit)).1.symm

end Text

namespace Cut

/-- Whether the last character of a delimiter occurs nowhere else in it. -/
def isCloser (close : Text) : Bool := close.getLast?.any fun z => !close.dropLast.contains z

/-- An element whose body does not hold its closing delimiter is read to that delimiter. -/
theorem enclosed?_append {kind : ElementKind} {attributes : Attributes} {opening close body : Text}
    (hc : isCloser close = true) (hi : ¬ close <:+: body) (rest : Text) :
    enclosed? kind attributes opening close (body ++ (close ++ rest)) =
      some (⟨kind, attributes, opening, body, close⟩, rest) := by
  rw [isCloser] at hc
  cases hz : close.getLast? with
  | none => simp [hz] at hc
  | some z =>
    obtain ⟨w, rfl⟩ := List.getLast?_eq_some_iff.mp hz
    have hn : z ∉ w := by simpa using hc
    rw [enclosed?, Text.splitFirst?_append hn hi, Option.map_some]

/-- An expression is recognized by its opening delimiter, and blanks behind it are skipped. -/
theorem first?_expression (t : Text) :
    first? ("<%=" ++ t) = some (enclosed? .expression .empty ("<%=" ++ t.takeWhile isTagSpace) "%>"
      t.skipSpaces) := rfl

/-- A directive is recognized by its opening delimiter. -/
theorem first?_directive (t : Text) : first? ("<%@" ++ t) = some (directive? ("<%@" ++ t) t) := rfl

/-- The head of a method is recognized by the name of its tag. -/
theorem first?_method (t : Text) :
    first? ("<psp:method" ++ t) =
      some ((tagRest? t [">"]).map (tag .methodHead ("<psp:method" ++ t))) := rfl

/-- An include tag is recognized by its name. -/
theorem first?_urlInclude (t : Text) :
    first? ("<psp:include" ++ t) =
      some ((tagRest? t.skipSpaces ["/>", ">"]).map (tag .urlInclude ("<psp:include" ++ t))) := rfl

/-- An insert tag is recognized by its name. -/
theorem first?_fileInsert (t : Text) :
    first? ("<psp:insert" ++ t) =
      some ((tagRest? t.skipSpaces ["/>", ">"]).map (tag .fileInsert ("<psp:insert" ++ t))) := rfl

/-- A written attribute list is read to the closing delimiter of its tag. -/
theorem tagRest?_print (list : WrittenList) {closes : List Text} {stop rest : Text}
    (hs : AttributeList.atTagEnd stop = true)
    (hc : (closes.findSome? fun close => Text.after? close stop) = some rest) :
    tagRest? (list.print ++ stop) closes = some (list.bindings, rest) := by
  have hread : AttributeList.read (list.print ++ stop) = (.ok list.bindings, stop) := by
    rw [WrittenList.print, List.append_assoc, AttributeList.read_print _ _ hs,
      Attributes.ofList_eq (by rw [List.map_map]; exact list.distinct)]
    rfl
  rw [tagRest?, hread]
  simp only [AttributeList.skipSpaces_tagEnd hs, hc, Option.map_some]

/-- A text that begins with the opener of scripts and with no longer delimiter. -/
theorem first?_script {t : Text} (hc : ¬ "--".toList <+: t) (he : ¬ "=".toList <+: t)
    (hd : ¬ "@".toList <+: t) :
    first? ("<%" ++ t) =
      ((endBlock? ("<%" ++ t)).map some).or (some (enclosed? .script .empty "<%" "%>" t)) := by
  have hcomment : Text.after? "<%--" ("<%" ++ t) = none := (Text.after?_eq_none_iff.mpr hc :)
  have hexpression : Text.after? "<%=" ("<%" ++ t) = none := (Text.after?_eq_none_iff.mpr he :)
  have hdirective : Text.after? "<%@" ("<%" ++ t) = none := (Text.after?_eq_none_iff.mpr hd :)
  have hscript : Text.after? "<%" ("<%" ++ t) = some t := rfl
  rw [first?, hcomment, hexpression, hdirective, hscript]
  simp

/-- A script that is not the word for an end does not end a block. -/
theorem endBlock?_script {t : Text} (hi : ¬ "%>".toList <:+: t)
    (he : Construct.isEndWord t = false) (rest : Text) :
    endBlock? ("<%" ++ (t ++ ("%>" ++ rest))) = none := by
  have hskip : Text.skipSpaces (t ++ ("%>" ++ rest)) = t.skipSpaces ++ ("%>" ++ rest) :=
    Text.skipSpaces_append_cons rfl t ('>' :: rest)
  have hafter : Text.after? "end" (t.skipSpaces ++ ("%>" ++ rest)) =
      (Text.after? "end" t.skipSpaces).map (· ++ ("%>" ++ rest)) :=
    Text.after?_append_cons (by decide) t.skipSpaces ('>' :: rest)
  rw [endBlock?, Text.after?_append, Option.bind_some, hskip, hafter]
  cases hw : Text.after? "end" t.skipSpaces with
  | none => rfl
  | some word =>
    have hskip' : Text.skipSpaces (word ++ ("%>" ++ rest)) = word.skipSpaces ++ ("%>" ++ rest) :=
      Text.skipSpaces_append_cons rfl word ('>' :: rest)
    have hword : ¬ "%>".toList <:+: word.skipSpaces := fun h => hi <|
      h.trans ((AttributeList.suffix_skipSpaces word).trans
        ((Text.suffix_of_after? hw).trans (AttributeList.suffix_skipSpaces t))).isInfix
    simp only [Construct.isEndWord, hw, Bool.or_eq_false_iff, decide_eq_false_iff_not] at he
    have hplain : Text.after? "%>" (word.skipSpaces ++ ("%>" ++ rest)) = none := by
      rw [Option.eq_none_iff_forall_ne_some]
      exact fun after h => he.1 (Text.eq_nil_of_after?_close hword h)
    have hmarked : Text.after? "$%>" (word.skipSpaces ++ ("%>" ++ rest)) = none := by
      cases hs : word.skipSpaces with
      | nil => exact absurd hs he.1
      | cons c more =>
        rw [hs] at he hword
        rw [Option.eq_none_iff_forall_ne_some]
        intro after h
        have hc : Text.after? "$%>" (c :: (more ++ ("%>" ++ rest))) =
          if '$' = c then Text.after? "%>" (more ++ ("%>" ++ rest)) else none := rfl
        rw [List.cons_append, hc] at h
        split at h
        · rename_i hd
          have hnil := Text.eq_nil_of_after?_close
            (fun hm => hword (hm.trans (List.suffix_cons c more).isInfix)) h
          exact he.2 (by rw [hnil, ← hd]; rfl)
        · cases h
    rw [Option.map_some, Option.bind_some, hskip', hplain, hmarked]
    rfl

/-- The word for an end between script delimiters ends a block. -/
theorem endBlock?_print (before after : Blanks) (marked : Bool) (rest : Text) :
    endBlock? ((Construct.endBlock before after marked).print ++ rest) =
      some (⟨.endBlock marked, .empty, [], (Construct.endBlock before after marked).print, []⟩,
        rest) := by
  have hopen : Text.after? "<%" ((Construct.endBlock before after marked).print ++ rest) =
      some (before.text ++ ("end" ++ (after.text ++ (Construct.blockEnd marked ++ rest)))) := by
    change Text.after? "<%" (("<%" ++ (before.text ++ ("end" ++ (after.text ++
      Construct.blockEnd marked)))) ++ rest) = _
    rw [List.append_assoc, List.append_assoc, List.append_assoc, List.append_assoc,
      Text.after?_append]
  have hbefore : Text.skipSpaces
      (before.text ++ ("end" ++ (after.text ++ (Construct.blockEnd marked ++ rest)))) =
        "end" ++ (after.text ++ (Construct.blockEnd marked ++ rest)) :=
    Text.skipSpaces_append before.blank _
  have hafter : Text.skipSpaces (after.text ++ (Construct.blockEnd marked ++ rest)) =
      Construct.blockEnd marked ++ rest := by
    rw [Text.skipSpaces_append after.blank]
    cases marked <;> rfl
  rw [endBlock?, hopen, Option.bind_some, hbefore, Text.after?_append, Option.bind_some, hafter]
  cases marked with
  | false =>
    have hclose : Text.after? "%>" (Construct.blockEnd false ++ rest) = some rest := rfl
    rw [hclose, Option.map_some, tag_append, Option.some_or]
  | true =>
    have hplain : Text.after? "%>" (Construct.blockEnd true ++ rest) = none := rfl
    have hclose : Text.after? "$%>" (Construct.blockEnd true ++ rest) = some rest := rfl
    rw [hplain, hclose, Option.map_none, Option.none_or, Option.map_some, tag_append]

end Cut

namespace Construct

open Cut

variable {rest : Text}

/-- A printed expression is recognized. -/
theorem first?_expression_print (gap : Blanks) {t : Text} (hv : (expression gap t).Valid) :
    first? ((expression gap t).print ++ rest) =
      some (some (⟨.expression, .empty, "<%=" ++ gap.text, t, "%>"⟩, rest)) := by
  obtain ⟨hi, hhead⟩ := hv
  change first? (("<%=" ++ (gap.text ++ (t ++ "%>"))) ++ rest) = _
  rw [List.append_assoc, List.append_assoc, List.append_assoc]
  obtain ⟨d, more, hd, hblank⟩ : ∃ d more, t ++ ("%>".toList ++ rest) = d :: more ∧
      isTagSpace d = false := by
    cases t with
    | nil => exact ⟨'%', _, rfl, rfl⟩
    | cons c t => exact ⟨c, _, rfl, by simpa using hhead⟩
  have htake : (gap.text ++ (t ++ ("%>" ++ rest))).takeWhile isTagSpace = gap.text := by
    rw [List.takeWhile_append_of_pos (by simpa using gap.blank), hd,
      List.takeWhile_cons_of_neg (by simp [hblank]), List.append_nil]
  have hskip : Text.skipSpaces (gap.text ++ (t ++ ("%>" ++ rest))) = t ++ ("%>" ++ rest) := by
    rw [Text.skipSpaces_append gap.blank, hd]
    exact List.dropWhile_cons_of_neg (by simp [hblank])
  rw [first?_expression, htake, hskip, enclosed?_append rfl hi]

/-- A printed end of a block is recognized. -/
theorem first?_endBlock (before after : Blanks) (marked : Bool) :
    first? ((endBlock before after marked).print ++ rest) =
      some (some (⟨.endBlock marked, .empty, [], (endBlock before after marked).print, []⟩,
        rest)) := by
  have hend := endBlock?_print before after marked rest
  obtain ⟨d, more, hd, hne⟩ : ∃ d more,
      before.text ++ ("end".toList ++ (after.text ++ blockEnd marked)) ++ rest = d :: more ∧
        d ≠ '-' ∧ d ≠ '=' ∧ d ≠ '@' := by
    cases hb : before.text with
    | nil => exact ⟨'e', _, rfl, by decide⟩
    | cons d more =>
      have hd := before.blank
      rw [hb, List.all_cons, Bool.and_eq_true] at hd
      refine ⟨d, _, rfl, ?_, ?_, ?_⟩
      all_goals
        rintro rfl
        exact absurd hd.1 (by decide)
  have hprint : (endBlock before after marked).print ++ rest = "<%" ++ (d :: more) := by
    rw [← hd]
    exact List.append_assoc ..
  rw [hprint] at hend ⊢
  rw [first?_script (fun h => hne.1 (List.cons_prefix_cons.mp h).1.symm)
    (fun h => hne.2.1 (List.cons_prefix_cons.mp h).1.symm)
    (fun h => hne.2.2 (List.cons_prefix_cons.mp h).1.symm), hend]
  rfl

/-- A printed script is recognized. -/
theorem first?_script_print {t : Text} (hv : (script t).Valid) :
    first? ((script t).print ++ rest) =
      some (some (⟨.script, .empty, "<%", t, "%>"⟩, rest)) := by
  obtain ⟨hi, hcomment, hexpression, hdirective, hend⟩ := hv
  change first? (("<%" ++ (t ++ "%>")) ++ rest) = _
  rw [List.append_assoc, List.append_assoc]
  have hshort : ∀ literal : Text, '%' ∉ literal → ¬ literal <+: t →
      ¬ literal <+: t ++ ("%>" ++ rest) := by
    intro literal hl hn
    rw [← Text.after?_eq_none_iff] at hn ⊢
    rw [show t ++ ("%>" ++ rest) = t ++ '%' :: ('>' :: rest) from rfl,
      Text.after?_append_cons hl, hn, Option.map_none]
  rw [first?_script (hshort _ (by decide) hcomment) (hshort _ (by decide) hexpression)
    (hshort _ (by decide) hdirective), endBlock?_script hi hend,
    enclosed?_append rfl hi]
  rfl

/-- Behind the name of a directive stands no character of a name. -/
private theorem exists_print_eq_cons {list : WrittenList} (h : list.isSetOff = true) (t : Text) :
    ∃ d more, list.print ++ '%' :: t = d :: more ∧ d.isAlphanum = false := by
  have hspace : ∀ {gap : Blanks} {d : Char} {more : Text}, gap.text = d :: more →
      d.isAlphanum = false := by
    intro gap d more hg
    have hd := gap.blank
    rw [hg, List.all_cons, Bool.and_eq_true] at hd
    simp only [isTagSpace, Bool.or_eq_true, decide_eq_true_eq] at hd
    rcases hd.1 with ((rfl | rfl) | rfl) | rfl <;> decide
  rw [WrittenList.print]
  cases ha : list.attributes with
  | nil =>
    cases hc : list.close.text with
    | nil => exact ⟨'%', t, rfl, by decide⟩
    | cons d more => exact ⟨d, _, rfl, hspace hc⟩
  | cons a attributes =>
    cases hb : a.before.text with
    | nil => simp [WrittenList.isSetOff, ha, hb] at h
    | cons d more =>
      rw [List.flatMap_cons, WrittenAttribute.print, hb]
      exact ⟨d, _, rfl, hspace hb⟩

/-- A printed directive is recognized. -/
theorem first?_directive_print (gap : Blanks) {name : Text} {list : WrittenList}
    (hv : (directive gap name list).Valid) :
    first? ((directive gap name list).print ++ rest) =
      some (some (⟨.directive name, list.bindings, [], (directive gap name list).print, []⟩,
        rest)) := by
  obtain ⟨hname, hset⟩ := hv
  obtain ⟨d, more, hd, halpha⟩ := exists_print_eq_cons hset ('>' :: rest)
  have hprint : (directive gap name list).print ++ rest =
      "<%@" ++ (gap.text ++ (name ++ (list.print ++ ("%>" ++ rest)))) := by
    change ("<%@" ++ (gap.text ++ (name ++ (list.print ++ "%>")))) ++ rest = _
    simp only [List.append_assoc]
  have hskip : Text.skipSpaces (gap.text ++ (name ++ (list.print ++ ("%>" ++ rest)))) =
      name ++ (list.print ++ ("%>" ++ rest)) := by
    rw [Text.skipSpaces_append gap.blank]
    simp only [Recognition.directiveNames, List.mem_cons, List.not_mem_nil, or_false] at hname
    rcases hname with rfl | rfl <;> rfl
  have hword : ∀ c ∈ name, c.isAlphanum = true := by
    simp only [Recognition.directiveNames, List.mem_cons, List.not_mem_nil, or_false] at hname
    rcases hname with rfl | rfl <;> exact List.all_eq_true.mp (by decide)
  have htake : (name ++ (list.print ++ ("%>" ++ rest))).takeWhile Char.isAlphanum = name := by
    rw [List.takeWhile_append_of_pos hword,
      show list.print ++ ("%>".toList ++ rest) = d :: more from hd,
      List.takeWhile_cons_of_neg (by simp [halpha]), List.append_nil]
  have hrest : tagRest? (list.print ++ ("%>" ++ rest)) ["%>"] = some (list.bindings, rest) :=
    tagRest?_print list rfl rfl
  have hcontains : Recognition.directiveNames.contains name = true := by simpa using hname
  rw [hprint, first?_directive, directive?]
  simp only [hskip, htake, hcontains, if_true, List.drop_left, hrest, Option.map_some]
  rw [← hprint, tag_append]

/-- A tag is read with its attributes. -/
theorem tagRest?_tagEnd (list : WrittenList) (slash : Bool) :
    tagRest? (Text.skipSpaces (list.print ++ (tagEnd slash ++ rest))) ["/>", ">"] =
      some (list.bindings, rest) := by
  have hrest : tagRest? (list.print ++ (tagEnd slash ++ rest)) ["/>", ">"] =
      some (list.bindings, rest) := by
    cases slash with
    | true => exact tagRest?_print list rfl rfl
    | false => exact tagRest?_print list rfl rfl
  rw [← hrest, tagRest?, AttributeList.read_skipSpaces, tagRest?]

/-- The printed head of a method is recognized. -/
theorem first?_methodHead (list : WrittenList) (after : Text) :
    first? (methodHead list ++ after) =
      some (some (⟨.methodHead, list.bindings, [], methodHead list, []⟩, after)) := by
  have hprint : methodHead list ++ after = "<psp:method" ++ (list.print ++ (">" ++ after)) := by
    change ("<psp:method" ++ (list.print ++ ">")) ++ after = _
    rw [List.append_assoc, List.append_assoc]
  have hrest : tagRest? (list.print ++ (">" ++ after)) [">"] = some (list.bindings, after) :=
    tagRest?_print list rfl rfl
  rw [hprint, first?_method, hrest, Option.map_some, ← hprint, tag_append]

/-- An element between delimiters is read with its body. -/
theorem pieces?_enclosed {kind : ElementKind} {opening close body : Text}
    (hf : ∀ t, first? (opening ++ t) = some (enclosed? kind .empty opening close t))
    (hk : kind ≠ .methodHead) (hc : isCloser close = true) (hi : ¬ close <:+: body) :
    pieces? (opening ++ (body ++ close) ++ rest) =
      some (some ([⟨kind, .empty, opening, body, close⟩], rest)) := by
  refine pieces?_of_first? ?_ hk
  rw [List.append_assoc, List.append_assoc, hf, enclosed?_append hc hi]

/-- A tag without a body is read with its attributes. -/
theorem pieces?_emptyTag {kind : ElementKind} {opening : Text}
    (hf : ∀ t, first? (opening ++ t) =
      some ((tagRest? t.skipSpaces ["/>", ">"]).map (tag kind (opening ++ t))))
    (hk : kind ≠ .methodHead) (list : WrittenList) (slash : Bool) :
    pieces? (opening ++ (list.print ++ tagEnd slash) ++ rest) =
      some (some ([⟨kind, list.bindings, [], opening ++ (list.print ++ tagEnd slash), []⟩],
        rest)) := by
  have hprint : opening ++ (list.print ++ tagEnd slash) ++ rest =
      opening ++ (list.print ++ (tagEnd slash ++ rest)) := by
    rw [List.append_assoc, List.append_assoc]
  refine pieces?_of_first? ?_ hk
  rw [hprint, hf, tagRest?_tagEnd, Option.map_some, ← hprint, tag_append]

/-- What is written for a construct that is not plain text is read as that construct. -/
theorem pieces?_print {c : Construct} (hv : c.Valid) (ht : c.isText = false) :
    pieces? (c.print ++ rest) = some (some (c.cuts, rest)) := by
  cases c with
  | text t => cases ht
  | comment t => exact pieces?_enclosed (fun _ => rfl) nofun rfl hv
  | expression gap t => exact pieces?_of_first? (first?_expression_print gap hv) nofun
  | directive gap name list => exact pieces?_of_first? (first?_directive_print gap hv) nofun
  | endBlock before after marked =>
    exact pieces?_of_first? (first?_endBlock before after marked) nofun
  | script t => exact pieces?_of_first? (first?_script_print hv) nofun
  | moduleCode t => exact pieces?_enclosed (fun _ => rfl) nofun rfl hv
  | classCode t => exact pieces?_enclosed (fun _ => rfl) nofun rfl hv
  | method list body =>
    have hprint : (method list body).print ++ rest =
        methodHead list ++ (body ++ ("</psp:method>" ++ rest)) := by
      change (methodHead list ++ (body ++ "</psp:method>")) ++ rest = _
      rw [List.append_assoc, List.append_assoc]
    rw [hprint]
    exact pieces?_of_methodHead (first?_methodHead list _) rfl (enclosed?_append rfl hv rest)
  | urlInclude list slash => exact pieces?_emptyTag first?_urlInclude nofun list slash
  | fileInsert list slash => exact pieces?_emptyTag first?_fileInsert nofun list slash

end Construct

namespace Cut

/-- Every opener begins with a character that does not occur in it again. -/
theorem openers_eq_cons {opener : Text} (h : opener ∈ Recognition.openers) :
    ∃ more, opener = '<' :: more ∧ '<' ∉ more := by
  simp only [Recognition.openers, List.mem_cons, List.not_mem_nil, or_false] at h
  rcases h with rfl | rfl | rfl | rfl | rfl | rfl
  all_goals exact ⟨_, rfl, by decide⟩

variable {t rest : Text} (hrest : rest = [] ∨ ∃ more, rest = '<' :: more)

include hrest

/-- No opener begins in plain text and ends behind it. -/
theorem pieces?_text (ht : t ≠ []) (ho : ∀ opener ∈ Recognition.openers, ¬ opener <:+: t) :
    pieces? (t ++ rest) = none := by
  rw [pieces?_eq_none_iff, first?_eq_none_iff]
  intro opener hm hp
  obtain ⟨w, rfl, hw⟩ := openers_eq_cons hm
  rcases List.prefix_or_prefix_of_prefix hp (List.prefix_append t rest) with hin | ⟨excess, hexcess⟩
  · exact ho _ hm hin.isInfix
  · -- the opener goes on behind the text, where another element begins or nothing is left
    rw [← hexcess, List.prefix_append_right_inj] at hp
    cases excess with
    | nil =>
      rw [List.append_nil] at hexcess
      exact ho _ hm (hexcess ▸ List.infix_rfl)
    | cons d excess =>
      obtain ⟨c, t, rfl⟩ := List.exists_cons_of_ne_nil ht
      rcases hrest with rfl | ⟨more, rfl⟩
      · cases List.prefix_nil.mp hp
      · obtain ⟨rfl, -⟩ := List.cons_prefix_cons.mp hp
        obtain ⟨-, rfl⟩ := List.cons.inj hexcess
        exact hw (by simp)

/-- Plain text ends in front of an angle bracket. -/
theorem plain_append (ht : t ≠ []) :
    plainHead (t ++ rest) = plainHead t ∧ plainTail (t ++ rest) = plainTail t ++ rest := by
  obtain ⟨c, t, rfl⟩ := List.exists_cons_of_ne_nil ht
  have hnil : rest.takeWhile (· ≠ '<') = [] ∧ rest.dropWhile (· ≠ '<') = rest := by
    rcases hrest with rfl | ⟨more, rfl⟩
    · exact ⟨rfl, rfl⟩
    · exact ⟨rfl, rfl⟩
  constructor
  · rw [List.cons_append, plainHead, plainHead, List.takeWhile_append]
    split
    · rename_i hlen
      rw [hnil.1, List.append_nil, (List.takeWhile_prefix _).eq_of_length hlen]
    · rfl
  · rw [List.cons_append, plainTail, plainTail, List.dropWhile_append]
    split
    · rename_i he
      rw [hnil.2, List.isEmpty_iff.mp he, List.nil_append]
    · rfl

/-- Plain text is collected up to the next element or the end. -/
theorem Reads.text {pending : Text} {cuts : List Cut}
    (ho : ∀ opener ∈ Recognition.openers, ¬ opener <:+: t)
    (h : Reads (pending ++ t) rest cuts) : Reads pending (t ++ rest) cuts := by
  induction hn : t.length using Nat.strongRecOn generalizing t pending with
  | _ n ih =>
    by_cases ht : t = []
    · subst ht
      rwa [List.append_nil] at h
    · obtain ⟨hhead, htail⟩ := plain_append hrest ht
      have hsplit := plainHead_append_plainTail t
      refine .plain (by simp [ht]) (pieces?_text hrest ht ho) ?_
      rw [hhead, htail]
      refine ih (plainTail t).length ?_ ?_ ?_ rfl
      · obtain ⟨c, t, rfl⟩ := List.exists_cons_of_ne_nil ht
        have hle : (t.dropWhile (· ≠ '<')).length ≤ t.length := (List.dropWhile_sublist _).length_le
        rw [← hn, plainTail, List.length_cons]
        omega
      · exact fun opener hm hi => ho opener hm (hi.trans (List.IsSuffix.isInfix ⟨_, hsplit⟩))
      · rwa [List.append_assoc, hsplit]

end Cut

section Apart

variable {α β : Type}

/-- No two neighbours of a list have a property. -/
def areApart (p : α → Bool) : List α → Bool
  | first :: second :: rest => !(p first && p second) && areApart p (second :: rest)
  | _ => true

/-- The first two of a list may not both have the property. -/
theorem areApart_cons {p : α → Bool} {a : α} {rest : List α} :
    areApart p (a :: rest) = true ↔
      (p a = true → ∀ b ∈ rest.head?, p b = false) ∧ areApart p rest = true := by
  cases rest with
  | nil => simp [areApart]
  | cons b rest => cases ha : p a <;> simp [areApart, ha]

/-- An entry without the property keeps two lists apart. -/
theorem areApart_append_cons {p : α → Bool} {b : α} {l r : List α} (hb : p b = false)
    (hl : areApart p l = true) (hr : areApart p r = true) : areApart p (l ++ b :: r) = true := by
  induction l with
  | nil => exact areApart_cons.mpr ⟨fun h => absurd h (by simp [hb]), hr⟩
  | cons a l ih =>
    obtain ⟨hnext, hrest⟩ := areApart_cons.mp hl
    refine areApart_cons.mpr ⟨fun ha => ?_, ih hrest⟩
    cases l with
    | nil => simpa using hb
    | cons c l => exact hnext ha

/-- Neighbours may be told apart by what they are mapped to. -/
theorem areApart_map {p : β → Bool} {q : α → Bool} {f : α → β} (h : ∀ a, p (f a) = q a)
    (l : List α) : areApart p (l.map f) = areApart q l := by
  induction l with
  | nil => rfl
  | cons a l ih =>
    cases l with
    | nil => rfl
    | cons b l =>
      rw [List.map_cons] at ih
      rw [List.map_cons, List.map_cons, areApart, areApart, h, h, ih]

end Apart

namespace Construct

/-- The text of a list of constructs. -/
def printAll (constructs : List Construct) : Text := constructs.flatMap print

/-- A written construct that is not plain text begins with the first character of an opener. -/
theorem print_eq_cons {c : Construct} (ht : c.isText = false) : ∃ more, c.print = '<' :: more := by
  cases c with
  | text t => cases ht
  | _ => exact ⟨_, rfl⟩

/-- Written constructs are cut into just these constructs, behind the text collected before. -/
theorem reads_printAll {constructs : List Construct} (hv : ∀ c ∈ constructs, c.Valid)
    (hs : areApart isText constructs = true) {pending : Text}
    (hp : pending = [] ∨ ∀ c ∈ constructs.head?, c.isText = false) :
    ∃ cuts, Cut.Reads pending (printAll constructs) cuts ∧
      cuts.map Cut.event =
        (Cut.passage pending).map Cut.event ++ constructs.flatMap events := by
  induction constructs generalizing pending with
  | nil => exact ⟨Cut.passage pending, .done pending, by simp⟩
  | cons c constructs ih =>
    rw [List.forall_mem_cons] at hv
    obtain ⟨hnext, hs'⟩ := areApart_cons.mp hs
    cases ht : c.isText with
    | true =>
      cases c with
      | text t =>
        have hnil : pending = [] := hp.resolve_right fun h => by simpa [isText] using h _ rfl
        replace hnext := hnext rfl
        have hrest : printAll constructs = [] ∨ ∃ more, printAll constructs = '<' :: more := by
          cases constructs with
          | nil => exact Or.inl rfl
          | cons next rest =>
            obtain ⟨more, hmore⟩ := print_eq_cons (hnext next rfl)
            refine Or.inr ⟨more ++ printAll rest, ?_⟩
            rw [printAll, List.flatMap_cons, hmore]
            rfl
        have hpassage : Cut.passage t = [⟨.plainText, .empty, [], t, []⟩] := if_neg hv.1.1
        obtain ⟨cuts, hreads, hevents⟩ : ∃ cuts, Cut.Reads t (printAll constructs) cuts ∧
            cuts.map Cut.event = (Cut.passage t).map Cut.event ++ constructs.flatMap events :=
          ih hv.2 hs' (Or.inr hnext)
        subst hnil
        refine ⟨cuts, .text hrest hv.1.2 hreads, ?_⟩
        rw [hevents, hpassage]
        rfl
      | _ => cases ht
    | false =>
      obtain ⟨cuts, hreads, hevents⟩ := ih hv.2 hs' (Or.inl rfl)
      refine ⟨_, .pieces (pieces?_print hv.1 ht) hreads, ?_⟩
      rw [List.map_append, List.map_append, hevents, map_event_cuts, List.flatMap_cons,
        List.append_assoc]
      rfl

/-- A template that is written as a list of constructs is scanned as just these constructs, whatever
blanks and quotes are chosen. -/
theorem events_of_printAll (constructs : List Construct) (hv : ∀ c ∈ constructs, c.Valid)
    (hs : areApart isText constructs = true) (hcr : '\r' ∉ printAll constructs) (disk : Disk)
    (crossing : Bool) (name : Text) (canonical? : Option Text) (baseDir : Text)
    (encoding : Encoding) :
    ∃ scan, (Scan.start ((Input.empty crossing).push name (printAll constructs) canonical? baseDir
        encoding) []).run (.recorder false) disk = .ok scan ∧
      scan.state.map Element.event = constructs.flatMap events := by
  obtain ⟨cuts, hreads, hevents⟩ := reads_printAll hv hs (Or.inl rfl)
  rw [← Text.unifyBreaks_eq_self hcr] at hreads
  obtain ⟨scan, hrun, hscan⟩ :=
    Scan.events_of_reads hreads disk crossing name canonical? baseDir encoding
  exact ⟨scan, hrun, hscan.trans hevents⟩

/-- Delimiters side by side, bodies that nearly hold their delimiters, and values full of quotes. -/
theorem events_of_crowded_page :
    ∃ scan, (Scan.start ((Input.empty true).push "page"
        "<psp:<%---%--%><%-%><%=\ta>%%><%@ include  a='\\'>' b = \"\\\\\" %><% end $%>>"
        none [] .utf8) []).run (.recorder false) .empty = .ok scan ∧
      scan.state.map Element.event =
        [⟨.plainText, "<psp:", .empty⟩, ⟨.comment, "-%", .empty⟩, ⟨.script, "-", .empty⟩,
          ⟨.expression, "a>%", .empty⟩,
          ⟨.directive "include", "<%@ include  a='\\'>' b = \"\\\\\" %>",
            ⟨[("a", "'>"), ("b", "\\")]⟩⟩,
          ⟨.endBlock true, [], .empty⟩, ⟨.plainText, ">", .empty⟩] :=
  events_of_printAll
    [text "<psp:", comment "-%", script "-", expression ⟨"\t", by decide⟩ "a>%",
      directive ⟨" ", by decide⟩ "include" ⟨[
        ⟨"a", "'>", ⟨"  ", by decide⟩, ⟨"", by decide⟩, ⟨"", by decide⟩, true, by decide,
          by decide⟩,
        ⟨"b", "\\", ⟨" ", by decide⟩, ⟨" ", by decide⟩, ⟨" ", by decide⟩, false, by decide,
          by decide⟩],
        ⟨" ", by decide⟩, by decide⟩,
      endBlock ⟨" ", by decide⟩ ⟨" ", by decide⟩ true, text ">"]
    (by decide +kernel) (by decide +kernel) (by decide +kernel) .empty true "page" none [] .utf8

end Construct

end ServerPages
