import ServerPages.Markup.Recognition
import ServerPages.Proofs.Input.Stack
import ServerPages.Proofs.Markup.AttributeList

/-!
# Elements cut from a text

As long as elements do not cross the ends of files, recognition looks at the unread text of the
innermost file and at nothing else. What it finds there is a cut: an opening part, the text between
the two places that the element keeps, and a closing part. The cuts of a text do not depend on the
file that holds it or on the files below, and together with the rest they make up the text.
-/

namespace ServerPages

/-- An element as it stands in a text. -/
structure Cut where
  /-- The kind of the element. -/
  kind : ElementKind
  /-- Its attributes. -/
  attributes : Attributes
  /-- What is read before the place where the element starts. -/
  opening : Text
  /-- What lies between the places where the element starts and stops. -/
  body : Text
  /-- What is read after the place where the element stops. -/
  closing : Text
  deriving DecidableEq, Repr

/-- What an element says, wherever it stands. -/
structure Event where
  /-- The kind of the element. -/
  kind : ElementKind
  /-- Its text. -/
  text : Text
  /-- Its attributes. -/
  attributes : Attributes
  deriving DecidableEq, Repr

/-- What an element says. -/
def Element.event (e : Element) : Event := ⟨e.kind, e.text, e.attributes⟩

/-- The file that an include directive asks for. -/
def Event.inclusion? (e : Event) : Option Inclusion :=
  if e.kind = .directive "include" then
    (e.attributes.get? "file").map fun path => ⟨path, e.attributes.get? "encoding"⟩
  else none

/-- Whether the elements of a kind hold the text between their two places. -/
def ElementKind.holdsText : ElementKind → Bool
  | .endBlock _ | .urlInclude | .fileInsert => false
  | _ => true

namespace Cut

/-- All that is read for a cut. -/
def whole (c : Cut) : Text := c.opening ++ c.body ++ c.closing

/-- What the element of a cut says. -/
def event (c : Cut) : Event := ⟨c.kind, if c.kind.holdsText then c.body else [], c.attributes⟩

/-- The element of a cut in a file, with some text left behind it. -/
def element (c : Cut) (r : Reading) (below : Stack) (rest : Text) : Element :=
  { kind := c.kind
    text := if c.kind.holdsText then c.body else []
    attributes := c.attributes
    start := { r with unread := c.body ++ c.closing ++ rest } :: below
    stop := { r with unread := c.closing ++ rest } :: below }

@[simp] theorem event_element (c : Cut) (r : Reading) (below : Stack) (rest : Text) :
    (c.element r below rest).event = c.event := rfl

@[simp] theorem kind_element (c : Cut) (r : Reading) (below : Stack) (rest : Text) :
    (c.element r below rest).kind = c.kind := rfl

/-- An element that runs up to a closing delimiter, after its opening part. -/
def enclosed? (kind : ElementKind) (attributes : Attributes) (opening close t : Text) :
    Option (Cut × Text) :=
  (Text.splitFirst? close t).map fun (body, rest) =>
    (⟨kind, attributes, opening, body, close⟩, rest)

/-- The attributes of a tag and the text after its closing delimiter. -/
def tagRest? (body : Text) (closes : List Text) : Option (Attributes × Text) :=
  match AttributeList.read body with
  | (.ok found, rest) =>
    (closes.findSome? fun close => Text.after? close rest.skipSpaces).map fun stop => (found, stop)
  | (.error _, _) => none

/-- A tag that reaches from the beginning of a text to the text that stops it. -/
def tag (kind : ElementKind) (t : Text) (found : Attributes × Text) : Cut × Text :=
  (⟨kind, found.1, [], t.take (t.length - found.2.length), []⟩, found.2)

/-- A directive after its opening delimiter. -/
def directive? (t body : Text) : Option (Cut × Text) :=
  let name := body.skipSpaces.takeWhile Char.isAlphanum
  if Recognition.directiveNames.contains name then
    (tagRest? (body.skipSpaces.drop name.length) ["%>"]).map (tag (.directive name) t)
  else none

/-- The end of a block. -/
def endBlock? (t : Text) : Option (Cut × Text) :=
  (Text.after? "<%" t).bind fun body =>
    (Text.after? "end" body.skipSpaces).bind fun rest =>
      ((Text.after? "%>" rest.skipSpaces).map fun stop => tag (.endBlock false) t (.empty, stop)).or
        ((Text.after? "$%>" rest.skipSpaces).map fun stop => tag (.endBlock true) t (.empty, stop))

/-- The element with which a text begins and the text after it; nothing inside if the element is
malformed, nothing at all at plain text. -/
def first? (t : Text) : Option (Option (Cut × Text)) :=
  ((Text.after? "<%--" t).map (enclosed? .comment .empty "<%--" "--%>"))
    |>.or ((Text.after? "<%=" t).map fun body =>
      enclosed? .expression .empty ("<%=" ++ body.takeWhile isTagSpace) "%>" body.skipSpaces)
    |>.or ((Text.after? "<%@" t).map (directive? t))
    |>.or ((endBlock? t).map some)
    |>.or ((Text.after? "<%" t).map (enclosed? .script .empty "<%" "%>"))
    |>.or ((Text.after? "<psp:file>" t).map
      (enclosed? .moduleCode .empty "<psp:file>" "</psp:file>"))
    |>.or ((Text.after? "<psp:class>" t).map
      (enclosed? .classCode .empty "<psp:class>" "</psp:class>"))
    |>.or ((Text.after? "<psp:method" t).map fun body =>
      (tagRest? body [">"]).map (tag .methodHead t))
    |>.or ((Text.after? "<psp:include" t).map fun body =>
      (tagRest? body.skipSpaces ["/>", ">"]).map (tag .urlInclude t))
    |>.or ((Text.after? "<psp:insert" t).map fun body =>
      (tagRest? body.skipSpaces ["/>", ">"]).map (tag .fileInsert t))

end Cut

namespace Cut

/-- What recognition hands on for a cut: its element, and the stack behind it. -/
def placed (r : Reading) (below : Stack) (found : Cut × Text) : Element × Stack :=
  (found.1.element r below found.2, { r with unread := found.2 } :: below)

/-- The rest of a tag ends with one of its closing delimiters. -/
theorem exists_suffix_of_tagRest? {body stop : Text} {closes : List Text} {found : Attributes}
    (h : tagRest? body closes = some (found, stop)) : ∃ close ∈ closes, close ++ stop <:+ body := by
  have hr := AttributeList.suffix_read body
  unfold tagRest? at h
  split at h
  · rename_i rest he
    obtain ⟨after, hf, hp⟩ := Option.map_eq_some_iff.mp h
    obtain ⟨close, hclose, ha⟩ := List.exists_of_findSome?_eq_some hf
    cases hp
    rw [he] at hr
    rw [Text.after?_eq_some_iff] at ha
    refine ⟨close, hclose, ?_⟩
    rw [← ha]
    exact (AttributeList.suffix_skipSpaces rest).trans hr
  · cases h

/-- A tag is read at the beginning of a text. -/
theorem suffix_tagRest? {body stop : Text} {closes : List Text} {found : Attributes}
    (h : tagRest? body closes = some (found, stop)) : stop <:+ body := by
  obtain ⟨close, -, hclose⟩ := exists_suffix_of_tagRest? h
  exact (List.suffix_append close stop).trans hclose

/-- A tag takes all that precedes the text behind it. -/
@[simp] theorem tag_append (kind : ElementKind) (front stop : Text) (found : Attributes) :
    tag kind (front ++ stop) (found, stop) = (⟨kind, found, [], front, []⟩, stop) := by
  simp [tag]

section Locality

variable {crossing : Bool} {r : Reading} {below : Stack}

/-- Every element that runs up to a closing delimiter is made in the same way. -/
private theorem toOption_skipUntil (hx : crossing = false ∨ below = []) {kind : ElementKind}
    (hk : kind.holdsText = true) (attributes : Attributes) (opening close : Text) {t : Text}
    (ht : t <:+ r.source.content) :
    Except.toOption
      (match Stack.skipUntil crossing close ({ r with unread := t } :: below) with
      | (.ok stop, rest) =>
        .ok ((⟨kind, Stack.textTo ({ r with unread := t } :: below) stop, attributes,
          { r with unread := t } :: below, stop⟩ : Element), rest)
      | (.error failure, _) => (.error failure : Except Failure _)) =
      (enclosed? kind attributes opening close t).map (placed r below) := by
  rw [Stack.skipUntil, Stack.findLiteral_cons hx, enclosed?]
  cases hs : Text.splitFirst? close t with
  | none => simp [Except.toOption]
  | some found =>
    obtain ⟨body, rest⟩ := found
    have he : t = body ++ (close ++ rest) := by
      rw [Text.eq_append_of_splitFirst? hs, List.append_assoc]
    rw [he] at ht ⊢
    have htext := Stack.textTo_cons ht below
    simp only [Except.toOption, htext, Option.map_some, placed, element, hk, if_true,
      List.append_assoc]

/-- An element is enclosed in the file in which it begins. -/
private theorem toOption_enclosed (hx : crossing = false ∨ below = []) {kind : ElementKind}
    (hk : kind.holdsText = true) (opening close : Text) {t : Text}
    (ht : t <:+ r.source.content) :
    (Recognition.enclosed crossing kind close ({ r with unread := t } :: below)).toOption =
      (enclosed? kind .empty opening close t).map (placed r below) :=
  toOption_skipUntil hx hk .empty opening close ht

/-- The body of a method is found behind its head in the same file. -/
theorem methodBody_cons (hx : crossing = false ∨ below = []) {head : Element} {t : Text}
    (hh : head.stop = { r with unread := t } :: below) (ht : t <:+ r.source.content) :
    (Recognition.methodBody crossing head ({ r with unread := t } :: below)).toOption =
      (enclosed? .methodBody head.attributes [] "</psp:method>" t).map (placed r below) := by
  rw [Recognition.methodBody, hh]
  exact toOption_skipUntil hx rfl head.attributes [] _ ht

/-- The element of a tag starts where recognition does. -/
private theorem placed_tag (below : Stack) {stop : Text} (hs : stop <:+ r.unread)
    (kind : ElementKind) (found : Attributes) (hr : r.unread <:+ r.source.content) :
    placed r below (tag kind r.unread (found, stop)) =
      (⟨kind, if kind.holdsText then Stack.textTo (r :: below) ({ r with unread := stop } :: below)
        else [], found, r :: below, { r with unread := stop } :: below⟩,
        { r with unread := stop } :: below) := by
  obtain ⟨front, hf⟩ := hs
  have htext : Stack.textTo (r :: below) ({ r with unread := stop } :: below) = front := by
    have := Stack.textTo_cons (hf ▸ hr : front ++ stop <:+ r.source.content) below
    rwa [hf] at this
  rw [htext, ← hf, tag_append]
  simp [placed, element, hf]

/-- A tag is closed in the file that is being read. -/
private theorem toOption_closeTag (r : Reading) (below start : Stack) {closes : List Text}
    (hc : closes ≠ []) (t : Text) :
    (Recognition.closeTag start ({ r with unread := t } :: below) closes).toOption =
      (closes.findSome? fun close => Text.after? close t).map
        fun stop => { r with unread := stop } :: below := by
  induction closes with
  | nil => exact absurd rfl hc
  | cons close others ih =>
    cases ha : Text.after? close t with
    | some rest => cases others <;> simp [Recognition.closeTag, Stack.accept?, ha, Except.toOption]
    | none =>
      cases others with
      | nil => simp [Recognition.closeTag, Stack.accept?, ha, Except.toOption]
      | cons next others =>
        have := ih (List.cons_ne_nil next others)
        simpa [Recognition.closeTag, Stack.accept?, ha] using this

/-- The rest of a tag is read in the file that is being read. -/
theorem toOption_tagRest (r : Reading) (below start : Stack) {closes : List Text}
    (hc : closes ≠ []) (body : Text) :
    (Recognition.tagRest start ({ r with unread := body } :: below) closes).toOption =
      (tagRest? body closes).map fun (found, stop) =>
        (found, { r with unread := stop } :: below) := by
  rw [Recognition.tagRest, Recognition.readAttributes, tagRest?, Stack.unread]
  cases AttributeList.read body with
  | mk result rest =>
    cases result with
    | error fault => simp [Except.toOption]
    | ok found =>
      have hc := toOption_closeTag r below start hc rest.skipSpaces
      simp only [Stack.setUnread, Stack.skipSpaces, Stack.unread, Option.map_map]
      cases hf : closes.findSome? fun close => Text.after? close rest.skipSpaces <;>
        cases hk : Recognition.closeTag start ({ r with unread := rest.skipSpaces } :: below)
          closes <;>
        simp_all [Except.toOption]

/-- Every kind of tag is made from its attributes in the same way. -/
private theorem toOption_tag (below : Stack) {body : Text} {closes : List Text} (hc : closes ≠ [])
    (hb : body <:+ r.unread) (hr : r.unread <:+ r.source.content) (kind : ElementKind)
    {text : Stack → Text}
    (ht : ∀ stop, text stop = if kind.holdsText then Stack.textTo (r :: below) stop else []) :
    Except.toOption
      (match Recognition.tagRest (r :: below) ({ r with unread := body } :: below) closes with
      | .ok (found, stop) => .ok ((⟨kind, text stop, found, r :: below, stop⟩ : Element), stop)
      | .error failure => (.error failure : Except Failure _)) =
      ((tagRest? body closes).map (tag kind r.unread)).map (placed r below) := by
  have h := toOption_tagRest r below (r :: below) hc body
  cases hf : tagRest? body closes with
  | none =>
    cases hk : Recognition.tagRest (r :: below) ({ r with unread := body } :: below) closes with
    | ok result => simp [hf, hk, Except.toOption] at h
    | error failure => rfl
  | some result =>
    obtain ⟨found, stop⟩ := result
    cases hk : Recognition.tagRest (r :: below) ({ r with unread := body } :: below) closes with
    | error failure => simp [hf, hk, Except.toOption] at h
    | ok result =>
      have hs : stop <:+ r.unread := (suffix_tagRest? hf).trans hb
      obtain rfl : result = (found, { r with unread := stop } :: below) := by
        simpa [hf, hk, Except.toOption] using h
      rw [Option.map_some, Option.map_some, placed_tag below hs kind found hr, ← ht]
      rfl

/-- A directive is recognized in the file that is being read. -/
theorem toOption_directive {body : Text} (hb : body <:+ r.unread)
    (hr : r.unread <:+ r.source.content) :
    (Recognition.directive (r :: below) ({ r with unread := body } :: below)).toOption =
      (directive? r.unread body).map (placed r below) := by
  have hd : body.skipSpaces.drop (body.skipSpaces.takeWhile Char.isAlphanum).length <:+ r.unread :=
    (List.drop_suffix _ _).trans ((AttributeList.suffix_skipSpaces body).trans hb)
  by_cases hn : Recognition.directiveNames.contains
      (body.skipSpaces.takeWhile Char.isAlphanum) = true
  · have hc : directive? r.unread body = (tagRest? _ _).map (tag (.directive _) r.unread) :=
      if_pos hn
    rw [hc, ← toOption_tag below (List.cons_ne_nil _ _) hd hr (.directive _) fun _ => rfl]
    exact congrArg Except.toOption (if_pos hn)
  · have hc : directive? r.unread body = none := if_neg hn
    rw [hc]
    exact congrArg Except.toOption (if_neg hn)

/-- A tag without a body is recognized in the file that is being read. -/
theorem toOption_emptyTag {body : Text} (hb : body <:+ r.unread)
    (hr : r.unread <:+ r.source.content) {kind : ElementKind} (hk : kind.holdsText = false) :
    (Recognition.emptyTag kind (r :: below) ({ r with unread := body } :: below)).toOption =
      ((tagRest? body.skipSpaces ["/>", ">"]).map (tag kind r.unread)).map (placed r below) := by
  have hs := (AttributeList.suffix_skipSpaces body).trans hb
  exact toOption_tag below (List.cons_ne_nil _ _) hs hr kind fun _ => by simp [hk]

/-- The head of a method is recognized in the file that is being read. -/
theorem toOption_methodHead {body : Text} (hb : body <:+ r.unread)
    (hr : r.unread <:+ r.source.content) :
    (Recognition.methodHead (r :: below) ({ r with unread := body } :: below)).toOption =
      ((tagRest? body [">"]).map (tag .methodHead r.unread)).map (placed r below) :=
  toOption_tag below (List.cons_ne_nil _ _) hb hr .methodHead fun _ => rfl

/-- The end of a block is recognized in the file that is being read. -/
theorem endBlock?_cons (hr : r.unread <:+ r.source.content) :
    Recognition.endBlock? (r :: below) = (endBlock? r.unread).map (placed r below) := by
  simp only [Recognition.endBlock?, endBlock?, Stack.accept?]
  cases ho : Text.after? "<%" r.unread with
  | none => simp
  | some body =>
    have hb := (AttributeList.suffix_skipSpaces body).trans (Text.suffix_of_after? ho)
    simp only [Stack.skipSpaces, Stack.setUnread, Stack.unread, Option.map_some, Option.bind_some]
    cases he : Text.after? "end" body.skipSpaces with
    | none => simp
    | some rest =>
      have hs := (AttributeList.suffix_skipSpaces rest).trans ((Text.suffix_of_after? he).trans hb)
      simp only [Option.map_some, Option.bind_some]
      cases hc : Text.after? "%>" rest.skipSpaces with
      | some stop =>
        have ht :=
          placed_tag below ((Text.suffix_of_after? hc).trans hs) (.endBlock false) .empty hr
        simp [ht, ElementKind.holdsText]
      | none =>
        cases hm : Text.after? "$%>" rest.skipSpaces with
        | none => simp
        | some stop =>
          have ht :=
            placed_tag below ((Text.suffix_of_after? hm).trans hs) (.endBlock true) .empty hr
          simp [ht, ElementKind.holdsText]

private theorem or_congr {α : Type} {a b c d : Option α} (h : a = c) (h' : b = d) :
    a.or b = c.or d := by
  rw [h, h']

/-- What follows an opening delimiter is recognized in the file that is being read. -/
private theorem toOption_accept? (literal : Text) {f : Stack → Except Failure (Element × Stack)}
    {g : Text → Option (Cut × Text)}
    (h : ∀ t, t <:+ r.unread →
      (f ({ r with unread := t } :: below)).toOption = (g t).map (placed r below)) :
    ((Stack.accept? literal (r :: below)).map f).map Except.toOption =
      ((Text.after? literal r.unread).map g).map (Option.map (placed r below)) := by
  rw [Stack.accept?]
  cases ha : Text.after? literal r.unread with
  | none => rfl
  | some t => simpa using h t (Text.suffix_of_after? ha)

/-- Recognition finds in the innermost file what its unread text begins with. -/
theorem element?_cons (hx : crossing = false ∨ below = []) (hr : r.unread <:+ r.source.content) :
    (Recognition.element? crossing (r :: below)).map Except.toOption =
      (first? r.unread).map (Option.map (placed r below)) := by
  rw [Recognition.element?, first?]
  simp only [Option.map_or]
  refine or_congr (or_congr (or_congr (or_congr (or_congr (or_congr (or_congr (or_congr
    (or_congr ?comment ?expression) ?directive) ?endBlock) ?script) ?moduleCode) ?classCode)
      ?method) ?urlInclude) ?fileInsert
  case comment =>
    exact toOption_accept? _ fun t ht => toOption_enclosed hx rfl _ _ (ht.trans hr)
  case expression =>
    exact toOption_accept? _ fun t ht =>
      toOption_enclosed hx rfl _ _ ((AttributeList.suffix_skipSpaces t).trans (ht.trans hr))
  case directive => exact toOption_accept? _ fun t ht => toOption_directive ht hr
  case endBlock =>
    rw [endBlock?_cons hr]
    cases endBlock? r.unread <;> rfl
  case script => exact toOption_accept? _ fun t ht => toOption_enclosed hx rfl _ _ (ht.trans hr)
  case moduleCode => exact toOption_accept? _ fun t ht => toOption_enclosed hx rfl _ _ (ht.trans hr)
  case classCode => exact toOption_accept? _ fun t ht => toOption_enclosed hx rfl _ _ (ht.trans hr)
  case method => exact toOption_accept? _ fun t ht => toOption_methodHead ht hr
  case urlInclude => exact toOption_accept? _ fun t ht => toOption_emptyTag ht hr rfl
  case fileInsert => exact toOption_accept? _ fun t ht => toOption_emptyTag ht hr rfl

/-- Where a text begins with no element, none is recognized. -/
theorem element?_of_first?_none (hx : crossing = false ∨ below = [])
    (hr : r.unread <:+ r.source.content) (h : first? r.unread = none) :
    Recognition.element? crossing (r :: below) = none := by
  have he := element?_cons hx hr
  rwa [h, Option.map_none, Option.map_eq_none_iff] at he

/-- Where a text begins with a malformed element, recognition fails. -/
theorem element?_of_first?_malformed (hx : crossing = false ∨ below = [])
    (hr : r.unread <:+ r.source.content) (h : first? r.unread = some none) :
    ∃ failure, Recognition.element? crossing (r :: below) = some (.error failure) := by
  have he := element?_cons hx hr
  rw [h] at he
  obtain ⟨result, hf, ho⟩ := Option.map_eq_some_iff.mp he
  cases result with
  | error failure => exact ⟨failure, hf⟩
  | ok found => cases ho

/-- Where a text begins with an element, it is recognized. -/
theorem element?_of_first?_some (hx : crossing = false ∨ below = [])
    (hr : r.unread <:+ r.source.content) {found : Cut × Text}
    (h : first? r.unread = some (some found)) :
    Recognition.element? crossing (r :: below) = some (.ok (placed r below found)) := by
  have he := element?_cons hx hr
  rw [h] at he
  obtain ⟨result, hf, ho⟩ := Option.map_eq_some_iff.mp he
  cases result with
  | error failure => cases ho
  | ok result => rw [hf, Option.some.inj ho]

end Locality

end Cut

end ServerPages
