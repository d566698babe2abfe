import ServerPages.Proofs.Markup.Continuation

/-!
# Templates that go on

A root template may be replaced by another one that has the same text left to read, and perhaps more
behind it. The stack of files is the same apart from that. As long as no opening delimiter lies
across the place where the old text ended, recognition finds the same elements, also such that begin
in an included file and end in the root template. Without more text, it finds the same faults, too.
-/

namespace ServerPages

namespace Recognition

/-- The opening delimiters of elements. -/
def delimiters : List Text :=
  ["<%--", "<%=", "<%@", "<%", "<psp:file>", "<psp:class>", "<psp:method", "<psp:include",
    "<psp:insert"]

end Recognition

/-- A literal is missing where one of its characters is. -/
theorem Text.splitFirst?_eq_none {w t : Text} {c : Char} (hc : c ∈ w) (ht : c ∉ t) :
    splitFirst? w t = none := by
  cases hsplit : splitFirst? w t with
  | none => rfl
  | some found =>
    apply (ht _).elim
    rw [eq_append_of_splitFirst? hsplit]
    exact List.mem_append_left _ (List.mem_append_right _ hc)

theorem suffix_append_right {t u : Text} (h : t <:+ u) (more : Text) : t ++ more <:+ u ++ more := by
  obtain ⟨front, hfront⟩ := h
  exact ⟨front, by rw [← List.append_assoc, hfront]⟩

/-- The closing delimiter of a directive precedes what follows it. -/
theorem Cut.suffix_directive? {t body rest : Text} {c : Cut}
    (h : directive? t body = some (c, rest)) : "%>".toList ++ rest <:+ body := by
  simp only [directive?] at h
  split at h
  · obtain ⟨⟨found, stop⟩, hfound, he⟩ := Option.map_eq_some_iff.mp h
    obtain ⟨-, rfl⟩ := Prod.mk.inj he
    obtain ⟨close, hclose, hstop⟩ := exists_suffix_of_tagRest? hfound
    rw [List.mem_singleton.mp hclose] at hstop
    exact hstop.trans ((List.drop_suffix _ _).trans (AttributeList.suffix_skipSpaces body))
  · cases h

/-- The end of a block is read at the beginning of a text. -/
theorem Cut.suffix_endBlock? {t rest : Text} {c : Cut} (h : endBlock? t = some (c, rest)) :
    rest <:+ t := by
  simp only [endBlock?, Option.bind_eq_some_iff, Option.or_eq_some_iff,
    Option.map_eq_some_iff] at h
  obtain ⟨body, hopen, word, hend, hmark⟩ := h
  have hword : word.skipSpaces <:+ t :=
    (AttributeList.suffix_skipSpaces word).trans ((Text.suffix_of_after? hend).trans
      ((AttributeList.suffix_skipSpaces body).trans (Text.suffix_of_after? hopen)))
  rcases hmark with ⟨stop, hstop, he⟩ | ⟨-, stop, hstop, he⟩
  all_goals
    obtain ⟨-, rfl⟩ := Prod.mk.inj he
    exact (Text.suffix_of_after? hstop).trans hword

/-- What is left of a root template is left of another source, with more text behind it. -/
structure Reading.GoesOn (root : Source) (more : Text) (r : Reading) : Prop where
  /-- The other source ends with it and with the additional text. -/
  suffix : r.unread ++ more <:+ root.content
  /-- No opening delimiter is completed by the additional text. -/
  whole : ∀ t, t <:+ r.unread → t ≠ [] → ∀ d ∈ Recognition.delimiters, d <+: t ++ more → d <+: t
  /-- Both are given as texts, or are the same file. -/
  canonical : root.canonical? = r.source.canonical?
  /-- Both have the same number. -/
  id : root.id = r.source.id

/-- What is left of a file may be left of another source of the same name on disk. -/
theorem Reading.goesOn_nil {root : Source} {r : Reading} (hs : r.unread <:+ root.content)
    (hc : root.canonical? = r.source.canonical?) (hid : root.id = r.source.id) :
    r.GoesOn root [] := by
  refine ⟨?_, ?_, hc, hid⟩
  · rwa [List.append_nil]
  · intro t _ _ d _ hd
    rwa [List.append_nil] at hd

namespace Stack

/-- The files with another source and more text in place of the root template. -/
def extend (root : Source) (more : Text) : Stack → Stack
  | [] => []
  | [r] => [{ r with source := root, unread := r.unread ++ more }]
  | r :: next :: below => r :: extend root more (next :: below)

/-- The files are read from their contents, and the root template goes on in another source. -/
def GoesOn (root : Source) (more : Text) : Stack → Prop
  | [] => False
  | [r] => r.unread <:+ r.source.content ∧ r.GoesOn root more
  | r :: next :: below => r.unread <:+ r.source.content ∧ GoesOn root more (next :: below)

variable {root : Source} {more : Text}

/-- The same number of files is being read. -/
theorem length_extend (s : Stack) : (s.extend root more).length = s.length := by
  fun_induction extend root more s with
  | case1 => rfl
  | case2 => rfl
  | case3 r next below ih => rw [List.length_cons, List.length_cons, ih]

/-- How the innermost file looks before and after: the text behind it, and the files below. -/
structure Local (root : Source) (more : Text) (r : Reading) (below : Stack) (r' : Reading)
    (below' : Stack) (behind : Text) : Prop where
  /-- Wherever reading has arrived in the innermost file. -/
  extend_eq : ∀ t, extend root more ({ r with unread := t } :: below) =
    { r' with unread := t ++ behind } :: below'
  /-- Reading on in the innermost file. -/
  goesOn : ∀ t, t <:+ r.unread → GoesOn root more ({ r with unread := t } :: below)
  /-- The text that is left is the end of the file. -/
  suffix : r.unread <:+ r.source.content
  /-- The text that is left afterwards is the end of the file. -/
  suffix' : r.unread ++ behind <:+ r'.source.content
  /-- No opening delimiter is completed by the text behind. -/
  whole : r.unread ≠ [] → ∀ d ∈ Recognition.delimiters, d <+: r.unread ++ behind → d <+: r.unread
  /-- There is text behind the root template only. -/
  behind_eq : behind = [] ∨ behind = more ∧ below = []

theorem Local.behind_eq_nil {r r' : Reading} {below below' : Stack} {behind : Text}
    (h : Local root more r below r' below' behind) (hm : more = []) : behind = [] := by
  rcases h.behind_eq with hb | ⟨hb, -⟩
  · exact hb
  · exact hb.trans hm

/-- What happens to the innermost file when the root template goes on. -/
theorem exists_local {r : Reading} {below : Stack} (h : GoesOn root more (r :: below)) :
    ∃ r' below' behind, Local root more r below r' below' behind := by
  cases below with
  | nil =>
    obtain ⟨hs, hsuffix, hwhole, hcanonical, hid⟩ := h
    refine ⟨{ r with source := root }, [], more, fun t => rfl, ?_, hs, hsuffix,
      hwhole r.unread (List.suffix_refl _), .inr ⟨rfl, rfl⟩⟩
    rintro t ⟨front, hfront⟩
    refine ⟨List.IsSuffix.trans ⟨front, hfront⟩ hs, ?_, ?_, hcanonical, hid⟩
    · refine List.IsSuffix.trans ⟨front, ?_⟩ hsuffix
      rw [← List.append_assoc, hfront]
    · exact fun u hu => hwhole u (hu.trans ⟨front, hfront⟩)
  | cons next below =>
    obtain ⟨hs, hbelow⟩ := h
    refine ⟨r, extend root more (next :: below), [], ?_, ?_, hs, ?_, ?_, .inl rfl⟩
    · intro t
      rw [List.append_nil]
      rfl
    · exact fun t ht => ⟨ht.trans hs, hbelow⟩
    · rw [List.append_nil]
      exact hs
    · intro _ d _ hd
      rwa [List.append_nil] at hd

/-- There is an innermost file on both sides. -/
theorem exists_extend_cons (root : Source) (more : Text) (r : Reading) (below : Stack) :
    ∃ r' below', extend root more (r :: below) = r' :: below' := by
  cases below with
  | nil => exact ⟨_, _, rfl⟩
  | cons next below => exact ⟨_, _, rfl⟩

theorem extend_ne_nil {s : Stack} (h : s ≠ []) : s.extend root more ≠ [] := by
  rw [← List.length_pos_iff, length_extend]
  exact List.length_pos_iff.mpr h

/-- A literal that is found, and the text up to it. -/
structure Finds (root : Source) (more : Text) (crossing : Bool) (literal : Text)
    (s before after : Stack) : Prop where
  goesOn : GoesOn root more after
  ne_nil : before ≠ []
  length_le : before.length ≤ s.length
  extend_eq : findLiteral crossing literal (s.extend root more) =
    (some (before.extend root more), after.extend root more)
  textTo_eq : textTo (s.extend root more) (before.extend root more) = textTo s before

/-- A literal that is found lies before the additional text. -/
theorem finds_of_findLiteral {crossing : Bool} {literal : Text} (hne : literal ≠ [])
    {s before after : Stack} (h : GoesOn root more s)
    (hf : findLiteral crossing literal s = (some before, after)) :
    Finds root more crossing literal s before after := by
  induction s with
  | nil => exact h.elim
  | cons r below ih =>
    cases hsplit : Text.splitFirst? literal r.unread with
    | some found =>
      obtain ⟨front, rest⟩ := found
      obtain ⟨r', below', behind, hl⟩ := exists_local h
      rw [findLiteral_of_eq_some hsplit] at hf
      obtain ⟨hb, rfl⟩ := Prod.mk.inj hf
      obtain rfl := Option.some.inj hb
      have hread : r.unread = front ++ (literal ++ rest) := by
        rw [Text.eq_append_of_splitFirst? hsplit, List.append_assoc]
      have hsuffix : rest <:+ r.unread := ⟨front ++ literal, by rw [hread, List.append_assoc]⟩
      have hsplit' := Text.splitFirst?_append_of_eq_some hne hsplit behind
      have hextend := hl.extend_eq r.unread
      refine ⟨hl.goesOn rest hsuffix, List.cons_ne_nil _ _, Nat.le_refl _, ?_, ?_⟩
      · rw [hextend, hl.extend_eq, hl.extend_eq, List.append_assoc]
        exact findLiteral_of_eq_some hsplit' crossing below'
      · have htext := textTo_cons (hread ▸ hl.suffix) below
        have htext' := textTo_cons (r := r') (t := front) (u := literal ++ rest ++ behind) (by
          rw [← List.append_assoc, ← hread]
          exact hl.suffix') below'
        rw [← List.append_assoc, ← hread] at htext'
        rw [hextend, hl.extend_eq, htext', ← htext, ← hread]
    | none =>
      cases below with
      | nil => simp only [findLiteral, hsplit, Prod.mk.injEq, reduceCtorEq, false_and] at hf
      | cons next below =>
        rw [findLiteral_of_eq_none hsplit] at hf
        cases crossing with
        | false => cases hf
        | true =>
          obtain ⟨hgoesOn, hnil, hle, hextend, htext⟩ := ih h.2 hf
          refine ⟨hgoesOn, hnil, Nat.le_succ_of_le hle, ?_, ?_⟩
          · obtain ⟨next', below', hcons⟩ := exists_extend_cons root more next below
            rw [extend, hcons, findLiteral_of_eq_none hsplit, ← hcons]
            exact hextend
          · rw [extend, textTo_cons_of_length_le (extend_ne_nil hnil), htext,
              textTo_cons_of_length_le hnil hle]
            rwa [length_extend, length_extend]

/-- Without additional text, a literal that is missed is missed again. -/
theorem findLiteral_extend_eq_none (root : Source) (hm : more = []) {crossing : Bool}
    {literal : Text} {s : Stack}
    (hf : (findLiteral crossing literal s).1 = none) :
    (findLiteral crossing literal (s.extend root more)).1 = none := by
  fun_induction findLiteral crossing literal s with
  | case1 => exact hf
  | case2 r front rest hsplit => cases hf
  | case3 r hsplit =>
    rw [← List.append_nil r.unread, ← hm] at hsplit
    simp only [extend, findLiteral, hsplit]
  | case4 r next below front rest hsplit => cases hf
  | case5 r next below hsplit hx ih =>
    obtain ⟨next', below', hcons⟩ := exists_extend_cons root more next below
    rw [extend, hcons, findLiteral_of_eq_none hsplit, ← hcons, if_pos hx]
    exact ih hf
  | case6 r next below hsplit hx =>
    obtain ⟨next', below', hcons⟩ := exists_extend_cons root more next below
    rw [extend, hcons, findLiteral_of_eq_none hsplit, if_neg hx]

end Stack

namespace Recognition

variable {root : Source} {more : Text}

/-- What recognition finds before and after. With more text, a fault may vanish. -/
def Agrees (root : Source) (more : Text) (x y : Except Failure (Element × Stack)) : Prop :=
  match x with
  | .ok (e, s) =>
    s.GoesOn root more ∧ ∃ e', y = .ok (e', s.extend root more) ∧ e'.event = e.event
  | .error failure => more = [] → ∃ failure', y = .error failure' ∧ failure'.fault = failure.fault

/-- The fault of a tag that is malformed. -/
def tagFault (body : Text) (closes : List Text) : Fault :=
  match AttributeList.read body with
  | (.error fault, _) => fault
  | (.ok _, _) => .unclosed (closes.getLast?.getD [])

/-- A tag that is not closed lacks the last of the delimiters that may close it. -/
theorem fault_of_closeTag {start s : Stack} {closes : List Text} {failure : Failure}
    (h : closeTag start s closes = .error failure) :
    failure.fault = .unclosed (closes.getLast?.getD []) := by
  induction closes with
  | nil => cases h
  | cons close others ih =>
    cases others with
    | nil =>
      rw [closeTag] at h
      split at h <;> cases h
      rfl
    | cons next others =>
      rw [closeTag] at h
      split at h
      · cases h
      · rw [ih h, List.getLast?_cons_cons]
      · exact List.cons_ne_nil next others

/-- The fault of a tag depends on its text only. -/
theorem fault_of_tagRest {start body : Stack} {closes : List Text} {failure : Failure}
    (h : tagRest start body closes = .error failure) :
    failure.fault = tagFault body.unread closes := by
  unfold tagRest readAttributes at h
  rw [tagFault]
  cases hread : AttributeList.read body.unread with
  | mk result rest =>
    rw [hread] at h
    cases result with
    | error fault =>
      cases h
      rfl
    | ok found =>
      dsimp only at h ⊢
      split at h
      · cases h
      · rename_i hclose
        cases h
        exact fault_of_closeTag hclose

/-- The fault of a directive that is malformed. -/
def directiveFault (body : Text) : Fault :=
  let name := body.skipSpaces.takeWhile Char.isAlphanum
  if directiveNames.contains name then tagFault (body.skipSpaces.drop name.length) ["%>"]
  else .unknownDirective name

/-- The fault of a directive depends on its text only. -/
theorem fault_of_directive {start below : Stack} {r : Reading} {failure : Failure}
    (h : directive start (r :: below) = .error failure) :
    failure.fault = directiveFault r.unread := by
  simp only [directive] at h
  rw [directiveFault]
  split at h
  · rename_i hname
    split at h
    · cases h
    · rename_i htag
      cases h
      exact (fault_of_tagRest htag).trans (if_pos hname).symm
  · rename_i hname
    cases h
    exact (if_neg hname).symm

/-- Every element that runs up to a closing delimiter is made in the same way. -/
theorem agrees_skipUntil {crossing : Bool} {close : Text} (hne : close ≠ []) {s : Stack}
    (h : s.GoesOn root more) (kind : ElementKind) (attributes : Attributes) :
    Agrees root more
      (match s.skipUntil crossing close with
      | (.ok stop, rest) => .ok (⟨kind, s.textTo stop, attributes, s, stop⟩, rest)
      | (.error failure, _) => .error failure)
      (match (s.extend root more).skipUntil crossing close with
      | (.ok stop, rest) => .ok (⟨kind, (s.extend root more).textTo stop, attributes,
          s.extend root more, stop⟩, rest)
      | (.error failure, _) => .error failure) := by
  rw [Stack.skipUntil, Stack.skipUntil]
  cases hf : Stack.findLiteral crossing close s with
  | mk before? after =>
    cases before? with
    | some before =>
      obtain ⟨hgoesOn, -, -, hextend, htext⟩ := Stack.finds_of_findLiteral hne h hf
      rw [hextend]
      refine ⟨hgoesOn, _, rfl, ?_⟩
      rw [Element.event, Element.event, htext]
    | none =>
      intro hm
      have hnone := Stack.findLiteral_extend_eq_none root hm (congrArg Prod.fst hf)
      cases hf' : Stack.findLiteral crossing close (s.extend root more) with
      | mk before? after' =>
        rw [hf'] at hnone
        cases hnone
        exact ⟨_, rfl, rfl⟩

/-- An element up to a closing delimiter is recognized on both sides. -/
theorem agrees_enclosed {crossing : Bool} {close : Text} (hne : close ≠ []) {body : Stack}
    (h : body.GoesOn root more) (kind : ElementKind) :
    Agrees root more (enclosed crossing kind close body)
      (enclosed crossing kind close (body.extend root more)) :=
  agrees_skipUntil hne h kind .empty

/-- The body of a method that begins where its head ends. -/
theorem agrees_methodBody (crossing : Bool) {s : Stack} (h : s.GoesOn root more)
    {head head' : Element} (hs : head.stop = s) (hs' : head'.stop = s.extend root more)
    (ha : head'.attributes = head.attributes) :
    Agrees root more (methodBody crossing head s)
      (methodBody crossing head' (s.extend root more)) := by
  rw [methodBody, methodBody, hs, hs', ha]
  exact agrees_skipUntil (by decide) h .methodBody head.attributes

section Tags

variable {r r' : Reading} {below below' : Stack} {behind : Text}
  (hl : Stack.Local root more r below r' below' behind)

include hl

/-- An element that is cut from the innermost file alone. -/
theorem agrees_of_cut {x y : Except Failure (Element × Stack)}
    {found? found?' : Option (Cut × Text)}
    (hx : x.toOption = found?.map (Cut.placed r below))
    (hy : y.toOption = found?'.map (Cut.placed { r' with unread := r.unread ++ behind } below'))
    (hsome : ∀ c rest, found? = some (c, rest) →
      rest <:+ r.unread ∧ found?' = some (c, rest ++ behind))
    (hnil : behind = [] → found?' = found?)
    (hfault : more = [] → ∀ f f', x = .error f → y = .error f' → f'.fault = f.fault) :
    Agrees root more x y := by
  cases x with
  | ok found =>
    obtain ⟨⟨c, rest⟩, hc, he⟩ := Option.map_eq_some_iff.mp hx.symm
    subst he
    obtain ⟨hrest, hc'⟩ := hsome c rest hc
    rw [hc'] at hy
    refine ⟨hl.goesOn rest hrest, c.element { r' with unread := r.unread ++ behind } below'
      (rest ++ behind), ?_, rfl⟩
    rw [hl.extend_eq]
    cases y with
    | error failure => cases hy
    | ok found => exact congrArg Except.ok (Option.some.inj hy)
  | error failure =>
    intro hm
    have hnone : found? = none := by
      rw [← Option.map_eq_none_iff, ← hx]
      rfl
    rw [hnil (hl.behind_eq_nil hm), hnone] at hy
    cases y with
    | ok found => cases hy
    | error failure' => exact ⟨failure', rfl, hfault hm failure failure' rfl rfl⟩

/-- A directive is recognized on both sides. -/
theorem agrees_directive {body : Text} (hb : body <:+ r.unread) :
    Agrees root more (directive (r :: below) ({ r with unread := body } :: below))
      (directive ({ r' with unread := r.unread ++ behind } :: below')
        ({ r' with unread := body ++ behind } :: below')) := by
  refine agrees_of_cut hl (Cut.toOption_directive hb hl.suffix)
    (Cut.toOption_directive (suffix_append_right hb behind) hl.suffix') ?_ ?_ ?_
  · intro c rest hc
    have hsuffix := (List.suffix_append _ _).trans (Cut.suffix_directive? hc)
    exact ⟨hsuffix.trans hb, Cut.directive?_append hc behind⟩
  · rintro rfl
    rw [List.append_nil, List.append_nil]
  · intro hm f f' hf hf'
    rw [fault_of_directive hf, fault_of_directive hf', hl.behind_eq_nil hm, List.append_nil]

/-- A tag that is made from its attributes. -/
theorem agrees_tag (kind : ElementKind) {closes : List Text} {body : Text}
    {x y : Except Failure (Element × Stack)}
    (hc : closes.Pairwise fun a b => a.head? ≠ b.head?) (hne : ∀ close ∈ closes, close ≠ [])
    (hb : body <:+ r.unread)
    (hx : x.toOption = ((Cut.tagRest? body closes).map (Cut.tag kind r.unread)).map
      (Cut.placed r below))
    (hy : y.toOption = ((Cut.tagRest? (body ++ behind) closes).map
      (Cut.tag kind (r.unread ++ behind))).map
        (Cut.placed { r' with unread := r.unread ++ behind } below'))
    (hfx : ∀ f, x = .error f → f.fault = tagFault body closes)
    (hfy : ∀ f, y = .error f → f.fault = tagFault (body ++ behind) closes) :
    Agrees root more x y := by
  refine agrees_of_cut hl hx hy ?_ ?_ ?_
  · intro c rest hcut
    obtain ⟨⟨found, stop⟩, hfound, he⟩ := Option.map_eq_some_iff.mp hcut
    obtain ⟨rfl, rfl⟩ := Prod.mk.inj he
    refine ⟨(Cut.suffix_tagRest? hfound).trans hb, ?_⟩
    rw [Cut.tagRest?_append hc hne hfound, Option.map_some, Cut.tag_append_right]
    rfl
  · rintro rfl
    rw [List.append_nil, List.append_nil]
  · intro hm f f' hf hf'
    rw [hfx f hf, hfy f' hf', hl.behind_eq_nil hm, List.append_nil]

/-- The head of a method is recognized on both sides. -/
theorem agrees_methodHead {body : Text} (hb : body <:+ r.unread) :
    Agrees root more (methodHead (r :: below) ({ r with unread := body } :: below))
      (methodHead ({ r' with unread := r.unread ++ behind } :: below')
        ({ r' with unread := body ++ behind } :: below')) := by
  have hfault : ∀ {start body : Stack} {f : Failure}, methodHead start body = .error f →
      f.fault = tagFault body.unread [">"] := by
    intro start body f hf
    unfold methodHead at hf
    split at hf <;> cases hf
    exact fault_of_tagRest (by assumption)
  exact agrees_tag hl .methodHead (by simp) (by decide) hb (Cut.toOption_methodHead hb hl.suffix)
    (Cut.toOption_methodHead (suffix_append_right hb behind) hl.suffix') (fun f => hfault)
    fun f => hfault

/-- A tag without a body is recognized on both sides. -/
theorem agrees_emptyTag {kind : ElementKind} (hk : kind.holdsText = false) {body : Text}
    (hb : body <:+ r.unread) :
    Agrees root more (emptyTag kind (r :: below) ({ r with unread := body } :: below))
      (emptyTag kind ({ r' with unread := r.unread ++ behind } :: below')
        ({ r' with unread := body ++ behind } :: below')) := by
  have hfault : ∀ {start below : Stack} {r : Reading} {f : Failure},
      emptyTag kind start (r :: below) = .error f → f.fault = tagFault r.unread ["/>", ">"] := by
    intro start below r f hf
    unfold emptyTag at hf
    split at hf <;> cases hf
    rename_i htag
    refine (fault_of_tagRest htag).trans ?_
    rw [tagFault, tagFault, ← AttributeList.read_skipSpaces r.unread]
    rfl
  have hspaces : ∀ t : Text,
      Cut.tagRest? t.skipSpaces ["/>", ">"] = Cut.tagRest? t ["/>", ">"] := by
    intro t
    rw [Cut.tagRest?, Cut.tagRest?, AttributeList.read_skipSpaces]
  refine agrees_tag hl kind (by decide) (by decide) hb ?_ ?_ (fun f => hfault) fun f => hfault
  · rw [← hspaces]
    exact Cut.toOption_emptyTag hb hl.suffix hk
  · rw [← hspaces]
    exact Cut.toOption_emptyTag (suffix_append_right hb behind) hl.suffix' hk

/-- An opening delimiter is found on both sides or on neither. -/
theorem rel_accept? (hu : r.unread ≠ []) (literal : Text) (hd : literal ∈ delimiters)
    {f g : Stack → Except Failure (Element × Stack)}
    (h : ∀ t, t <:+ r.unread → Agrees root more (f ({ r with unread := t } :: below))
      (g ({ r' with unread := t ++ behind } :: below'))) :
    Option.Rel (Agrees root more) ((Stack.accept? literal (r :: below)).map f)
      ((Stack.accept? literal ({ r' with unread := r.unread ++ behind } :: below')).map g) := by
  rw [Stack.accept?, Stack.accept?]
  cases ha : Text.after? literal r.unread with
  | some t =>
    rw [Text.after?_append_of_eq_some ha]
    exact .some (h t (Text.suffix_of_after? ha))
  | none =>
    have hnone : Text.after? literal (r.unread ++ behind) = none := by
      rw [Text.after?_eq_none_iff] at ha ⊢
      exact fun hp => ha (hl.whole hu literal hd hp)
    rw [hnone]
    exact .none

/-- An element up to a closing delimiter is recognized on both sides from any place in the innermost
file. -/
theorem agrees_enclosed_cons (crossing : Bool) (kind : ElementKind) (close : Text)
    (hne : close ≠ []) {t : Text} (ht : t <:+ r.unread) :
    Agrees root more (enclosed crossing kind close ({ r with unread := t } :: below))
      (enclosed crossing kind close ({ r' with unread := t ++ behind } :: below')) := by
  rw [← hl.extend_eq]
  exact agrees_enclosed hne (hl.goesOn t ht) kind

/-- Where the closing delimiter is missing in the root template, additional text may supply it. -/
theorem agrees_of_missing {crossing : Bool} (kind : ElementKind) {close t : Text}
    (ht : Text.splitFirst? close t = none) (hb : behind ≠ [])
    (y : Except Failure (Element × Stack)) :
    Agrees root more (enclosed crossing kind close ({ r with unread := t } :: below)) y := by
  rcases hl.behind_eq with hnil | ⟨hmore, rfl⟩
  · exact absurd hnil hb
  · rw [enclosed, Stack.skipUntil, Stack.findLiteral_cons (.inr rfl), ht]
    exact fun hm => absurd (hmore.trans hm) hb

/-- An expression is recognized on both sides, wherever its code begins. -/
theorem agrees_expression {crossing : Bool} {t : Text} (ht : t <:+ r.unread) :
    Agrees root more
      (enclosed crossing .expression "%>" (Stack.skipSpaces ({ r with unread := t } :: below)))
      (enclosed crossing .expression "%>"
        (Stack.skipSpaces ({ r' with unread := t ++ behind } :: below'))) := by
  have hsuffix := (AttributeList.suffix_skipSpaces t).trans ht
  by_cases hs : t.skipSpaces ≠ [] ∨ behind = []
  · have hskip : (t ++ behind).skipSpaces = t.skipSpaces ++ behind := by
      rcases hs with hs | rfl
      · exact Text.skipSpaces_append_of_ne_nil hs behind
      · rw [List.append_nil, List.append_nil]
    have h := agrees_enclosed_cons hl crossing .expression "%>" (by decide) hsuffix
    rw [← hskip] at h
    exact h
  · have hnil : t.skipSpaces = [] := by
      apply Classical.byContradiction
      exact fun hne => hs (.inl hne)
    refine agrees_of_missing hl .expression ?_ (fun hb => hs (.inr hb)) _
    rw [Stack.unread, hnil]
    rfl

/-- The end of a block and a script begin alike. A script that is not closed in the root template
may be the end of a block when there is more text. -/
theorem rel_endBlock_or_script (hu : r.unread ≠ []) (crossing : Bool) :
    Option.Rel (Agrees root more)
      (((endBlock? (r :: below)).map .ok).or
        ((Stack.accept? "<%" (r :: below)).map (enclosed crossing .script "%>")))
      (((endBlock? ({ r' with unread := r.unread ++ behind } :: below')).map .ok).or
        ((Stack.accept? "<%" ({ r' with unread := r.unread ++ behind } :: below')).map
          (enclosed crossing .script "%>"))) := by
  have hscript := rel_accept? hl hu "<%" (by decide) fun t ht =>
    agrees_enclosed_cons hl crossing .script "%>" (by decide) ht
  rw [Cut.endBlock?_cons hl.suffix, Cut.endBlock?_cons hl.suffix']
  cases he : Cut.endBlock? r.unread with
  | some found =>
    obtain ⟨c, rest⟩ := found
    have he' := Cut.endBlock?_append he behind
    rw [he']
    refine .some ⟨hl.goesOn rest (Cut.suffix_endBlock? he),
      c.element { r' with unread := r.unread ++ behind } below' (rest ++ behind), ?_, rfl⟩
    rw [hl.extend_eq]
    rfl
  | none =>
    by_cases hclosed : ∃ body, Text.after? "<%" r.unread = some body ∧ '>' ∉ body ∧ behind ≠ []
    · obtain ⟨body, hopen, hgt, hb⟩ := hclosed
      have hmissing := Text.splitFirst?_eq_none (w := "%>") (by decide) hgt
      rw [Stack.accept?, Stack.accept?, hopen, Text.after?_append_of_eq_some hopen]
      cases Cut.endBlock? (r.unread ++ behind) with
      | none => exact .some (agrees_of_missing hl .script hmissing hb _)
      | some found => exact .some (agrees_of_missing hl .script hmissing hb _)
    · have he' : Cut.endBlock? (r.unread ++ behind) = none := by
        cases hopen : Text.after? "<%" r.unread with
        | none =>
          rw [Text.after?_eq_none_iff] at hopen
          have hnone : Text.after? "<%" (r.unread ++ behind) = none := by
            rw [Text.after?_eq_none_iff]
            exact fun hp => hopen (hl.whole hu _ (by decide) hp)
          rw [Cut.endBlock?, hnone]
          rfl
        | some body =>
          by_cases hb : behind = []
          · rw [hb, List.append_nil, he]
          · refine Cut.endBlock?_append_eq_none hopen ?_ he behind
            apply Classical.byContradiction
            exact fun hgt => hclosed ⟨body, hopen, hgt, hb⟩
      rw [he']
      exact hscript

end Tags

/-- The first alternative that fits decides. -/
theorem rel_or {α β : Type} {rel : α → β → Prop} {a c : Option α} {b d : Option β}
    (h : Option.Rel rel a b) (h' : Option.Rel rel c d) : Option.Rel rel (a.or c) (b.or d) := by
  cases h with
  | none => exact h'
  | some hab => exact .some hab

/-- Two neighbouring alternatives may be taken together. -/
theorem rel_or_or {α β : Type} {rel : α → β → Prop} {a c e : Option α} {b d f : Option β}
    (h : Option.Rel rel a b) (h' : Option.Rel rel (c.or e) (d.or f)) :
    Option.Rel rel ((a.or c).or e) ((b.or d).or f) := by
  rw [Option.or_assoc, Option.or_assoc]
  exact rel_or h h'

/-- Recognition finds the same element. -/
theorem rel_element? (crossing : Bool) {s : Stack} (h : s.GoesOn root more) (hu : s.unread ≠ []) :
    Option.Rel (Agrees root more) (element? crossing s)
      (element? crossing (s.extend root more)) := by
  cases s with
  | nil => exact h.elim
  | cons r below =>
    obtain ⟨r', below', behind, hl⟩ := Stack.exists_local h
    have hextend : Stack.extend root more (r :: below) = _ := hl.extend_eq r.unread
    have henclosed := agrees_enclosed_cons hl crossing
    rw [hextend, element?, element?]
    refine rel_or (rel_or (rel_or (rel_or (rel_or (rel_or_or (rel_or (rel_or ?comment ?expression)
      ?directive) ?code) ?moduleCode) ?classCode) ?method) ?urlInclude) ?fileInsert
    case comment =>
      exact rel_accept? hl hu _ (by decide) fun t => henclosed .comment "--%>" (by decide)
    case expression =>
      exact rel_accept? hl hu _ (by decide) fun t => agrees_expression hl
    case directive =>
      exact rel_accept? hl hu _ (by decide) fun t => agrees_directive hl
    case code => exact rel_endBlock_or_script hl hu crossing
    case moduleCode =>
      exact rel_accept? hl hu _ (by decide) fun t => henclosed .moduleCode "</psp:file>" (by decide)
    case classCode =>
      exact rel_accept? hl hu _ (by decide) fun t => henclosed .classCode "</psp:class>" (by decide)
    case method => exact rel_accept? hl hu _ (by decide) fun t => agrees_methodHead hl
    case urlInclude => exact rel_accept? hl hu _ (by decide) fun t => agrees_emptyTag hl rfl
    case fileInsert => exact rel_accept? hl hu _ (by decide) fun t => agrees_emptyTag hl rfl

end Recognition

end ServerPages
