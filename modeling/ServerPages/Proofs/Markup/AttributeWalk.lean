import ServerPages.Proofs.Input.Advance
import ServerPages.Proofs.Markup.Continuation

/-!
# Reading an attribute list character by character

An attribute list can be read in small steps on the stack of files. A step looks at the innermost
file and takes characters from the stack, and where the innermost file is used up, taking a
character would take that file off. No step does so: the walk stays in its file and comes to the end
that reading the list as a whole comes to. A step that takes nothing, as at an empty name, is
followed by few others of that kind, so that the walk comes to an end in time.
-/

namespace ServerPages

namespace Stack

variable {s : Stack}

/-- The text that is left is the one that was set. -/
theorem unread_setUnread {t : Text} (h : t <:+ s.unread) : (s.setUnread t).unread = t := by
  cases s with
  | nil => exact (List.suffix_nil.mp h).symm
  | cons r below => rfl

@[simp] theorem setUnread_setUnread (s : Stack) (t u : Text) :
    (s.setUnread t).setUnread u = s.setUnread u := by
  cases s <;> rfl

@[simp] theorem setUnread_unread (s : Stack) : s.setUnread s.unread = s := by
  cases s <;> rfl

@[simp] theorem unread_skipSpaces (s : Stack) : s.skipSpaces.unread = s.unread.skipSpaces :=
  unread_setUnread (AttributeList.suffix_skipSpaces _)

theorem skipSpaces_setUnread {t : Text} (h : t <:+ s.unread) :
    (s.setUnread t).skipSpaces = s.setUnread t.skipSpaces := by
  rw [skipSpaces, unread_setUnread h, setUnread_setUnread]

/-- Where the innermost file has text, a character is taken from it. -/
theorem next?_of_unread {c : Char} {rest : Text} (h : s.unread = c :: rest) :
    s.next? = (some c, s.setUnread rest) := by
  cases s with
  | nil => cases h
  | cons r below => exact next?_cons h below

/-- What was read of an attribute list, at the place where reading stopped. -/
def report (s : Stack) (read : Except Fault Attributes × Text) :
    Except Failure Attributes × Stack :=
  (read.1.mapError (s.setUnread read.2).failure, s.setUnread read.2)

/-- A report depends on the place where reading stopped, not on where it began. -/
theorem report_setUnread (s : Stack) (t : Text) (read : Except Fault Attributes × Text) :
    (s.setUnread t).report read = s.report read := by
  rw [report, setUnread_setUnread]
  rfl

/-- A report of success tells the attributes that were read. -/
theorem of_report_eq_ok {read : Except Fault Attributes × Text} {found : Attributes}
    (h : (s.report read).1 = .ok found) : read.1 = .ok found := by
  obtain ⟨result, rest⟩ := read
  cases result with
  | ok all =>
    cases h
    rfl
  | error fault => cases h

/-- A report of a failure tells the fault. -/
theorem of_report_eq_error {read : Except Fault Attributes × Text} {failure : Failure}
    (h : (s.report read).1 = .error failure) : read.1 = .error failure.fault := by
  obtain ⟨result, rest⟩ := read
  cases result with
  | ok all => cases h
  | error fault =>
    cases h
    rfl

/-- Reading attributes reports what the text of the innermost file holds. -/
theorem readAttributes_eq_report (s : Stack) :
    Recognition.readAttributes s = s.report (AttributeList.read s.unread) := by
  rw [Recognition.readAttributes]
  split <;> rename_i h <;> rw [h] <;> rfl

end Stack

/-- What is being read of an attribute list. -/
inductive AttributePhase where
  /-- The end of the tag, or another attribute. -/
  | between
  /-- A name, of which a part has been read. -/
  | name (token : Text)
  /-- The equals sign. -/
  | equals (name : Text)
  /-- A value. -/
  | value (name : Text)
  /-- A bare value, of which a part has been read. -/
  | bare (name token : Text)
  /-- A value between quotes, of which a part has been read. -/
  | quoted (name : Text) (quote : Char) (token : Text)
  deriving DecidableEq, Repr

/-- An attribute list that is being read. -/
structure AttributeWalk where
  /-- The files. -/
  stack : Stack
  /-- The attributes that have been read. -/
  found : Attributes
  /-- What is being read. -/
  phase : AttributePhase

namespace AttributeWalk

open AttributeList

/-- Where a walk begins. -/
def start (s : Stack) : AttributeWalk := ⟨s, .empty, .between⟩

/-- A fault where the files have been read so far. -/
def fail (s : Stack) (fault : Fault) : (Except Failure Attributes × Stack) ⊕ AttributeWalk :=
  .inl (.error (s.failure fault), s)

/-- Take a character of a bare name or value, if that does not end here. -/
def takeBare (s : Stack) : Option (Char × Stack) :=
  if atDelimiter s.unread then none
  else
    match s.next? with
    | (none, _) => none
    | (some c, rest) =>
      match rest.peek? with
      | some e => if c = '\\' ∧ isBareEscape e then some (e, rest.next?.2) else some (c, rest)
      | none => some (c, rest)

/-- One step. It comes to an end or goes on. -/
def step (w : AttributeWalk) : (Except Failure Attributes × Stack) ⊕ AttributeWalk :=
  match w.phase with
  | .between =>
    let s := w.stack.skipSpaces
    if tagEnds.any s.startsWith then .inl (.ok w.found, s)
    else if s.peek? = none then fail s .unterminatedAttribute
    else .inr ⟨s, w.found, .name []⟩
  | .name token =>
    match takeBare w.stack with
    | some (c, s) => .inr ⟨s, w.found, .name (token ++ [c])⟩
    | none => .inr ⟨w.stack, w.found, .equals token⟩
  | .equals name =>
    let s := w.stack.skipSpaces
    match s.peek? with
    | none => fail s .unterminatedAttribute
    | some c =>
      if c = '=' then .inr ⟨s.next?.2.skipSpaces, w.found, .value name⟩
      else fail s (.missingValue name)
  | .value name =>
    match w.stack.peek? with
    | none => .inr ⟨w.stack, w.found, .bare name []⟩
    | some c =>
      if c = '"' ∨ c = '\'' then .inr ⟨w.stack.next?.2, w.found, .quoted name c []⟩
      else .inr ⟨w.stack, w.found, .bare name []⟩
  | .bare name token =>
    match takeBare w.stack with
    | some (c, s) => .inr ⟨s, w.found, .bare name (token ++ [c])⟩
    | none => .inr ⟨w.stack, w.found.insert name token, .between⟩
  | .quoted name quote token =>
    match w.stack.peek? with
    | none => fail w.stack .unterminatedAttribute
    | some c =>
      let s := w.stack.next?.2
      if c = '\\' then
        match s.peek? with
        | none => fail s .unterminatedAttribute
        | some e => .inr ⟨s.next?.2, w.found, .quoted name quote (token ++ [e])⟩
      else if c = quote then .inr ⟨s, w.found.insert name token, .between⟩
      else .inr ⟨s, w.found, .quoted name quote (token ++ [c])⟩

/-- At most so many steps, and the end if they come to it. -/
def run : Nat → AttributeWalk → Option (Except Failure Attributes × Stack)
  | 0, _ => none
  | n + 1, w =>
    match w.step with
    | .inl result => some result
    | .inr next => next.run n

end AttributeWalk

namespace AttributeList

/-- What the rest of a list gives once a value has been read, or was not closed. -/
def afterValue (found : Attributes) (name : Text) : Option (Text × Text) →
    Except Fault Attributes × Text
  | some (value, rest) => readFrom (found.insert name value) rest
  | none => (.error .unterminatedAttribute, [])

/-- What the rest of a list gives once a name has been read. -/
def afterName (found : Attributes) (name rest : Text) : Except Fault Attributes × Text :=
  match rest.skipSpaces with
  | [] => (.error .unterminatedAttribute, [])
  | c :: rest =>
    if c = '=' then afterValue found name (readValue (Text.skipSpaces rest))
    else (.error (.missingValue name), c :: rest)

/-- A fault in the next attribute is a fault of the list. -/
theorem readFrom_of_readOne_error {found : Attributes} {t rest : Text} {fault : Fault}
    (hend : ¬ atTagEnd t.skipSpaces) (hne : t.skipSpaces ≠ [])
    (hone : readOne t.skipSpaces = .error (fault, rest)) :
    readFrom found t = (.error fault, rest) := by
  rw [readFrom, if_neg hend, if_neg hne]
  split
  · rename_i he
    rw [hone] at he
    cases he
  · rename_i he
    rw [hone] at he
    cases he
    rfl

/-- Where the tag does not end, reading a list goes on with a name. -/
theorem readFrom_eq_afterName {found : Attributes} {t : Text} (hend : ¬ atTagEnd t.skipSpaces)
    (hne : t.skipSpaces ≠ []) :
    readFrom found t =
      afterName found (readBare t.skipSpaces).1 (readBare t.skipSpaces).2 := by
  rw [afterName]
  cases hrest : (readBare t.skipSpaces).2.skipSpaces with
  | nil => exact readFrom_of_readOne_error hend hne (by simp only [readOne, hrest])
  | cons c rest =>
    by_cases hc : c = '='
    · subst hc
      simp only [if_true]
      cases hvalue : readValue (Text.skipSpaces rest) with
      | none => exact readFrom_of_readOne_error hend hne (by simp only [readOne, hrest, hvalue])
      | some value =>
        exact readFrom_of_readOne (Bool.eq_false_iff.mpr hend) hne
          (by simp only [readOne, hrest, hvalue])
    · simp only [if_neg hc]
      refine readFrom_of_readOne_error hend hne ?_
      simp only [readOne, hrest]
      split
      · rename_i he
        exact absurd (List.cons.inj he).1 hc
      · rename_i he
        cases he
      · rfl

/-- A character that stands for itself is read as part of a bare token. -/
theorem readBare_of_plain {c : Char} {rest : Text} (hd : ¬ atDelimiter (c :: rest))
    (hplain : ¬ (c = '\\' ∧ rest.head?.any isBareEscape = true)) :
    readBare (c :: rest) = consRead c (readBare rest) := by
  by_cases hc : c = '\\'
  · subst hc
    cases rest with
    | nil => rfl
    | cons e more => exact if_neg fun he => hplain ⟨rfl, he⟩
  · rw [readBare_cons hc, if_neg hd]

/-- Put the part of a token that was read before in front of the rest of it. -/
def joinRead (token : Text) (read : Text × Text) : Text × Text := (token ++ read.1, read.2)

theorem joinRead_consRead (token : Text) (c : Char) (read : Text × Text) :
    joinRead token (consRead c read) = joinRead (token ++ [c]) read := by
  simp only [joinRead, consRead, List.append_assoc, List.singleton_append]

/-- A character joins the part of a token that was read before, if the token can be read. -/
theorem map_joinRead_consRead (token : Text) (c : Char) (read? : Option (Text × Text)) :
    (read?.map (consRead c)).map (joinRead token) = read?.map (joinRead (token ++ [c])) := by
  rw [Option.map_map]
  exact congrArg read?.map (funext (joinRead_consRead token c))

end AttributeList

namespace AttributePhase

open AttributeList

/-- What reading a list to its end gives from here on. -/
def outcome (found : Attributes) (t : Text) : AttributePhase → Except Fault Attributes × Text
  | .between => readFrom found t
  | .name token => afterName found (joinRead token (readBare t)).1 (joinRead token (readBare t)).2
  | .equals key => afterName found key t
  | .value key => afterValue found key (readValue t)
  | .bare key token => afterValue found key (some (joinRead token (readBare t)))
  | .quoted key quote token => afterValue found key ((readQuoted quote t).map (joinRead token))

/-- A bound for the steps that can follow before a character is taken. -/
def weight : AttributePhase → Nat
  | .equals _ => 0
  | .name _ => 1
  | .between => 2
  | .bare _ _ | .quoted _ _ _ => 3
  | .value _ => 4

end AttributePhase

namespace AttributeWalk

open AttributeList

/-- What reading the list to its end gives. -/
def outcome (w : AttributeWalk) : Except Failure Attributes × Stack :=
  w.stack.report (w.phase.outcome w.found w.stack.unread)

/-- More than the number of steps that can follow. Every character that is taken allows for the few
steps that take none. -/
def potential (w : AttributeWalk) : Nat := 5 * w.stack.unread.length + w.phase.weight

/-- A step comes to the end that reading the list comes to, or nearer to it. -/
def Proceeds (w : AttributeWalk) : Prop :=
  w.step = .inl w.outcome ∨
    ∃ next, w.step = .inr next ∧ next.outcome = w.outcome ∧ next.potential < w.potential

variable {w : AttributeWalk}

/-- A walk may stop with what reading the list gives. -/
theorem Proceeds.stop {read : Except Fault Attributes × Text}
    (hstep : w.step = .inl (w.stack.report read))
    (hread : w.phase.outcome w.found w.stack.unread = read) : w.Proceeds := by
  left
  rw [hstep, outcome, hread]

/-- A walk may go on to a place that is nearer to the end and leads to the same result. -/
theorem Proceeds.go {rest : Text} {found : Attributes} {phase : AttributePhase}
    (hstep : w.step = .inr ⟨w.stack.setUnread rest, found, phase⟩)
    (hrest : rest <:+ w.stack.unread)
    (hread : w.phase.outcome w.found w.stack.unread = phase.outcome found rest)
    (hpotential : 5 * rest.length + phase.weight < w.potential) : w.Proceeds := by
  right
  refine ⟨_, hstep, ?_, ?_⟩
  · rw [outcome, outcome, Stack.unread_setUnread hrest, Stack.report_setUnread, hread]
  · rw [potential, Stack.unread_setUnread hrest]
    exact hpotential

theorem fail_setUnread (s : Stack) (t : Text) (fault : Fault) :
    fail (s.setUnread t) fault = .inl (s.report (.error fault, t)) := rfl

/-- Taking a character of a bare token takes it from the innermost file, as reading the token at
once does. -/
theorem takeBare_cases (s : Stack) :
    (takeBare s = none ∧ readBare s.unread = ([], s.unread)) ∨
    ∃ c rest, takeBare s = some (c, s.setUnread rest) ∧ rest <:+ s.unread ∧
      rest.length < s.unread.length ∧ readBare s.unread = consRead c (readBare rest) := by
  by_cases hd : atDelimiter s.unread
  · left
    refine ⟨if_pos hd, ?_⟩
    cases hs : s.unread with
    | nil => rfl
    | cons c rest =>
      rw [hs] at hd
      rw [readBare_cons (by rintro rfl; cases hd), if_pos hd]
  · right
    cases hs : s.unread with
    | nil => exact absurd (by rw [hs]; rfl) hd
    | cons c rest =>
      have hsuffix : rest <:+ c :: rest := List.suffix_cons c rest
      have hrest : (s.setUnread rest).unread = rest := Stack.unread_setUnread (hs ▸ hsuffix)
      rw [hs] at hd
      simp only [takeBare, hs, if_neg hd, Stack.next?_of_unread hs, Stack.peek?, hrest]
      cases rest with
      | nil => exact ⟨c, [], rfl, hsuffix, Nat.lt_succ_self _, readBare_of_plain hd (by simp)⟩
      | cons e more =>
        by_cases hescape : c = '\\' ∧ isBareEscape e
        · refine ⟨e, more, ?_, (List.suffix_cons e more).trans hsuffix, ?_, ?_⟩
          · simp [hescape, Stack.next?_of_unread hrest]
          · simp only [List.length_cons]
            omega
          · rw [hescape.1]
            exact if_pos hescape.2
        · refine ⟨c, e :: more, ?_, hsuffix, Nat.lt_succ_self _, readBare_of_plain hd hescape⟩
          simp only [List.head?_cons, if_neg hescape]

/-- A name goes on with a character or has come to its end. -/
theorem proceeds_name (s : Stack) (found : Attributes) (token : Text) :
    Proceeds ⟨s, found, .name token⟩ := by
  obtain ⟨hnone, hread⟩ | ⟨c, rest, hsome, hsuffix, hlt, hread⟩ := takeBare_cases s
  · have hstep : step ⟨s, found, .name token⟩ =
        .inr ⟨s.setUnread s.unread, found, .equals token⟩ := by
      simp only [step, hnone, Stack.setUnread_unread]
    refine .go hstep List.suffix_rfl ?_ (Nat.lt_succ_self _)
    simp only [AttributePhase.outcome, hread, joinRead, List.append_nil]
  · have hstep : step ⟨s, found, .name token⟩ =
        .inr ⟨s.setUnread rest, found, .name (token ++ [c])⟩ := by
      simp only [step, hsome]
    refine .go hstep hsuffix ?_ ?_
    · simp only [AttributePhase.outcome, hread, joinRead_consRead]
    · simp only [potential, AttributePhase.weight]
      omega

/-- A bare value goes on with a character or has come to its end. -/
theorem proceeds_bare (s : Stack) (found : Attributes) (key token : Text) :
    Proceeds ⟨s, found, .bare key token⟩ := by
  obtain ⟨hnone, hread⟩ | ⟨c, rest, hsome, hsuffix, hlt, hread⟩ := takeBare_cases s
  · have hstep : step ⟨s, found, .bare key token⟩ =
        .inr ⟨s.setUnread s.unread, found.insert key token, .between⟩ := by
      simp only [step, hnone, Stack.setUnread_unread]
    refine .go hstep List.suffix_rfl ?_ (Nat.lt_succ_self _)
    simp only [AttributePhase.outcome, hread, joinRead, afterValue, List.append_nil]
  · have hstep : step ⟨s, found, .bare key token⟩ =
        .inr ⟨s.setUnread rest, found, .bare key (token ++ [c])⟩ := by
      simp only [step, hsome]
    refine .go hstep hsuffix ?_ ?_
    · simp only [AttributePhase.outcome, hread, joinRead_consRead]
    · simp only [potential, AttributePhase.weight]
      omega

/-- Between attributes the tag or the file ends, or a name begins. -/
theorem proceeds_between (s : Stack) (found : Attributes) : Proceeds ⟨s, found, .between⟩ := by
  have hends : tagEnds.any s.skipSpaces.startsWith = atTagEnd s.unread.skipSpaces := by
    rw [← Stack.unread_skipSpaces]
    rfl
  have hpeek : s.skipSpaces.peek? = s.unread.skipSpaces.head? := by
    rw [Stack.peek?, Stack.unread_skipSpaces]
  by_cases hend : atTagEnd s.unread.skipSpaces
  · have hstep : step ⟨s, found, .between⟩ =
        .inl (s.report (.ok found, s.unread.skipSpaces)) := by
      simp only [step, hends, hend, if_true]
      rfl
    refine .stop hstep ?_
    simp only [AttributePhase.outcome]
    rw [readFrom, if_pos hend]
  · by_cases hnil : s.unread.skipSpaces = []
    · have hstep : step ⟨s, found, .between⟩ =
          .inl (s.report (.error .unterminatedAttribute, s.unread.skipSpaces)) := by
        simp only [step, hends, if_neg hend, hpeek, List.head?_eq_none_iff, if_pos hnil]
        rfl
      refine .stop hstep ?_
      simp only [AttributePhase.outcome]
      rw [readFrom, if_neg hend, if_pos hnil, hnil]
    · have hstep : step ⟨s, found, .between⟩ =
          .inr ⟨s.setUnread s.unread.skipSpaces, found, .name []⟩ := by
        simp only [step, hends, if_neg hend, hpeek, List.head?_eq_none_iff, if_neg hnil]
        rfl
      refine .go hstep (suffix_skipSpaces _) (readFrom_eq_afterName hend hnil) ?_
      have hle := length_skipSpaces_le s.unread
      simp only [potential, AttributePhase.weight]
      omega

/-- Behind a name there must be an equals sign. -/
theorem proceeds_equals (s : Stack) (found : Attributes) (key : Text) :
    Proceeds ⟨s, found, .equals key⟩ := by
  have hspaces : s.unread.skipSpaces <:+ s.unread := suffix_skipSpaces s.unread
  cases hs : s.unread.skipSpaces with
  | nil =>
    have hstep : step ⟨s, found, .equals key⟩ =
        .inl (s.report (.error .unterminatedAttribute, [])) := by
      simp only [step, Stack.peek?, Stack.unread_skipSpaces, hs, List.head?_nil]
      rw [Stack.skipSpaces, hs]
      rfl
    refine .stop hstep ?_
    simp only [AttributePhase.outcome, afterName, hs]
  | cons c rest =>
    rw [hs] at hspaces
    by_cases hc : c = '='
    · subst hc
      have hrest : rest <:+ s.unread := (List.suffix_cons _ rest).trans hspaces
      have hnext : s.skipSpaces.next?.2 = s.setUnread rest := by
        rw [Stack.next?_of_unread ((Stack.unread_skipSpaces s).trans hs)]
        exact Stack.setUnread_setUnread s _ rest
      have hstep : step ⟨s, found, .equals key⟩ =
          .inr ⟨s.setUnread (Text.skipSpaces rest), found, .value key⟩ := by
        simp only [step, Stack.peek?, Stack.unread_skipSpaces, hs, List.head?_cons, if_true, hnext,
          Stack.skipSpaces_setUnread hrest]
      refine .go hstep ((suffix_skipSpaces rest).trans hrest) ?_ ?_
      · simp only [AttributePhase.outcome, afterName, hs, if_true]
      · have hle := length_skipSpaces_le rest
        have hlt := hspaces.length_le
        simp only [potential, AttributePhase.weight, List.length_cons] at hlt ⊢
        omega
    · have hstep : step ⟨s, found, .equals key⟩ =
          .inl (s.report (.error (.missingValue key), c :: rest)) := by
        simp only [step, Stack.peek?, Stack.unread_skipSpaces, hs, List.head?_cons, if_neg hc]
        rw [Stack.skipSpaces, hs]
        rfl
      refine .stop hstep ?_
      simp only [AttributePhase.outcome, afterName, hs, if_neg hc]

/-- A value begins with a quote or is bare. -/
theorem proceeds_value (s : Stack) (found : Attributes) (key : Text) :
    Proceeds ⟨s, found, .value key⟩ := by
  by_cases hquote : ∃ c rest, s.unread = c :: rest ∧ (c = '"' ∨ c = '\'')
  · obtain ⟨c, rest, hs, hc⟩ := hquote
    have hstep : step ⟨s, found, .value key⟩ =
        .inr ⟨s.setUnread rest, found, .quoted key c []⟩ := by
      simp only [step, Stack.peek?, hs, List.head?_cons, if_pos hc, Stack.next?_of_unread hs]
    refine .go hstep (hs ▸ List.suffix_cons c rest) ?_ ?_
    · have hnil : (readQuoted c rest).map (joinRead []) = readQuoted c rest := Option.map_id'
      simp only [AttributePhase.outcome, hs, hnil]
      rcases hc with rfl | rfl <;> rfl
    · simp only [potential, AttributePhase.weight, hs, List.length_cons]
      omega
  · have hstep : step ⟨s, found, .value key⟩ =
        .inr ⟨s.setUnread s.unread, found, .bare key []⟩ := by
      rw [Stack.setUnread_unread]
      cases hs : s.unread with
      | nil => simp only [step, Stack.peek?, hs, List.head?_nil]
      | cons c rest =>
        have hc : ¬ (c = '"' ∨ c = '\'') := fun hc => hquote ⟨c, rest, hs, hc⟩
        simp only [step, Stack.peek?, hs, List.head?_cons, if_neg hc]
    refine .go hstep List.suffix_rfl ?_ (Nat.lt_succ_self _)
    have hbare : readValue s.unread = some (readBare s.unread) := by
      rw [readValue]
      · exact fun rest hs => hquote ⟨_, rest, hs, .inl rfl⟩
      · exact fun rest hs => hquote ⟨_, rest, hs, .inr rfl⟩
    rw [AttributePhase.outcome, hbare]
    rfl

/-- A value between quotes goes on with a character, which a backslash may take, or is closed. -/
theorem proceeds_quoted (s : Stack) (found : Attributes) (key : Text) (quote : Char)
    (token : Text) : Proceeds ⟨s, found, .quoted key quote token⟩ := by
  cases hs : s.unread with
  | nil =>
    have hstep : step ⟨s, found, .quoted key quote token⟩ =
        .inl (s.report (.error .unterminatedAttribute, s.unread)) := by
      simp only [step, Stack.peek?, hs, List.head?_nil, ← fail_setUnread]
      rw [← hs, Stack.setUnread_unread]
    refine .stop hstep ?_
    simp only [AttributePhase.outcome, hs]
    rfl
  | cons c rest =>
    have hrest : rest <:+ s.unread := hs ▸ List.suffix_cons c rest
    have hnext : s.next?.2 = s.setUnread rest := by rw [Stack.next?_of_unread hs]
    by_cases hc : c = '\\'
    · subst hc
      cases rest with
      | nil =>
        have hstep : step ⟨s, found, .quoted key quote token⟩ =
            .inl (s.report (.error .unterminatedAttribute, [])) := by
          simp only [step, Stack.peek?, hs, List.head?_cons, if_true, hnext,
            Stack.unread_setUnread hrest, List.head?_nil, fail_setUnread]
        refine .stop hstep ?_
        simp only [AttributePhase.outcome, hs]
        rfl
      | cons e more =>
        have hescaped : (s.setUnread (e :: more)).next?.2 = s.setUnread more := by
          rw [Stack.next?_of_unread (Stack.unread_setUnread hrest), Stack.setUnread_setUnread]
        have hstep : step ⟨s, found, .quoted key quote token⟩ =
            .inr ⟨s.setUnread more, found, .quoted key quote (token ++ [e])⟩ := by
          simp only [step, Stack.peek?, hs, List.head?_cons, if_true, hnext,
            Stack.unread_setUnread hrest, hescaped]
        refine .go hstep ((List.suffix_cons e more).trans hrest) ?_ ?_
        · simp only [AttributePhase.outcome, hs, readQuoted, map_joinRead_consRead]
        · simp only [potential, AttributePhase.weight, hs, List.length_cons]
          omega
    · by_cases hquote : c = quote
      · have hstep : step ⟨s, found, .quoted key quote token⟩ =
            .inr ⟨s.setUnread rest, found.insert key token, .between⟩ := by
          simp only [step, Stack.peek?, hs, List.head?_cons, if_neg hc, if_pos hquote, hnext]
        refine .go hstep hrest ?_ ?_
        · simp only [AttributePhase.outcome, hs, readQuoted_cons hc, if_pos hquote,
            Option.map_some, joinRead, afterValue, List.append_nil]
        · simp only [potential, AttributePhase.weight, hs, List.length_cons]
          omega
      · have hstep : step ⟨s, found, .quoted key quote token⟩ =
            .inr ⟨s.setUnread rest, found, .quoted key quote (token ++ [c])⟩ := by
          simp only [step, Stack.peek?, hs, List.head?_cons, if_neg hc, if_neg hquote, hnext]
        refine .go hstep hrest ?_ ?_
        · simp only [AttributePhase.outcome, hs, readQuoted_cons hc, if_neg hquote,
            map_joinRead_consRead]
        · simp only [potential, AttributePhase.weight, hs, List.length_cons]
          omega

/-- Every step comes to the end that reading the list comes to, or nearer to it. -/
theorem proceeds (w : AttributeWalk) : w.Proceeds := by
  obtain ⟨s, found, phase⟩ := w
  cases phase with
  | between => exact proceeds_between s found
  | name token => exact proceeds_name s found token
  | equals key => exact proceeds_equals s found key
  | value key => exact proceeds_value s found key
  | bare key token => exact proceeds_bare s found key token
  | quoted key quote token => exact proceeds_quoted s found key quote token

/-- A walk with enough steps comes to the end of the list. -/
theorem run_of_potential_lt {n : Nat} (h : w.potential < n) : w.run n = some w.outcome := by
  induction n generalizing w with
  | zero => exact absurd h (Nat.not_lt_zero _)
  | succ n ih =>
    rw [run]
    obtain hstop | ⟨next, hgo, houtcome, hlt⟩ := w.proceeds
    · rw [hstop]
    · rw [hgo, ← houtcome]
      exact ih (by omega)

/-- The walk comes to the end that reading the list as a whole comes to. -/
theorem run_start (s : Stack) :
    (start s).run (5 * s.unread.length + 3) = some (Recognition.readAttributes s) := by
  rw [Stack.readAttributes_eq_report]
  exact run_of_potential_lt (Nat.lt_succ_self _)

end AttributeWalk

namespace AttributeList

/-- A list that is not closed is missed at the end of the text, a value in front of other text. -/
theorem fault_of_readOne {t rest : Text} {fault : Fault} (h : readOne t = .error (fault, rest)) :
    (fault = .unterminatedAttribute ∧ rest = []) ∨
      ((∃ name, fault = .missingValue name) ∧ rest ≠ []) := by
  simp only [readOne] at h
  split at h
  · split at h
    · cases h
    · cases h
      exact .inl ⟨rfl, rfl⟩
  · cases h
    exact .inl ⟨rfl, rfl⟩
  · rename_i hne
    cases h
    exact .inr ⟨⟨_, rfl⟩, hne⟩

/-- Reading a list fails at the end of the text if the list is not closed, and in front of other text
if a value is missing. -/
theorem fault_of_readFrom {found : Attributes} {t rest : Text} {fault : Fault}
    (h : readFrom found t = (.error fault, rest)) :
    (fault = .unterminatedAttribute ∧ rest = []) ∨
      ((∃ name, fault = .missingValue name) ∧ rest ≠ []) := by
  fun_induction readFrom found t with
  | case1 => cases h
  | case2 =>
    cases h
    exact .inl ⟨rfl, rfl⟩
  | case3 found t hend hspaces name value tail hone ih => exact ih h
  | case4 found t hend hspaces other tail hone =>
    cases h
    exact fault_of_readOne hone

end AttributeList

/-- Reading on does not go back. -/
theorem Reading.cursor_le_of_suffix {r : Reading} {rest : Text} (h : rest <:+ r.unread) :
    r.cursor ≤ { r with unread := rest }.cursor := by
  obtain ⟨front, hfront⟩ := h
  apply Nat.sub_le_sub_left
  rw [← hfront, Text.byteLength_append]
  exact Nat.le_add_left _ _

/-- Wherever an attribute list is read, reading it comes to an end, after steps whose number is
bounded by the unread text of the innermost file, and leaves all files as they are except that it
goes on in the innermost one. If it succeeds, the tag ends there. If it fails, the file is used up
and the list not closed, or it is not used up and a value is missing. -/
theorem Recognition.readAttributes_stays_in_file (crossing : Bool)
    (actions : List Session.Action) :
    let s := (Session.run crossing actions).input.stack
    ∃ result rest, readAttributes s = (result, s.setUnread rest) ∧
      (AttributeWalk.start s).run (5 * s.unread.length + 3) = some (result, s.setUnread rest) ∧
      (s = [] ∧ rest = [] ∨
        ∃ r below, s = r :: below ∧ s.setUnread rest = { r with unread := rest } :: below ∧
          rest <:+ r.unread ∧ r.unread <:+ r.source.content ∧
          r.cursor ≤ { r with unread := rest }.cursor ∧
          { r with unread := rest }.cursor ≤ r.source.content.byteLength) ∧
      (∀ found, result = .ok found →
        ∃ close ∈ ([">", "/>", "%>", "--%>"] : List Text), close <+: rest) ∧
      (∀ failure, result = .error failure →
        (failure.fault = .unterminatedAttribute ∧ rest = []) ∨
          ((∃ name, failure.fault = .missingValue name) ∧ rest ≠ [])) := by
  intro s
  have hsuffix := AttributeList.suffix_read s.unread
  have hreport := Stack.readAttributes_eq_report s
  refine ⟨_, _, hreport, (AttributeWalk.run_start s).trans (congrArg some hreport), ?_, ?_, ?_⟩
  · cases hs : s with
    | nil =>
      left
      rw [hs] at hsuffix
      exact ⟨rfl, List.suffix_nil.mp hsuffix⟩
    | cons r below =>
      right
      rw [hs] at hsuffix
      have hrecorded := ((Session.Sound.run crossing actions).places s List.mem_cons_self).recorded
      have hcontent := (hrecorded r (hs ▸ List.mem_cons_self)).2
      exact ⟨r, below, rfl, rfl, hsuffix, hcontent, Reading.cursor_le_of_suffix hsuffix,
        Nat.sub_le _ _⟩
  · intro found hfound
    have hend := AttributeList.atTagEnd_of_readFrom (Prod.ext (Stack.of_report_eq_ok hfound) rfl)
    obtain ⟨close, hclose, hstarts⟩ := List.any_eq_true.mp hend
    exact ⟨close, hclose, List.isPrefixOf_iff_prefix.mp hstarts⟩
  · intro failure hfailure
    exact AttributeList.fault_of_readFrom (Prod.ext (Stack.of_report_eq_error hfailure) rfl)

/-- In an included file: a quote that is not closed before the file ends, an empty name in front of
an arrow, and a tag that is closed. -/
theorem Recognition.readAttributes_stays_in_file_at_its_end :
    (let s := (Session.run true [.openText "page" "'>" [], .openText "part" "a='\\" []]).input.stack
      ∃ failure, readAttributes s = (.error failure, s.setUnread []) ∧
        (AttributeWalk.start s).run 23 = some (.error failure, s.setUnread []) ∧
        failure.fault = .unterminatedAttribute) ∧
    (let s := (Session.run true [.openText "page" "'>" [], .openText "part" "=->" []]).input.stack
      ∃ failure rest, readAttributes s = (.error failure, s.setUnread rest) ∧
        (∃ name, failure.fault = .missingValue name) ∧ rest ≠ []) ∧
    (let s := (Session.run true [.openText "page" "'>" [], .openText "part" "a=b/>" []]).input.stack
      ∃ found rest, readAttributes s = (.ok found, s.setUnread rest) ∧
        ∃ close ∈ ([">", "/>", "%>", "--%>"] : List Text), close <+: rest) := by
  refine ⟨?_, ?_, ?_⟩
  · intro s
    obtain ⟨result, rest, hread, hwalk, -, -, hfails⟩ := readAttributes_stays_in_file true
      [.openText "page" "'>" [], .openText "part" "a='\\" []]
    have hnone : (readAttributes s).1.toOption = none := by decide +kernel
    have hunread : (readAttributes s).2.unread = [] := by decide +kernel
    rw [hread] at hnone hunread
    cases result with
    | ok found => cases hnone
    | error failure =>
      obtain rfl : rest = [] := hunread
      rcases hfails failure rfl with ⟨hfault, -⟩ | ⟨-, hne⟩
      · exact ⟨failure, hread, hwalk, hfault⟩
      · exact absurd rfl hne
  · intro s
    obtain ⟨result, rest, hread, -, -, -, hfails⟩ := readAttributes_stays_in_file true
      [.openText "page" "'>" [], .openText "part" "=->" []]
    have hnone : (readAttributes s).1.toOption = none := by decide +kernel
    have hunread : (readAttributes s).2.unread ≠ [] := by decide +kernel
    rw [hread] at hnone hunread
    cases result with
    | ok found => cases hnone
    | error failure =>
      rcases hfails failure rfl with ⟨-, hrest⟩ | hmissing
      · exact absurd hrest hunread
      · exact ⟨failure, rest, hread, hmissing⟩
  · intro s
    obtain ⟨result, rest, hread, -, -, hcloses, -⟩ := readAttributes_stays_in_file true
      [.openText "page" "'>" [], .openText "part" "a=b/>" []]
    have hsome : (readAttributes s).1.toOption ≠ none := by decide +kernel
    rw [hread] at hsome
    cases result with
    | ok found => exact ⟨found, rest, hread, hcloses found rfl⟩
    | error failure => exact absurd rfl hsome

end ServerPages
