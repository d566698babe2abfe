import ServerPages.Proofs.Input.Advance
import ServerPages.Proofs.Markup.Termination

/-!
# Looking ahead

Elements can be recognised in two separate acts: looking whether the innermost file goes on with a
delimiter, and then reading as many characters as the delimiter has bytes, through the ends of files
if need be. A walk keeps account of these acts. It recognises the same elements at the same places
as a comparison with the unread text, since every delimiter is looked for right before it is read,
and its characters have one byte each. So no act of reading leaves the file in which it begins.
-/

namespace ServerPages

theorem Stack.length_setUnread (t : Text) (s : Stack) : (s.setUnread t).length = s.length := by
  cases s <;> rfl

/-- What a walk does to find its way. -/
inductive Walk.Act where
  /-- It looks whether the innermost file goes on with a literal. -/
  | look (place : Stack) (literal : Text)
  /-- It reads a number of characters, through the ends of files. -/
  | advance (place : Stack) (count : Nat)
  deriving DecidableEq, Repr

/-- Reading on from a place: the acts in order, and then the result with the place that is reached,
unless a failure breaks the walk off. -/
def Walk (α : Type) : Type := Stack → List Walk.Act × Except Failure (α × Stack)

namespace Walk

instance : Monad Walk where
  pure a := fun s => ([], .ok (a, s))
  bind m f := fun s =>
    match m s with
    | (acts, .ok (a, rest)) => (f a rest).map (acts ++ ·) id
    | (acts, .error failure) => (acts, .error failure)

variable {α β : Type}

/-- The place that has been reached. -/
def here : Walk Stack := fun s => ([], .ok (s, s))

/-- Go back to a place. -/
def goBack (start : Stack) : Walk Unit := fun _ => ([], .ok ((), start))

/-- Break the walk off. -/
def fail (failure : Failure) : Walk α := fun _ => ([], .error failure)

/-- Read without any act of the two kinds. -/
def quietly (read : Stack → Except Failure α × Stack) : Walk α := fun s =>
  match read s with
  | (.ok a, rest) => ([], .ok (a, rest))
  | (.error failure, _) => ([], .error failure)

/-- Look whether the innermost file goes on with a literal. -/
def look (literal : Text) : Walk Bool := fun s =>
  ([.look s literal], .ok (s.startsWith literal, s))

/-- Read a number of characters, through the ends of files. -/
def advance (count : Nat) : Walk Unit := fun s =>
  match s.advance count with
  | (.ok (), rest) => ([.advance s count], .ok ((), rest))
  | (.error failure, _) => ([.advance s count], .error failure)

/-- Skip the tag spaces of the innermost file. -/
def skipSpaces : Walk Unit := quietly fun s => (.ok (), s.skipSpaces)

/-- Read the letters and digits with which the innermost file goes on. -/
def word : Walk Text := quietly fun s =>
  let name := s.unread.takeWhile Char.isAlphanum
  (.ok name, s.setUnread (s.unread.drop name.length))

/-! ## Elements -/

/-- Text up to a closing delimiter, and past it. -/
def enclosed (crossing : Bool) (kind : ElementKind) (close : Text) : Walk Element := do
  let start ← here
  let stop ← quietly (Stack.skipUntil crossing close)
  return ⟨kind, start.textTo stop, .empty, start, stop⟩

/-- The end of a tag: the first closing delimiter that fits is read. -/
def closeTag (start : Stack) : List Text → Walk Stack
  | [] => here
  | [close] => do
    if ← look close then
      advance close.byteLength
      here
    else fail ⟨.unclosed close, some start.span⟩
  | close :: others => do
    if ← look close then
      advance close.byteLength
      here
    else closeTag start others

/-- The attributes of a tag, and its end. -/
def tagRest (start : Stack) (closes : List Text) : Walk (Attributes × Stack) := do
  let found ← quietly Recognition.readAttributes
  skipSpaces
  let stop ← closeTag start closes
  return (found, stop)

/-- A directive after its opening delimiter. -/
def directive (start : Stack) : Walk Element := do
  skipSpaces
  let name ← word
  if Recognition.directiveNames.contains name then
    let (found, stop) ← tagRest start ["%>"]
    return ⟨.directive name, start.textTo stop, found, start, stop⟩
  else fail ⟨.unknownDirective name, some start.span⟩

/-- The head of a method after its opening delimiter. -/
def methodHead (start : Stack) : Walk Element := do
  let (found, stop) ← tagRest start [">"]
  return ⟨.methodHead, start.textTo stop, found, start, stop⟩

/-- A tag without text after its opening delimiter. -/
def emptyTag (kind : ElementKind) (start : Stack) : Walk Element := do
  skipSpaces
  let (found, stop) ← tagRest start ["/>", ">"]
  return ⟨kind, [], found, start, stop⟩

/-- An element, if its opening delimiter comes next. -/
def opening (opener : Text) (rest : Stack → Walk Element) : Walk (Option Element) := do
  let start ← here
  if ← look opener then
    advance opener.byteLength
    let e ← rest start
    return some e
  else return none

/-- Read the delimiter that closes the end of a block. -/
def endedBy (start : Stack) (marked : Bool) (close : Text) : Walk (Option Element) := do
  advance close.byteLength
  let stop ← here
  return some ⟨.endBlock marked, [], .empty, start, stop⟩

/-- Leave the attempt to find the end of a block. -/
def giveUp (start : Stack) : Walk (Option Element) := do
  goBack start
  return none

/-- The end of a block. It shows late that something else stands there. -/
def endBlock : Walk (Option Element) := do
  let start ← here
  if ← look "<%" then
    advance (Text.byteLength "<%")
    skipSpaces
    if ← look "end" then
      advance (Text.byteLength "end")
      skipSpaces
      if ← look "%>" then endedBy start false "%>"
      else if ← look "$%>" then endedBy start true "$%>"
      else giveUp start
    else giveUp start
  else return none

/-- The first of some attempts that finds an element. -/
def firstOf : List (Walk (Option Element)) → Walk (Option Element)
  | [] => return none
  | attempt :: others => do
    match ← attempt with
    | some e => return some e
    | none => firstOf others

/-- The element that begins here, or nothing at plain text. -/
def element (crossing : Bool) : Walk (Option Element) :=
  firstOf [
    opening "<%--" fun _ => enclosed crossing .comment "--%>",
    opening "<%=" fun _ => do
      skipSpaces
      enclosed crossing .expression "%>",
    opening "<%@" directive,
    endBlock,
    opening "<%" fun _ => enclosed crossing .script "%>",
    opening "<psp:file>" fun _ => enclosed crossing .moduleCode "</psp:file>",
    opening "<psp:class>" fun _ => enclosed crossing .classCode "</psp:class>",
    opening "<psp:method" methodHead,
    opening "<psp:include" (emptyTag .urlInclude),
    opening "<psp:insert" (emptyTag .fileInsert)]

/-! ## Guarded acts -/

/-- Characters are read only right after a literal of at least as many characters has been found
at the same place. -/
def Guarded (acts : List Act) : Prop :=
  ∀ before place count after, acts = before ++ .advance place count :: after →
    ∃ earlier literal, before = earlier ++ [.look place literal] ∧
      place.startsWith literal = true ∧ count ≤ literal.length

/-- A walk that does nothing is guarded. -/
theorem guarded_nil : Guarded [] := by
  intro before place count after h
  cases before <;> cases h

/-- Looking needs no guard. -/
theorem guarded_look (s : Stack) (literal : Text) : Guarded [.look s literal] := by
  intro before place count after h
  cases before with
  | nil => cases h
  | cons act before => cases before <;> cases h

/-- A literal that has been seen may be skipped. -/
theorem guarded_look_advance {s : Stack} {literal : Text} {count : Nat}
    (hs : s.startsWith literal = true) (hcount : count ≤ literal.length) :
    Guarded [.look s literal, .advance s count] := by
  intro before place n after h
  match before with
  | [] => cases h
  | [act] =>
    cases h
    exact ⟨[], literal, rfl, hs, hcount⟩
  | act :: next :: before => cases before <;> cases h

/-- Guarded acts may follow each other. -/
theorem Guarded.append {xs ys : List Act} (hx : Guarded xs) (hy : Guarded ys) :
    Guarded (xs ++ ys) := by
  intro before place count after h
  obtain ⟨middle, rfl, hmiddle⟩ | ⟨middle, rfl, hmiddle⟩ := List.append_eq_append_iff.mp h
  · obtain ⟨earlier, literal, rfl, hfound⟩ := hy middle place count after hmiddle
    exact ⟨xs ++ earlier, literal, (List.append_assoc _ _ _).symm, hfound⟩
  · cases middle with
    | nil =>
      -- The second part would begin with reading, which is not guarded.
      obtain ⟨earlier, literal, hempty, -⟩ := hy [] place count after hmiddle.symm
      cases earlier <;> cases hempty
    | cons act middle =>
      obtain ⟨rfl, rfl⟩ := List.cons.inj hmiddle
      exact hx before place count middle rfl

/-- Reading that is guarded succeeds and stays in its file. -/
theorem advance_of_startsWith {place : Stack} {literal : Text} {count : Nat}
    (hfound : place.startsWith literal = true) (hcount : count ≤ literal.length) :
    place.advance count = (.ok (), place.setUnread (place.unread.drop count)) := by
  have hprefix : literal <+: place.unread := List.isPrefixOf_iff_prefix.mp hfound
  exact Stack.advance_of_le_unread (Nat.le_trans hcount hprefix.length_le)

/-! ## What walks do -/

/-- A walk from a place has a result, and its acts are guarded. -/
structure Does (m : Walk α) (s : Stack) (x : Except Failure (α × Stack)) : Prop where
  /-- The result of the walk. -/
  result : (m s).2 = x
  /-- Its acts are guarded. -/
  guarded : Guarded (m s).1

section Steps

variable {m : Walk α} {f : α → Walk β} {s rest : Stack} {a : α} {failure : Failure}

theorem bind_of_ok {acts : List Act} (h : m s = (acts, .ok (a, rest))) :
    (m >>= f) s = (f a rest).map (acts ++ ·) id := by
  simp only [bind, h]

theorem bind_of_error {acts : List Act} (h : m s = (acts, .error failure)) :
    (m >>= f) s = (acts, .error failure) := by
  simp only [bind, h]

/-- A walk that succeeds goes on with the next one. -/
theorem Does.bind {y : Except Failure (β × Stack)} (hm : m.Does s (.ok (a, rest)))
    (hf : (f a).Does rest y) : (m >>= f).Does s y := by
  have hbind := bind_of_ok (f := f) (Prod.ext rfl hm.result : m s = ((m s).1, .ok (a, rest)))
  constructor
  · rw [hbind]
    exact hf.result
  · rw [hbind]
    exact hm.guarded.append hf.guarded

/-- A walk that fails does not go on. -/
theorem Does.bind_error (hm : m.Does s (.error failure)) : (m >>= f).Does s (.error failure) := by
  have hbind := bind_of_error (f := f)
    (Prod.ext rfl hm.result : m s = ((m s).1, .error failure))
  constructor
  · rw [hbind]
  · rw [hbind]
    exact hm.guarded

theorem does_pure (a : α) (s : Stack) : (pure a : Walk α).Does s (.ok (a, s)) :=
  ⟨rfl, guarded_nil⟩

theorem does_here (s : Stack) : here.Does s (.ok (s, s)) := ⟨rfl, guarded_nil⟩

theorem does_goBack (start s : Stack) : (goBack start).Does s (.ok ((), start)) :=
  ⟨rfl, guarded_nil⟩

theorem does_fail (failure : Failure) (s : Stack) :
    (fail failure : Walk α).Does s (.error failure) :=
  ⟨rfl, guarded_nil⟩

theorem does_skipSpaces (s : Stack) : skipSpaces.Does s (.ok ((), s.skipSpaces)) :=
  ⟨rfl, guarded_nil⟩

/-- A word is taken without looking. -/
theorem does_word (s : Stack) :
    let name := s.unread.takeWhile Char.isAlphanum
    word.Does s (.ok (name, s.setUnread (s.unread.drop name.length))) :=
  ⟨rfl, guarded_nil⟩

/-- Reading without looking does what it reads. -/
theorem does_quietly_ok {read : Stack → Except Failure α × Stack} (h : read s = (.ok a, rest)) :
    (quietly read).Does s (.ok (a, rest)) := by
  constructor <;> rw [quietly, h]
  exact guarded_nil

/-- Reading without looking may fail. -/
theorem does_quietly_error {read : Stack → Except Failure α × Stack}
    (h : read s = (.error failure, rest)) : (quietly read).Does s (.error failure) := by
  constructor <;> rw [quietly, h]
  exact guarded_nil

end Steps

section Delimiters

variable {literal : Text} {s rest : Stack} {found : Unit → Walk α} {other : Walk α}
  {x : Except Failure (α × Stack)}

/-- A literal that can be accepted stands there. -/
theorem startsWith_of_accept? (h : s.accept? literal = some rest) :
    s.startsWith literal = true ∧ s.setUnread (s.unread.drop literal.length) = rest := by
  cases s with
  | nil => cases h
  | cons r below =>
    obtain ⟨t, ht, rfl⟩ := Option.map_eq_some_iff.mp h
    have hsplit : r.unread = literal ++ t := Text.after?_eq_some_iff.mp ht
    constructor
    · exact List.isPrefixOf_iff_prefix.mpr ⟨t, hsplit.symm⟩
    · simp only [Stack.unread, Stack.setUnread, hsplit, List.drop_left]

/-- A literal that cannot be accepted does not stand there. -/
theorem startsWith_of_accept?_eq_none (hne : literal ≠ []) (h : s.accept? literal = none) :
    s.startsWith literal = false := by
  rw [Bool.eq_false_iff]
  intro hstarts
  obtain ⟨t, ht⟩ := List.isPrefixOf_iff_prefix.mp hstarts
  cases s with
  | nil => exact hne (List.append_eq_nil_iff.mp ht).1
  | cons r below =>
    have hafter : Text.after? literal r.unread = some t := Text.after?_eq_some_iff.mpr ht.symm
    rw [Stack.accept?, hafter] at h
    cases h

/-- A delimiter that comes next is looked for and read, and the walk goes on behind it. -/
theorem does_of_accept? (hbytes : literal.byteLength = literal.length)
    (h : s.accept? literal = some rest) (hfound : (found ()).Does rest x) :
    (look literal >>= fun seen =>
      if seen = true then advance literal.byteLength >>= found else other).Does s x := by
  obtain ⟨hstarts, hrest⟩ := startsWith_of_accept? h
  have hadvance : s.advance literal.byteLength = (.ok (), rest) := by
    rw [hbytes, advance_of_startsWith hstarts (Nat.le_refl _), hrest]
  have hread : advance literal.byteLength s =
      ([.advance s literal.byteLength], .ok ((), rest)) := by
    rw [advance, hadvance]
  have hlook : look literal s = ([.look s literal], .ok (true, s)) := by
    rw [look, hstarts]
  have hacts : (look literal >>= fun seen =>
      if seen = true then advance literal.byteLength >>= found else other) s =
      (found () rest).map
        ([.look s literal, .advance s literal.byteLength] ++ ·) id := by
    rw [bind_of_ok hlook, if_pos rfl, bind_of_ok hread]
    rfl
  constructor
  · rw [hacts]
    exact hfound.result
  · rw [hacts]
    exact (guarded_look_advance hstarts (Nat.le_of_eq hbytes)).append hfound.guarded

/-- A delimiter that does not come next is only looked for. -/
theorem does_of_accept?_eq_none {taken : Walk α} (hne : literal ≠ [])
    (h : s.accept? literal = none) (hother : other.Does s x) :
    (look literal >>= fun seen => if seen = true then taken else other).Does s x := by
  have hlook : (look literal).Does s (.ok (false, s)) := by
    refine ⟨?_, guarded_look s literal⟩
    rw [look, startsWith_of_accept?_eq_none hne h]
  exact hlook.bind hother

end Delimiters

/-! ## Walks and recognition -/

section Elements

variable {s start body : Stack} {crossing : Bool}

/-- An element up to a closing delimiter is recognized with guarded acts. -/
theorem does_enclosed (kind : ElementKind) (close : Text) :
    (enclosed crossing kind close).Does body (Recognition.enclosed crossing kind close body) := by
  refine (does_here body).bind ?_
  rw [Recognition.enclosed]
  split
  · rename_i stop rest hskip
    exact (does_quietly_ok hskip).bind (does_pure _ rest)
  · rename_i failure rest hskip
    exact (does_quietly_error hskip).bind_error

/-- A tag is closed with guarded acts. -/
theorem does_closeTag (start s : Stack) {closes : List Text}
    (h : ∀ close ∈ closes, close ≠ [] ∧ close.byteLength = close.length) :
    (closeTag start closes).Does s
      ((Recognition.closeTag start s closes).map fun rest => (rest, rest)) := by
  fun_induction Recognition.closeTag start s closes with
  | case1 => exact does_here s
  | case2 close rest hclose =>
    exact does_of_accept? (h close List.mem_cons_self).2 hclose (does_here rest)
  | case3 close hclose =>
    exact does_of_accept?_eq_none (h close List.mem_cons_self).1 hclose (does_fail _ s)
  | case4 close others hothers rest hclose =>
    rw [closeTag]
    · exact does_of_accept? (h close List.mem_cons_self).2 hclose (does_here rest)
    · exact hothers
  | case5 close others hothers hclose ih =>
    rw [closeTag]
    · exact does_of_accept?_eq_none (h close List.mem_cons_self).1 hclose
        (ih fun other hmem => h other (List.mem_cons_of_mem close hmem))
    · exact hothers

/-- The rest of a tag is read with guarded acts. -/
theorem does_tagRest (start body : Stack) {closes : List Text}
    (h : ∀ close ∈ closes, close ≠ [] ∧ close.byteLength = close.length) :
    (tagRest start closes).Does body
      ((Recognition.tagRest start body closes).map fun tag => (tag, tag.2)) := by
  rw [Recognition.tagRest]
  split
  · rename_i failure rest hread
    exact (does_quietly_error hread).bind_error
  · rename_i found rest hread
    refine (does_quietly_ok hread).bind ((does_skipSpaces rest).bind ?_)
    have hclose := does_closeTag start rest.skipSpaces h
    split
    · rename_i stop hstop
      rw [hstop] at hclose
      exact hclose.bind (does_pure _ stop)
    · rename_i failure hstop
      rw [hstop] at hclose
      exact hclose.bind_error

/-- What is made of a tag is made of its attributes and of the place behind it. -/
theorem does_of_tagRest {closes : List Text} {make : Attributes × Stack → Element}
    (h : ∀ close ∈ closes, close ≠ [] ∧ close.byteLength = close.length) :
    (tagRest start closes >>= fun tag => pure (make tag)).Does body
      (match Recognition.tagRest start body closes with
      | .ok (found, stop) => .ok (make (found, stop), stop)
      | .error failure => .error failure) := by
  have htag := does_tagRest start body h
  split
  · rename_i found stop hfound
    rw [hfound] at htag
    exact htag.bind (does_pure _ stop)
  · rename_i failure hfound
    rw [hfound] at htag
    exact htag.bind_error

/-- A directive is recognized with guarded acts. -/
theorem does_directive : (directive start).Does body (Recognition.directive start body) := by
  refine (does_skipSpaces body).bind ((does_word _).bind ?_)
  simp only [Recognition.directive]
  split
  · exact does_of_tagRest (by decide)
  · exact does_fail _ _

/-- The head of a method is recognized with guarded acts. -/
theorem does_methodHead : (methodHead start).Does body (Recognition.methodHead start body) :=
  does_of_tagRest (by decide)

/-- A tag without a body is recognized with guarded acts. -/
theorem does_emptyTag (kind : ElementKind) :
    (emptyTag kind start).Does body (Recognition.emptyTag kind start body) :=
  (does_skipSpaces body).bind (does_of_tagRest (by decide))

/-- What has been recognised at a place, where reading stays if nothing begins there. -/
def orStay (s : Stack) :
    Option (Except Failure (Element × Stack)) → Except Failure (Option Element × Stack)
  | none => .ok (none, s)
  | some (.ok (e, rest)) => .ok (some e, rest)
  | some (.error failure) => .error failure

/-- What follows an opening delimiter is recognized with guarded acts. -/
theorem does_opening {opener : Text} {rest : Stack → Walk Element}
    {recognise : Stack → Except Failure (Element × Stack)} (hne : opener ≠ [])
    (hbytes : opener.byteLength = opener.length)
    (hrest : ∀ body, (rest s).Does body (recognise body)) :
    (opening opener rest).Does s (orStay s ((s.accept? opener).map recognise)) := by
  refine (does_here s).bind ?_
  cases h : s.accept? opener with
  | none => exact does_of_accept?_eq_none hne h (does_pure none s)
  | some body =>
    refine does_of_accept? hbytes h ?_
    have hbody := hrest body
    rw [Option.map_some]
    cases hfound : recognise body with
    | ok found =>
      rw [hfound] at hbody
      exact hbody.bind (does_pure _ found.2)
    | error failure =>
      rw [hfound] at hbody
      exact hbody.bind_error

theorem does_giveUp (start s : Stack) : (giveUp start).Does s (.ok (none, start)) :=
  (does_goBack start s).bind (does_pure none start)

/-- The end of a block is recognized with guarded acts. -/
theorem does_endBlock (s : Stack) :
    endBlock.Does s (orStay s ((Recognition.endBlock? s).map .ok)) := by
  refine (does_here s).bind ?_
  rw [Recognition.endBlock?]
  cases hopen : s.accept? "<%" with
  | none => exact does_of_accept?_eq_none (by decide) hopen (does_pure none s)
  | some body =>
    refine does_of_accept? (by decide) hopen ((does_skipSpaces body).bind ?_)
    dsimp only
    cases hword : body.skipSpaces.accept? "end" with
    | none => exact does_of_accept?_eq_none (by decide) hword (does_giveUp s _)
    | some rest =>
      refine does_of_accept? (by decide) hword ((does_skipSpaces rest).bind ?_)
      dsimp only
      cases hclose : rest.skipSpaces.accept? "%>" with
      | some stop =>
        exact does_of_accept? (by decide) hclose ((does_here stop).bind (does_pure _ stop))
      | none =>
        refine does_of_accept?_eq_none (by decide) hclose ?_
        dsimp only
        cases hmarked : rest.skipSpaces.accept? "$%>" with
        | none => exact does_of_accept?_eq_none (by decide) hmarked (does_giveUp s _)
        | some stop =>
          exact does_of_accept? (by decide) hmarked ((does_here stop).bind (does_pure _ stop))

/-- Attempts are made one after the other, each from the same place. -/
theorem does_firstOf_cons {attempt : Walk (Option Element)}
    {others : List (Walk (Option Element))} {x y : Option (Except Failure (Element × Stack))}
    (hx : attempt.Does s (orStay s x)) (hy : (firstOf others).Does s (orStay s y)) :
    (firstOf (attempt :: others)).Does s (orStay s (x.or y)) := by
  match x with
  | none => exact hx.bind hy
  | some (.ok (e, rest)) => exact hx.bind (does_pure (some e) rest)
  | some (.error failure) => exact hx.bind_error

/-- Looking ahead and reading on recognises the same element, and goes on at the same place. -/
theorem does_element (crossing : Bool) (s : Stack) :
    (element crossing).Does s (orStay s (Recognition.element? crossing s)) := by
  have hend : (firstOf []).Does s (orStay s none) := does_pure none s
  simp only [Recognition.element?, Option.or_assoc]
  rw [← Option.or_none (o := (s.accept? "<psp:insert").map _)]
  refine does_firstOf_cons (does_opening (by decide) (by decide) fun _ => does_enclosed _ _) ?_
  refine does_firstOf_cons (does_opening (by decide) (by decide) fun body =>
    (does_skipSpaces body).bind (does_enclosed _ _)) ?_
  refine does_firstOf_cons (does_opening (by decide) (by decide) fun _ => does_directive) ?_
  refine does_firstOf_cons (does_endBlock s) ?_
  refine does_firstOf_cons (does_opening (by decide) (by decide) fun _ => does_enclosed _ _) ?_
  refine does_firstOf_cons (does_opening (by decide) (by decide) fun _ => does_enclosed _ _) ?_
  refine does_firstOf_cons (does_opening (by decide) (by decide) fun _ => does_enclosed _ _) ?_
  refine does_firstOf_cons (does_opening (by decide) (by decide) fun _ => does_methodHead) ?_
  refine does_firstOf_cons (does_opening (by decide) (by decide) fun _ => does_emptyTag _) ?_
  exact does_firstOf_cons (does_opening (by decide) (by decide) fun _ => does_emptyTag _) hend

end Elements

end Walk

namespace Scan

variable {σ : Type} {v : Visitor σ} {disk : Disk} {s s' : Scan σ}

/-- One step of a scan that looks ahead: its acts, and what comes of it. -/
def walkStep (v : Visitor σ) (disk : Disk) (s : Scan σ) :
    List Walk.Act × Except (Halt σ) (Scan σ) :=
  match s.enterFile v disk with
  | .error halt => ([], .error halt)
  | .ok s =>
    match Walk.element s.input.crossing s.input.stack with
    | (acts, .ok (none, rest)) => (acts, .ok (s.moveTo rest).readText)
    | (acts, .ok (some e, rest)) => (acts, s.takeElement v disk e rest)
    | (acts, .error failure) => (acts, .error ⟨failure, s⟩)

/-- A step that looks ahead does what a step does, with guarded acts. -/
theorem walkStep_spec (v : Visitor σ) (disk : Disk) (s : Scan σ) :
    (s.walkStep v disk).2 = s.step v disk ∧ Walk.Guarded (s.walkStep v disk).1 := by
  rw [walkStep, step]
  cases s.enterFile v disk with
  | error halt => exact ⟨rfl, Walk.guarded_nil⟩
  | ok s =>
    obtain ⟨hresult, hguarded⟩ := Walk.does_element s.input.crossing s.input.stack
    simp only [bind, Except.bind]
    generalize Walk.element s.input.crossing s.input.stack = walked at hresult hguarded
    obtain ⟨acts, result⟩ := walked
    simp only at hresult hguarded
    subst hresult
    cases Recognition.element? s.input.crossing s.input.stack with
    | none => exact ⟨rfl, hguarded⟩
    | some found =>
      cases found with
      | ok found => exact ⟨rfl, hguarded⟩
      | error failure => exact ⟨rfl, hguarded⟩

/-- A step does what its walk does, and its acts are guarded. -/
theorem step_of_walkStep {acts : List Walk.Act} {result : Except (Halt σ) (Scan σ)}
    (h : s.walkStep v disk = (acts, result)) : s.step v disk = result ∧ Walk.Guarded acts := by
  obtain ⟨hresult, hguarded⟩ := walkStep_spec v disk s
  rw [h] at hresult hguarded
  exact ⟨hresult.symm, hguarded⟩

/-- A scan to the end of the input that looks ahead: all its acts, and what comes of it. -/
def walk (v : Visitor σ) (disk : Disk) (s : Scan σ) :
    List Walk.Act × Except (Halt σ) (Scan σ) :=
  if _hu : s.settle.input.stack.unread = [] then ([], s.settle.flush v disk)
  else
    match _hs : s.settle.walkStep v disk with
    | (acts, .error halt) => (acts, .error halt)
    | (acts, .ok s') => (walk v disk s').map (acts ++ ·) id
termination_by s.input.stack
decreasing_by exact Round.within ⟨_hu, (step_of_walkStep _hs).1⟩

/-- A scan that breaks off in its first step makes the acts of that step. -/
theorem walk_of_walkStep_error {halt : Halt σ} (hu : s.settle.input.stack.unread ≠ [])
    (h : (s.settle.walkStep v disk).2 = .error halt) :
    s.walk v disk = s.settle.walkStep v disk := by
  rw [walk, dif_neg hu]
  split
  · rename_i acts other hs
    exact hs.symm
  · rename_i acts s' hs
    rw [hs] at h
    cases h

/-- A scan that looks ahead comes to the same result. -/
theorem walk_snd (v : Visitor σ) (disk : Disk) (s : Scan σ) :
    (s.walk v disk).2 = s.run v disk := by
  fun_induction walk v disk s with
  | case1 s hu => exact (run_of_unread hu).symm
  | case2 s hu acts halt hs =>
    have hstep := (step_of_walkStep hs).1
    rw [run, dif_neg hu]
    split
    · rename_i other hother
      rw [hother] at hstep
      exact hstep.symm
    · rename_i s' hs'
      rw [hs'] at hstep
      cases hstep
  | case3 s hu acts s' hs ih =>
    rw [run_of_step hu (step_of_walkStep hs).1]
    exact ih

/-- All acts of a scan are guarded. -/
theorem guarded_walk (v : Visitor σ) (disk : Disk) (s : Scan σ) :
    Walk.Guarded (s.walk v disk).1 := by
  fun_induction walk v disk s with
  | case1 s hu => exact Walk.guarded_nil
  | case2 s hu acts halt hs => exact (step_of_walkStep hs).2
  | case3 s hu acts s' hs ih => exact (step_of_walkStep hs).2.append ih

end Scan

end ServerPages
