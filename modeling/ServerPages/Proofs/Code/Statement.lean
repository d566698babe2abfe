import ServerPages.Proofs.Code.Layout
import ServerPages.Proofs.Text.Split

/-!
# Statements and blocks

Whatever the layout of statements and blocks in brace syntax, they are laid out by indentation: each
simple statement and each heading on a line of its own, one level deeper for each block around it.
-/

namespace ServerPages

/-- Code on a single line that closes all it opens and is no block by itself. -/
structure Clause where
  /-- The code. -/
  text : Text
  /-- It begins with a character that is not blank. -/
  first : (text.head?.any fun c => !isBlank c) = true
  /-- It ends with a character that is not blank. -/
  last : (text.getLast?.any fun c => !isBlank c) = true
  /-- It holds no line break. -/
  oneLine : '\n' ∉ text
  /-- It holds no comment and no brace of a block. -/
  plain : ((({} : CodeContext).mark text).1.all fun m => m.2.isPlain) = true
  /-- Its strings and literals are closed. -/
  closed : { (({} : CodeContext).mark text).2 with afterColon := false } = ({} : CodeContext)

namespace Clause

variable (s : Clause)

/-- The characters of a clause with their roles. -/
def marks : List (Char × Role) := (({} : CodeContext).mark s.text).1

theorem map_fst_marks : s.marks.map Prod.fst = s.text := CodeContext.map_fst_mark {} s.text

theorem isPlain_of_mem_marks : ∀ m ∈ s.marks, m.2.isPlain = true := List.all_eq_true.mp s.plain

theorem eq_cons : ∃ c rest, s.text = c :: rest ∧ isBlank c = false := Text.exists_eq_cons s.first

theorem eq_concat : ∃ w z, s.text = w ++ [z] ∧ isBlank z = false := Text.exists_eq_concat s.last

/-- Whether a clause ends in a colon, which would open a block with a brace behind it. -/
def endsInColon : Bool := (({} : CodeContext).mark s.text).2.afterColon

/-- Behind a clause nothing is open. -/
theorem mark_append {u : Text} (hu : Quote.open? u = none) :
    (BraceSyntax.start.context false).mark (s.text ++ u) =
      ((BraceSyntax.start.context s.endsInColon).mark u).map (s.marks ++ ·) id := by
  have hlast : (({} : CodeContext).mark s.text).2 = BraceSyntax.start.context s.endsInColon := by
    have h := s.closed
    rw [endsInColon]
    generalize (({} : CodeContext).mark s.text).2 = x at h ⊢
    cases x
    simp_all [BraceSyntax.context, BraceSyntax.start]
  rw [← hlast]
  exact CodeContext.mark_append {} s.text hu

/-- A colon behind a clause is code. -/
theorem mark_append_colon :
    ({} : CodeContext).mark (s.text ++ [':']) =
      (s.marks ++ [(':', .code)], BraceSyntax.start.context true) := by
  have hcolon := CodeContext.read_colon (b := BraceSyntax.start) rfl s.endsInColon []
  have hmark := s.mark_append (u := [':']) rfl
  rwa [CodeContext.mark_cons hcolon] at hmark

/-- The clause with a colon behind it. -/
def withColon : Clause where
  text := s.text ++ [':']
  first := by
    obtain ⟨c, rest, hc, hb⟩ := s.eq_cons
    simp [hc, hb]
  last := by
    have hcolon : isBlank ':' = false := by decide
    simp [hcolon]
  oneLine := by simpa using s.oneLine
  plain := by
    rw [mark_append_colon, List.all_append]
    exact Bool.and_eq_true_iff.mpr ⟨s.plain, rfl⟩
  closed := by
    rw [mark_append_colon]
    rfl

theorem endsInColon_withColon : s.withColon.endsInColon = true :=
  congrArg (fun x => x.2.afterColon) s.mark_append_colon

end Clause

/-- A list of statements. -/
inductive Program where
  | nil
  | simple (s : Clause) (rest : Program)
  | block (heading : Clause) (children rest : Program)

namespace Program

/-- The lines of the statements with blocks by indentation. -/
def indented (unit : Text) (depth : Nat) : Program → List Text
  | nil => []
  | simple s rest => ((List.replicate depth unit).flatten ++ s.text) :: rest.indented unit depth
  | block heading children rest =>
    ((List.replicate depth unit).flatten ++ (heading.text ++ [':'])) ::
      (children.indented unit (depth + 1) ++ rest.indented unit depth)

/-- The ways to write statements in brace syntax. Blanks, line breaks among them, may stand behind
the braces of blocks and in front of the closing ones. A statement in front of another one ends its
line. -/
inductive Written : Program → Text → Prop
  | nil : Written nil []
  | blank {program : Program} {c : Char} {t : Text} :
      isBlank c = true → Written program t → Written program (c :: t)
  | last {s : Clause} {gap : Text} :
      Text.isBlank gap = true → Written (simple s nil) (s.text ++ gap)
  | simple {s : Clause} {rest : Program} {gap t : Text} :
      Text.isBlank gap = true → Written rest t →
      Written (simple s rest) (s.text ++ (gap ++ '\n' :: t))
  | block {heading : Clause} {children rest : Program} {gap inner t : Text} :
      Text.isBlank gap = true → '\n' ∉ gap → Written children inner → Written rest t →
      Written (block heading children rest)
        (heading.text ++ ':' :: (gap ++ '\x7b' :: (inner ++ '\x7d' :: t)))

end Program

/-- No brace of a block stands behind blanks in front of other code. -/
theorem leadsToOpener_append {marked : List (Char × Role)} (others : List (Char × Role))
    (hr : ∀ m ∈ marked, m.2.isPlain = true) {z : Char} (hz : isBlank z = false)
    (hlast : (marked.map Prod.fst).getLast? = some z) :
    leadsToOpener (marked ++ others) = false := by
  induction marked with
  | nil => cases hlast
  | cons m marked ih =>
    obtain ⟨c, role⟩ := m
    rw [List.forall_mem_cons] at hr
    have hrole : role ≠ .opener := by
      rintro rfl
      cases hr.1
    cases marked with
    | nil =>
      have hc : c = z := by simpa using hlast
      simp [leadsToOpener, hrole, hc, hz]
    | cons m' marked =>
      rw [List.cons_append, leadsToOpener, ih hr.2 (by simpa using hlast)]
      simp [hrole]

namespace LineState

variable {marked : List (Char × Role)} (others : List (Char × Role))

/-- Plain code goes on up to a character that is not blank. -/
theorem render_running (p : Printer) (hr : ∀ m ∈ marked, m.2.isPlain = true)
    (hn : '\n' ∉ marked.map Prod.fst)
    (hlast : ∀ z ∈ (marked.map Prod.fst).getLast?, isBlank z = false) :
    running.render p (marked ++ others) = marked.map Prod.fst ++ running.render p others := by
  induction marked with
  | nil => rfl
  | cons m marked ih =>
    obtain ⟨c, role⟩ := m
    rw [List.forall_mem_cons] at hr
    rw [List.map_cons, List.mem_cons, not_or] at hn
    have hbrace := Role.isBrace_of_isPlain hr.1
    have hlast' : ∀ z ∈ (marked.map Prod.fst).getLast?, isBlank z = false := by
      intro z hz
      refine hlast z ?_
      rw [Option.mem_def] at hz
      simp [List.getLast?_cons, hz]
    have hopening : isBlank c = true → leadsToOpener (marked ++ others) = false := by
      intro hc
      cases hz : (marked.map Prod.fst).getLast? with
      | none =>
        have hnil : marked = [] := by simpa using hz
        rw [hlast c (by simp [hnil])] at hc
        cases hc
      | some z => exact leadsToOpener_append others hr.2 (hlast' z hz) hz
    rw [List.cons_append, render_cons
      (step_of_isBrace_eq_false (Ne.symm hn.1) hbrace (fun hc _ => ⟨rfl, hopening hc⟩) p),
      p.shift_of_isBrace_eq_false hbrace, ih hr.2 hn.2 hlast']
    rfl

/-- Plain code between characters that are not blank is written at once, behind what is due in front
of it. -/
theorem render_text (s : LineState) (p : Printer) (hr : ∀ m ∈ marked, m.2.isPlain = true)
    (hn : '\n' ∉ marked.map Prod.fst) {c : Char} (hc : isBlank c = false)
    (hfirst : (marked.map Prod.fst).head? = some c)
    (hlast : ∀ z ∈ (marked.map Prod.fst).getLast?, isBlank z = false) :
    s.render p (marked ++ others) =
      s.lead p .code ++ (marked.map Prod.fst ++ running.render p others) := by
  have hrun := render_running others p hr hn hlast
  cases marked with
  | nil => cases hfirst
  | cons m marked =>
    obtain ⟨d, role⟩ := m
    obtain rfl : d = c := by simpa using hfirst
    rw [List.forall_mem_cons] at hr
    rw [List.map_cons, List.mem_cons, not_or] at hn
    have hlead : s.lead p role = s.lead p .code := by
      cases role with
      | code => rfl
      | string => cases s <;> rfl
      | comment | opener | closer => cases hr.1
    -- Only what is due in front of the first character depends on the state of the line.
    have hstep : ∀ s : LineState, s.render p ((d, role) :: (marked ++ others)) =
        s.lead p role ++ [d] ++ running.render (p.shift role) (marked ++ others) := fun s =>
      render_cons (step_of_isBrace_eq_false (Ne.symm hn.1) (Role.isBrace_of_isPlain hr.1)
        (fun hd => by rw [hc] at hd; cases hd) p)
    rw [List.cons_append, hstep] at hrun ⊢
    rw [← hrun, hlead]
    simp

end LineState

/-- No string opens with blanks. -/
theorem Quote.open?_append_of_isBlank {gap t : Text} (hg : Text.isBlank gap = true)
    (ht : open? t = none) : open? (gap ++ t) = none := by
  cases gap with
  | nil => exact ht
  | cons c gap =>
    obtain ⟨hc, -⟩ := Text.isBlank_cons.mp hg
    apply open?_eq_none
    · rintro rfl
      cases hc
    · rintro rfl
      cases hc

/-- Whatever comes next begins a line of its own. -/
def Text.IsBroken (t : Text) : Prop :=
  ∀ u, Text.shownLines (t ++ u) = Text.shownLines t ++ Text.shownLines u

theorem Text.isBroken_nil : Text.IsBroken [] := fun _ => rfl

/-- A line feed at the end of a text breaks it. -/
theorem Text.isBroken_append_break (t : Text) : Text.IsBroken (t ++ ['\n']) := by
  intro u
  rw [List.append_assoc, List.singleton_append, Text.shownLines_append_break,
    Text.shownLines_newline]

namespace BraceSyntax

/-- Reading a text in some state of the line, brace syntax writes these lines behind the ones that
have been written. It ends outside of strings and literals, and the printer ends as the given
one. -/
structure Yields (s : LineState) (afterColon : Bool) (p : Printer) (t : Text) (q : Printer)
    (lines : List Text) : Prop where
  /-- Nothing is left open. -/
  closed : ((start.context afterColon).mark t).2.carried = start
  /-- The printer at the end. -/
  printer : p.shiftAll ((start.context afterColon).mark t).1 = q
  /-- The lines that are written. -/
  shown : ∀ written, (s = .fresh → Text.IsBroken written) →
    Text.shownLines (written ++ s.render p ((start.context afterColon).mark t).1) =
      Text.shownLines written ++ lines

namespace Yields

variable {s next : LineState} {afterColon after : Bool} {p q : Printer} {c : Char} {t text : Text}
  {role : Role} {lines : List Text}

theorem nil (s : LineState) (afterColon : Bool) (p : Printer) : Yields s afterColon p [] p [] :=
  ⟨rfl, rfl, fun written _ => by simp [CodeContext.mark, LineState.render]⟩

/-- A character for which no line is added. -/
theorem cons (hread : (start.context afterColon).read c t = (role, start.context after))
    (hstep : s.step p c role (leadsToOpener ((start.context after).mark t).1) = (text, next))
    (htext : ∀ written, (s = .fresh → Text.IsBroken written) →
      Text.shownLines (written ++ text) = Text.shownLines written ∧
        (next = .fresh → Text.IsBroken (written ++ text)))
    (h : Yields next after (p.shift role) t q lines) : Yields s afterColon p (c :: t) q lines := by
  have hmark := CodeContext.mark_cons hread
  refine ⟨?_, ?_, fun written hw => ?_⟩
  · rw [hmark]
    exact h.closed
  · rw [hmark]
    exact h.printer
  · obtain ⟨hshown, hbroken⟩ := htext written hw
    rw [hmark, Prod.map_fst, LineState.render_cons hstep, ← List.append_assoc,
      h.shown (written ++ text) hbroken, hshown]

/-- A character for which nothing is written. -/
theorem drop (hread : (start.context afterColon).read c t = (role, start.context after))
    (hstep : s.step p c role (leadsToOpener ((start.context after).mark t).1) = ([], next))
    (hnext : next = .fresh → s = .fresh) (h : Yields next after (p.shift role) t q lines) :
    Yields s afterColon p (c :: t) q lines := by
  refine cons hread hstep (fun written hw => ?_) h
  rw [List.append_nil]
  exact ⟨rfl, fun hfresh => hw (hnext hfresh)⟩

/-- A character for which the line is ended. -/
theorem endLine (hread : (start.context afterColon).read c t = (role, start.context after))
    (hstep : s.step p c role (leadsToOpener ((start.context after).mark t).1) = (['\n'], next))
    (h : Yields next after (p.shift role) t q lines) : Yields s afterColon p (c :: t) q lines :=
  cons hread hstep (fun written _ => ⟨Text.shownLines_newline written,
    fun _ => Text.isBroken_append_break written⟩) h

/-- A line break ends a line, whatever has been written. -/
theorem newline (h : Yields .fresh false p t q lines) :
    Yields s afterColon p ('\n' :: t) q lines := by
  have hread : (start.context afterColon).read '\n' t = (.code, start.context false) := rfl
  exact endLine hread rfl h

/-- A blank adds no line, be it written or not. -/
theorem blank (hc : isBlank c = true) (hn : c ≠ '\n') (h : Yields s afterColon p t q lines) :
    Yields s afterColon p (c :: t) q lines := by
  have hread := CodeContext.read_blank (b := start) rfl hn hc afterColon t
  by_cases hdrop : s ≠ .running ∨ leadsToOpener ((start.context afterColon).mark t).1 = true
  · have hstep : s.step p c .code (leadsToOpener ((start.context afterColon).mark t).1) =
        ([], s) := by
      simp [LineState.step, hn, hc, hdrop]
    exact drop hread hstep id h
  · obtain ⟨hs, hopening⟩ := not_or.mp hdrop
    obtain rfl : s = .running := Classical.not_not.mp hs
    refine cons hread (LineState.step_of_isBrace_eq_false hn rfl
      (fun _ _ => ⟨rfl, Bool.eq_false_iff.mpr hopening⟩) p)
      (fun written _ => ⟨?_, fun hfresh => ?_⟩) h
    · exact Text.shownLines_append_blank hn hc written
    · exact absurd hfresh (by decide)

/-- A blank or a line break, be it written or not. -/
theorem skip (hc : isBlank c = true) (hfresh : Yields .fresh false p t q lines)
    (h : Yields s afterColon p t q lines) : Yields s afterColon p (c :: t) q lines := by
  by_cases hn : c = '\n'
  · subst hn
    exact newline hfresh
  · exact blank hc hn h

/-- The end of a block ends its line. -/
theorem close (h : ∀ s, s ≠ .running → Yields s false p.dedent t q lines) :
    Yields s afterColon p ('\x7d' :: t) q lines := by
  have hread : (start.context afterColon).read '\x7d' t = (.closer, start.context false) :=
    CodeContext.read_closeBrace rfl afterColon t
  cases s with
  | fresh => exact drop hread rfl id (h .fresh (by decide))
  | running => exact drop hread rfl (by decide) (h .ended (by decide))
  | ended | opened => exact endLine hread rfl (h .fresh (by decide))

/-- The brace of a block opens a level. -/
theorem opening (h : Yields .opened false p.indent t q lines) :
    Yields .running true p ('\x7b' :: t) q lines := by
  have hread : (start.context true).read '\x7b' t = (.opener, start.context false) :=
    CodeContext.read_openBrace rfl true t
  exact drop hread rfl (by decide) h

/-- Blanks, line breaks among them, add no line. -/
theorem gap {gap : Text} (hg : Text.isBlank gap = true)
    (h : ∀ s afterColon, Yields s afterColon p t q lines) (s : LineState) (afterColon : Bool) :
    Yields s afterColon p (gap ++ t) q lines := by
  induction gap generalizing s afterColon with
  | nil => exact h s afterColon
  | cons c gap ih =>
    obtain ⟨hc, hgap⟩ := Text.isBlank_cons.mp hg
    exact skip hc (ih hgap .fresh false) (ih hgap s afterColon)

/-- Blanks within a line add no line. -/
theorem blanks {gap : Text} (hg : Text.isBlank gap = true) (hn : '\n' ∉ gap)
    (h : Yields s afterColon p t q lines) : Yields s afterColon p (gap ++ t) q lines := by
  induction gap with
  | nil => exact h
  | cons c gap ih =>
    obtain ⟨hc, hgap⟩ := Text.isBlank_cons.mp hg
    rw [List.mem_cons, not_or] at hn
    exact blank hc (Ne.symm hn.1) (ih hgap hn.2)

/-- What is due in front of a clause ends the line before it and indents it. -/
theorem shownLines_lead (hs : s ≠ .running) (hp : p.userIndent = []) (u : Clause) {written : Text}
    (hw : s = .fresh → Text.IsBroken written) :
    Text.shownLines (written ++ (s.lead p .code ++ u.text)) =
      Text.shownLines written ++ [(List.replicate p.depth p.unit).flatten ++ u.text] := by
  have hline : Text.shownLines (p.indentation ++ u.text) =
      [(List.replicate p.depth p.unit).flatten ++ u.text] := by
    obtain ⟨w, z, hz, hb⟩ := u.eq_concat
    have hunits : '\n' ∉ (List.replicate p.depth p.unit).flatten := fun hm => by
      obtain ⟨unit, hunit, hm⟩ := List.mem_flatten.mp hm
      exact p.newline_not_mem_unit (List.eq_of_mem_replicate hunit ▸ hm)
    have hn : '\n' ∉ (List.replicate p.depth p.unit).flatten ++ w ++ [z] := by
      rw [List.append_assoc, ← hz, List.mem_append, not_or]
      exact ⟨hunits, u.oneLine⟩
    rw [Printer.indentation_eq hp, hz, ← List.append_assoc, Text.shownLines_line hn hb]
  cases s with
  | running => exact absurd rfl hs
  | fresh => exact (hw rfl _).trans (congrArg _ hline)
  | ended | opened => exact (Text.shownLines_append_break written _).trans (congrArg _ hline)

/-- A clause that begins a line and is the whole of it. -/
theorem clause {u : Clause} (hs : s ≠ .running) (hp : p.userIndent = [])
    (ht : Quote.open? t = none) (h : Yields .running u.endsInColon p t q lines) :
    Yields s false p (u.text ++ t) q
      (((List.replicate p.depth p.unit).flatten ++ u.text) :: lines) := by
  have hmark := u.mark_append ht
  have hbrace : ∀ m ∈ u.marks, m.2.isBrace = false := fun m hm =>
    Role.isBrace_of_isPlain (u.isPlain_of_mem_marks m hm)
  refine ⟨?_, ?_, fun written hw => ?_⟩
  · rw [hmark]
    exact h.closed
  · rw [hmark]
    exact (Printer.shiftAll_append hbrace p _).trans h.printer
  · obtain ⟨c, rest, hc, hfirst⟩ := u.eq_cons
    obtain ⟨w, z, hz, hlast⟩ := u.eq_concat
    have hrender : s.render p (u.marks ++ ((start.context u.endsInColon).mark t).1) =
        s.lead p .code ++ (u.text ++
          LineState.running.render p ((start.context u.endsInColon).mark t).1) := by
      rw [LineState.render_text _ s p u.isPlain_of_mem_marks (c := c), u.map_fst_marks]
      · rw [u.map_fst_marks]
        exact u.oneLine
      · exact hfirst
      · rw [u.map_fst_marks, hc]
        rfl
      · rw [u.map_fst_marks, hz]
        simpa using hlast
    have hshown := h.shown (written ++ (s.lead p .code ++ u.text)) fun hfresh =>
      absurd hfresh (by decide)
    rw [hmark, Prod.map_fst, hrender]
    simp only [List.append_assoc] at hshown ⊢
    rw [hshown, shownLines_lead hs hp u hw, List.append_assoc]
    rfl

/-- The heading of a block, up to the brace that opens it. -/
theorem heading {u : Clause} {gap : Text} (hg : Text.isBlank gap = true) (hn : '\n' ∉ gap)
    (hs : s ≠ .running) (hp : p.userIndent = []) (h : Yields .opened false p.indent t q lines) :
    Yields s false p (u.text ++ ':' :: (gap ++ '\x7b' :: t)) q
      (((List.replicate p.depth p.unit).flatten ++ (u.text ++ [':'])) :: lines) := by
  have hbrace : Quote.open? (gap ++ '\x7b' :: t) = none := Quote.open?_append_of_isBlank hg rfl
  have hopening : Yields .running u.withColon.endsInColon p (gap ++ '\x7b' :: t) q lines := by
    rw [u.endsInColon_withColon]
    exact blanks hg hn (opening h)
  have hline := clause hs hp hbrace hopening
  rwa [show u.withColon.text = u.text ++ [':'] from rfl, List.append_assoc] at hline

end Yields

end BraceSyntax

namespace Program

open BraceSyntax

/-- However statements are written, they yield the lines of their blocks by indentation, and leave
the printer to what follows as they found it. -/
theorem yields_of_written {program : Program} {t : Text} (hw : Written program t) {p q : Printer}
    (hp : p.userIndent = []) (hf : p.floor ≤ p.depth) {rest : Text} {lines : List Text}
    (hrest : Quote.open? rest = none)
    (h : ∀ s afterColon, Yields s afterColon p rest q lines) {s : LineState} (hs : s ≠ .running) :
    Yields s false p (t ++ rest) q (program.indented p.unit p.depth ++ lines) := by
  induction hw generalizing p q rest lines s with
  | nil => exact h s false
  | @blank program c t hc _ ih =>
    exact .skip hc (ih hp hf hrest h (by decide)) (ih hp hf hrest h hs)
  | @last u gap hg =>
    rw [List.append_assoc]
    exact .clause hs hp (Quote.open?_append_of_isBlank hg hrest) (.gap hg h .running _)
  | @simple u rest' gap t hg _ ih =>
    have hnext : ∀ s afterColon, Yields s afterColon p ('\n' :: (t ++ rest)) q
        (rest'.indented p.unit p.depth ++ lines) := fun s afterColon =>
      .newline (ih hp hf hrest h (by decide))
    rw [List.append_assoc, List.append_assoc]
    exact .clause hs hp (Quote.open?_append_of_isBlank hg rfl) (.gap hg hnext .running _)
  | @block u children rest' gap inner t hg hn _ _ ihchildren ihrest =>
    -- Behind the end of the block the printer is the one in front of its heading.
    have hclose : ∀ s afterColon, Yields s afterColon p.indent ('\x7d' :: (t ++ rest)) q
        (rest'.indented p.unit p.depth ++ lines) := fun s afterColon =>
      .close fun s hs => by
        rw [Printer.dedent_indent hf]
        exact ihrest hp hf hrest h hs
    have hinner : Yields .opened false p.indent (inner ++ '\x7d' :: (t ++ rest)) q
        (children.indented p.unit (p.depth + 1) ++ (rest'.indented p.unit p.depth ++ lines)) :=
      ihchildren (p := p.indent) hp (Nat.le_succ_of_le hf) rfl hclose (by decide)
    simpa [indented] using Yields.heading (u := u) hg hn hs hp hinner

end Program

namespace BraceSyntax

/-- However the layout of statements in brace syntax is chosen, they are laid out as the lines of
their blocks by indentation, but for blank lines and blanks at the ends of lines. Nothing is left
open, and the level is the one before. -/
theorem lines_of_written {program : Program} {t : Text} (hw : program.Written t) {p : Printer}
    (hp : p.userIndent = []) (hf : p.floor ≤ p.depth) :
    ∃ out, start.lines p (t.splitOn '\n') = (start, p.write out) ∧
      Text.shownLines out = program.indented p.unit p.depth := by
  have hend : ∀ s afterColon, Yields s afterColon p ['\n'] p [] := fun s afterColon =>
    .newline (.nil .fresh false p)
  have hyields := Program.yields_of_written hw hp hf rfl hend (s := .fresh) (by decide)
  have hlines := lines_follows (b := start) (p := p) (Text.not_mem_of_mem_splitOn (t := t))
  rw [Text.unlines_splitOn, Follows, hyields.closed, hyields.printer] at hlines
  refine ⟨_, hlines, (hyields.shown [] fun _ => Text.isBroken_nil).trans ?_⟩
  rw [List.append_nil]
  rfl

end BraceSyntax

namespace Clause

/-- A literal that holds a brace in a string. -/
def assignment : Clause :=
  ⟨"d = \x7b1: '\x7d'\x7d", by decide +kernel, by decide +kernel, by decide +kernel,
    by decide +kernel, by decide +kernel⟩

/-- The heading of a loop. -/
def loop : Clause :=
  ⟨"for c in b", by decide +kernel, by decide +kernel, by decide +kernel, by decide +kernel,
    by decide +kernel⟩

/-- The heading of a condition, with a colon in it. -/
def condition : Clause :=
  ⟨"if c[1:]", by decide +kernel, by decide +kernel, by decide +kernel, by decide +kernel,
    by decide +kernel⟩

end Clause

namespace Program

/-- A statement and a condition in a loop, and a statement behind it. -/
def nested : Program :=
  block .loop (simple .assignment (block .condition (simple .assignment nil) nil))
    (simple .assignment nil)

/-- Both blocks end in the line in which the inner one begins, and a statement follows there. -/
theorem written_nested : nested.Written
    ("for c in b:\x7b d = \x7b1: '\x7d'\x7d\n if c[1:]: \x7bd = \x7b1: '\x7d'\x7d \x7d\x7d\t" ++
      "d = \x7b1: '\x7d'\x7d\n").toList := by
  have hcondition := @Written.block .condition (simple .assignment nil) nil [' '] _ [] rfl
    (by decide) (@Written.last .assignment [' '] rfl) .nil
  have hchildren := Written.blank (c := ' ') rfl
    (@Written.simple .assignment _ [] _ rfl (.blank (c := ' ') rfl hcondition))
  have hrest := Written.blank (c := '\t') rfl (@Written.last .assignment ['\n'] rfl)
  have hnested := @Written.block .loop _ _ [] _ _ rfl (by decide) hchildren hrest
  refine (congrArg (Written nested) ?_).mp hnested
  decide +kernel

end Program

namespace BraceSyntax

/-- The loop in three lines, on a level that cannot be closed. -/
theorem lines_of_written_nested :
    ∃ out, start.lines ⟨[], 1, 1, .braces, 2, [], 0⟩
        ["for c in b:\x7b d = \x7b1: '\x7d'\x7d",
          " if c[1:]: \x7bd = \x7b1: '\x7d'\x7d \x7d\x7d\td = \x7b1: '\x7d'\x7d", ""] =
        (start, (⟨[], 1, 1, .braces, 2, [], 0⟩ : Printer).write out) ∧
      Text.shownLines out = ["  for c in b:".toList, "    d = \x7b1: '\x7d'\x7d".toList,
        "    if c[1:]:".toList, "      d = \x7b1: '\x7d'\x7d".toList,
        "  d = \x7b1: '\x7d'\x7d".toList] := by
  obtain ⟨out, hlines, hshown⟩ :=
    lines_of_written Program.written_nested (p := ⟨[], 1, 1, .braces, 2, [], 0⟩) rfl (Nat.le_refl 1)
  refine ⟨out, (congrArg (start.lines _) ?_).trans hlines, hshown.trans ?_⟩
  · decide +kernel
  · decide +kernel

end BraceSyntax

end ServerPages
