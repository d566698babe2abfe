import ServerPages.Proofs.Code.Role

/-!
# Layout by roles

The layout of brace syntax depends on the roles of the characters alone. Reading the characters with
their roles one after the other, it is enough to know what has been written of the current line.
-/

namespace ServerPages

namespace Printer

/-- The braces of blocks open and close levels. -/
def shift (p : Printer) : Role → Printer
  | .opener => p.indent
  | .closer => p.dedent
  | _ => p

/-- The level at which a script leaves off. -/
def shiftAll (p : Printer) (marked : List (Char × Role)) : Printer :=
  marked.foldl (fun p m => p.shift m.2) p

/-- Closing a level does not depend on what has been written. -/
theorem dedent_write (p : Printer) (t : Text) : (p.write t).dedent = p.dedent.write t := by
  by_cases h : p.floor < p.depth
  · rw [dedent, dedent, if_pos h, if_pos (show (p.write t).floor < (p.write t).depth from h)]
    rfl
  · rw [dedent, dedent, if_neg h, if_neg (show ¬(p.write t).floor < (p.write t).depth from h)]

/-- The levels do not depend on what has been written. -/
@[simp] theorem shift_write (p : Printer) (t : Text) (role : Role) :
    (p.write t).shift role = (p.shift role).write t := by
  cases role with
  | closer => exact dedent_write p t
  | _ => rfl

/-- All other characters leave the level as it is. -/
theorem shift_of_isBrace_eq_false (p : Printer) {role : Role} (h : role.isBrace = false) :
    p.shift role = p := by
  cases role with
  | opener | closer => cases h
  | code | string | comment => rfl

/-- The level at which a script leaves off does not depend on what has been written. -/
@[simp] theorem shiftAll_write (p : Printer) (t : Text) (marked : List (Char × Role)) :
    (p.write t).shiftAll marked = (p.shiftAll marked).write t := by
  induction marked generalizing p with
  | nil => rfl
  | cons m marked ih =>
    rw [shiftAll, List.foldl_cons, shift_write]
    exact ih (p.shift m.2)

/-- Characters other than the braces of blocks leave the level as it is. -/
theorem shiftAll_append {marked : List (Char × Role)} (h : ∀ m ∈ marked, m.2.isBrace = false)
    (p : Printer) (others : List (Char × Role)) :
    p.shiftAll (marked ++ others) = p.shiftAll others := by
  induction marked with
  | nil => rfl
  | cons m marked ih =>
    rw [List.forall_mem_cons] at h
    rw [List.cons_append, shiftAll, List.foldl_cons, p.shift_of_isBrace_eq_false h.1]
    exact ih h.2

/-- A character that is no brace of a block may be left out between two parts of a script. -/
theorem shiftAll_append_cons {role : Role} (h : role.isBrace = false) (p : Printer) (c : Char)
    (marked others : List (Char × Role)) :
    p.shiftAll (marked ++ (c, role) :: others) = (p.shiftAll marked).shiftAll others := by
  rw [shiftAll, List.foldl_append, List.foldl_cons, shift_of_isBrace_eq_false _ h]
  rfl

end Printer

/-- Whether only blanks of the line stand in front of the brace of a block. -/
def leadsToOpener : List (Char × Role) → Bool
  | [] => false
  | (c, role) :: rest => role = .opener || isBlank c && c ≠ '\n' && leadsToOpener rest

/-- Blanks of code do not hide the brace of a block behind them. -/
theorem leadsToOpener_blanks {gap : Text} (hg : Text.isBlank gap = true) (hn : '\n' ∉ gap)
    (marked : List (Char × Role)) :
    leadsToOpener (gap.map (·, .code) ++ marked) = leadsToOpener marked := by
  induction gap with
  | nil => rfl
  | cons c gap ih =>
    rw [List.mem_cons, not_or] at hn
    obtain ⟨hc, hgap⟩ := Text.isBlank_cons.mp hg
    simp [leadsToOpener, hc, Ne.symm hn.1, ih hgap hn.2]

/-- No block opens behind the end of the line. -/
theorem leadsToOpener_append_break {role : Role} (hr : role.isBrace = false)
    (marked others : List (Char × Role)) :
    leadsToOpener (marked ++ ('\n', role) :: others) = leadsToOpener marked := by
  induction marked with
  | nil =>
    have hopener : role ≠ .opener := by
      rintro rfl
      cases hr
    simp [leadsToOpener, hopener]
  | cons m marked ih => simp only [List.cons_append, leadsToOpener, ih]

/-- What has been written of the current line. -/
inductive LineState where
  /-- Nothing, not even the indentation. -/
  | fresh
  /-- Text that may go on. -/
  | running
  /-- Text in front of the end of a block. -/
  | ended
  /-- The heading of a block. -/
  | opened
  deriving DecidableEq, Repr

namespace LineState

/-- The state in which a line is laid out. -/
def ofStarted (started : Bool) : LineState := if started then running else fresh

/-- The line break that is due before anything else. -/
def finish : LineState → Text
  | fresh | running => []
  | ended | opened => ['\n']

/-- What comes in front of a text. A comment may stand behind the heading of a block. -/
def lead (s : LineState) (p : Printer) (role : Role) : Text :=
  match s with
  | fresh => p.indentation
  | running => []
  | ended => '\n' :: p.indentation
  | opened => if role = .comment then [' '] else '\n' :: p.indentation

@[simp] theorem lead_running (p : Printer) (role : Role) : running.lead p role = [] := rfl

/-- What is written for a character, and the state behind it. Blanks of code are dropped at the
beginning of a line and between a colon and the brace of a block. -/
def step (s : LineState) (p : Printer) (c : Char) (role : Role) (opening : Bool) :
    Text × LineState :=
  if c = '\n' then (['\n'], if role = .code then fresh else running)
  else
    match role with
    | .opener => (s.finish, opened)
    | .closer => (s.finish, if s = running then ended else fresh)
    | .code =>
      if isBlank c ∧ (s ≠ running ∨ opening) then ([], s) else (s.lead p role ++ [c], running)
    | .string | .comment => (s.lead p role ++ [c], running)

/-- What is written for characters with their roles. -/
def render (s : LineState) (p : Printer) : List (Char × Role) → Text
  | [] => []
  | (c, role) :: rest =>
    let stepped := s.step p c role (leadsToOpener rest)
    stepped.1 ++ stepped.2.render (p.shift role) rest

/-- The text for a character stands in front of the text for the rest. -/
theorem render_cons {s next : LineState} {p : Printer} {c : Char} {role : Role}
    {rest : List (Char × Role)} {text : Text}
    (h : s.step p c role (leadsToOpener rest) = (text, next)) :
    s.render p ((c, role) :: rest) = text ++ next.render (p.shift role) rest := by
  rw [render, h]

theorem step_write (s : LineState) (p : Printer) (t : Text) (c : Char) (role : Role)
    (opening : Bool) : s.step (p.write t) c role opening = s.step p c role opening := rfl

/-- A character that is no brace of a block is written, unless it is a blank of code. -/
theorem step_of_isBrace_eq_false {s : LineState} {c : Char} {role : Role} {opening : Bool}
    (hn : c ≠ '\n') (hr : role.isBrace = false)
    (hblank : isBlank c = true → role = .code → s = running ∧ opening = false) (p : Printer) :
    s.step p c role opening = (s.lead p role ++ [c], running) := by
  cases role with
  | opener | closer => cases hr
  | string | comment => simp [step, hn]
  | code =>
    have hkeep : ¬(isBlank c = true ∧ (s ≠ running ∨ opening = true)) := by
      rintro ⟨hc, hdrop⟩
      obtain ⟨hs, hopen⟩ := hblank hc rfl
      rw [hs, hopen] at hdrop
      simp at hdrop
    simp only [step, if_neg hn, if_neg hkeep]

/-- A line break that is due comes in front of a character that is not blank. -/
theorem step_of_finish {s : LineState} {c : Char} {role : Role} (hc : isBlank c = false)
    (hs : s = ended ∨ s = opened ∧ role ≠ .comment) (p : Printer) (opening : Bool) :
    s.step p c role opening =
      ('\n' :: (fresh.step p c role opening).1, (fresh.step p c role opening).2) := by
  have hn : c ≠ '\n' := by
    rintro rfl
    cases hc
  rcases hs with rfl | ⟨rfl, hr⟩ <;> cases role <;> simp_all [step, finish, lead]

/-- What is written for a script does not depend on what has been written before it. -/
@[simp] theorem render_write (s : LineState) (p : Printer) (t : Text)
    (marked : List (Char × Role)) : s.render (p.write t) marked = s.render p marked := by
  induction marked generalizing s p with
  | nil => rfl
  | cons m marked ih =>
    obtain ⟨c, role⟩ := m
    simp only [render, step_write, Printer.shift_write, ih]

/-- The end of a line is written, whatever the state, and another line begins. -/
theorem render_append_break {role : Role} (hr : role.isBrace = false) (s : LineState) (p : Printer)
    (marked others : List (Char × Role)) :
    s.render p (marked ++ ('\n', role) :: others) =
      s.render p marked ++
        '\n' :: (if role = .code then fresh else running).render (p.shiftAll marked) others := by
  induction marked generalizing s p with
  | nil =>
    have hshift := p.shift_of_isBrace_eq_false hr
    simp [render, step, hshift, Printer.shiftAll]
  | cons m marked ih =>
    obtain ⟨c, role'⟩ := m
    rw [List.cons_append, render, render, leadsToOpener_append_break hr]
    simp only [ih, List.append_assoc]
    rfl

end LineState

namespace BraceSyntax

/-- Laying out ends as the roles of the characters tell. -/
def Follows (s : LineState) (p : Printer) (x : List (Char × Role) × CodeContext)
    (y : BraceSyntax × Printer) : Prop :=
  y = (x.2.carried, (p.shiftAll x.1).write (s.render p x.1))

namespace Follows

variable {s next : LineState} {p : Printer} {x : List (Char × Role) × CodeContext}
  {y : BraceSyntax × Printer}

/-- Laying out follows the roles of the characters one by one. -/
theorem cons {c : Char} {role : Role} {text : Text}
    (hstep : s.step p c role (leadsToOpener x.1) = (text, next))
    (h : Follows next ((p.shift role).write text) x y) :
    Follows s p (x.map ((c, role) :: ·) id) y := by
  have hrender : s.render p ((c, role) :: x.1) = text ++ next.render (p.shift role) x.1 :=
    LineState.render_cons hstep
  rw [Follows] at h ⊢
  rw [h, Printer.shiftAll_write, LineState.render_write, Printer.write_write, Prod.map_fst, hrender]
  rfl

theorem of_nil (x : CodeContext) : Follows s p ([], x) (x.carried, p) := rfl

/-- A character that is written as it is. -/
theorem write {c : Char} {role : Role} (hn : c ≠ '\n') (hr : role.isBrace = false)
    (hblank : isBlank c = true → role = .code → s = .running ∧ leadsToOpener x.1 = false)
    (h : Follows .running (p.write (s.lead p role ++ [c])) x y) :
    Follows s p (x.map ((c, role) :: ·) id) y := by
  refine cons (LineState.step_of_isBrace_eq_false hn hr hblank p) ?_
  rwa [p.shift_of_isBrace_eq_false hr]

/-- A character of a string or a comment is written as it is. -/
theorem writeVerbatim {c : Char} {role : Role} (hn : c ≠ '\n') (hr : role.isVerbatim = true)
    (h : Follows .running (p.write (s.lead p role ++ [c])) x y) :
    Follows s p (x.map ((c, role) :: ·) id) y := by
  refine write hn (Role.isBrace_of_isVerbatim hr) (fun _ hcode => ?_) h
  rw [hcode] at hr
  cases hr

/-- Text of a string or a comment goes on as it is. -/
theorem writeAll {role : Role} (hr : role.isVerbatim = true) {t : Text} (hn : '\n' ∉ t)
    (h : Follows .running (p.write t) x y) :
    Follows .running p (x.map (t.map (·, role) ++ ·) id) y := by
  induction t generalizing p with
  | nil => exact h
  | cons c t ih =>
    rw [List.mem_cons, not_or] at hn
    refine writeVerbatim (x := x.map (t.map (·, role) ++ ·) id) (Ne.symm hn.1) hr (ih hn.2 ?_)
    simpa using h

/-- Text of a string or a comment that begins a line or goes on. -/
theorem writeText {role : Role} (hr : role.isVerbatim = true) {t : Text} (ht : t ≠ [])
    (hn : '\n' ∉ t) (h : Follows .running (p.write (s.lead p role ++ t)) x y) :
    Follows s p (x.map (t.map (·, role) ++ ·) id) y := by
  obtain ⟨c, t, rfl⟩ := List.exists_cons_of_ne_nil ht
  rw [List.mem_cons, not_or] at hn
  refine writeVerbatim (x := x.map (t.map (·, role) ++ ·) id) (Ne.symm hn.1) hr
    (writeAll hr hn.2 ?_)
  simpa using h

/-- Blanks are dropped at the beginning of a line and in front of the brace of a block. -/
theorem blanks {gap : Text} (hg : Text.isBlank gap = true) (hn : '\n' ∉ gap)
    (hs : s ≠ .running ∨ leadsToOpener x.1 = true) (h : Follows s p x y) :
    Follows s p (x.map (gap.map (·, .code) ++ ·) id) y := by
  induction gap with
  | nil => exact h
  | cons c gap ih =>
    rw [List.mem_cons, not_or] at hn
    obtain ⟨hc, hgap⟩ := Text.isBlank_cons.mp hg
    have hs' : s ≠ .running ∨ leadsToOpener (gap.map (·, Role.code) ++ x.1) = true := by
      rwa [leadsToOpener_blanks hgap hn.2]
    have hstep : s.step p c .code (leadsToOpener (gap.map (·, Role.code) ++ x.1)) = ([], s) := by
      simp [LineState.step, Ne.symm hn.1, hc, hs']
    have hrest : Follows s ((p.shift .code).write []) (gap.map (·, .code) ++ x.1, x.2) y :=
      ih hgap hn.2
    have hdropped := cons (x := (gap.map (·, .code) ++ x.1, x.2)) hstep hrest
    exact hdropped

/-- A line break that is due comes in front of a character that is not blank. -/
theorem finish {c : Char} {role : Role} (hc : isBlank c = false)
    (hs : s = .ended ∨ s = .opened ∧ role ≠ .comment)
    (h : Follows .fresh p.newline (x.map ((c, role) :: ·) id) y) :
    Follows s p (x.map ((c, role) :: ·) id) y := by
  have hrender : s.render p ((c, role) :: x.1) =
      '\n' :: LineState.fresh.render p ((c, role) :: x.1) := by
    rw [LineState.render_cons (LineState.step_of_finish hc hs p _)]
    rfl
  rw [Follows, Printer.newline, Printer.shiftAll_write, LineState.render_write,
    Printer.write_write] at h
  rw [Follows, h, Prod.map_fst, hrender]
  rfl

/-- A line break that is due comes in front of code that does not begin with a blank. -/
theorem finish_mark {z : CodeContext} (hz : z.comment = false) {t : Text} (hne : t ≠ [])
    (hfirst : ∀ c ∈ t.head?, isBlank c = false)
    (hs : s = .ended ∨ s = .opened ∧ t.head? ≠ some '#')
    (h : Follows .fresh p.newline (z.mark t) y) : Follows s p (z.mark t) y := by
  obtain ⟨c, t, rfl⟩ := List.exists_cons_of_ne_nil hne
  refine finish (hfirst c rfl) (hs.imp_right fun ho => ⟨ho.1, fun hr => ho.2 ?_⟩) h
  rw [CodeContext.of_read_eq_comment hz hr]
  rfl

/-- Behind the end of a line the next line follows. -/
theorem append_break (h : Follows s p x y) {u : Text} {w : BraceSyntax × Printer}
    (hu : Follows (LineState.ofStarted x.2.quote?.isSome) y.2.newline
      ((x.2.carried.context false).mark u) w) :
    Follows s p ((x.2.mark ('\n' :: u)).map (x.1 ++ ·) id) w := by
  let role : Role := if x.2.quote?.isSome then .string else .code
  have hread : x.2.read '\n' u = (role, x.2.carried.context false) := rfl
  have hbrace : role.isBrace = false := by
    cases hq : x.2.quote? <;> simp [role, hq, Role.isBrace]
  have hstate : (if role = .code then .fresh else .running) =
      LineState.ofStarted x.2.quote?.isSome := by
    cases hq : x.2.quote? <;> simp [role, hq, LineState.ofStarted]
  rw [Follows] at h hu
  rw [CodeContext.mark_cons hread, Follows, hu, h]
  simp only [Prod.map_fst, Prod.map_snd, LineState.render_append_break hbrace, hstate,
    Printer.shiftAll_append_cons hbrace, Printer.newline, Printer.shiftAll_write,
    LineState.render_write, Printer.write_write, List.append_assoc, List.singleton_append]
  rfl

end Follows

variable {b : BraceSyntax}

/-- What holds where laying out goes on in a line. -/
structure Continues (b : BraceSyntax) (started afterColon : Bool) (rest : Text) : Prop where
  /-- The line ends with the text. -/
  oneLine : '\n' ∉ rest
  /-- A string goes on. -/
  inString : b.quote?.isSome = true → started = true ∧ afterColon = false
  /-- A line does not begin with a blank. -/
  first : started = false → ∀ c ∈ rest.head?, isBlank c = false
  /-- No block opens here. -/
  noBlock : afterColon = true → b.level = 0 → blockTail? rest = none

/-- A block opens behind blanks as it opens without them. -/
theorem blockTail?_blank {c : Char} (hc : isBlank c = true) (t : Text) :
    blockTail? (c :: t) = blockTail? t := by
  have htrim : Text.trimStart (c :: t) = Text.trimStart t := List.dropWhile_cons_of_pos hc
  rw [blockTail?, blockTail?, htrim]

/-- A brace opens a block, and the rest of the line without leading blanks stands in it. -/
theorem blockTail?_brace {t : Text} (hn : '\n' ∉ t) :
    blockTail? ('\x7b' :: t) = some (Text.trimStart t) := by
  have htrim : Text.trimStart ('\x7b' :: t) = '\x7b' :: t := Text.trimStart_cons (by decide) t
  simp [blockTail?, htrim, Text.not_mem_trimStart hn]

/-- The line behind a colon, when a block opens. -/
theorem eq_of_blockTail? {t tail : Text} (h : blockTail? t = some tail) :
    ∃ before after, Text.isBlank before = true ∧ Text.isBlank after = true ∧
      t = before ++ '\x7b' :: (after ++ tail) ∧ ∀ c ∈ tail.head?, isBlank c = false := by
  unfold blockTail? at h
  split at h
  · rename_i more hm
    split at h
    · cases h
    · cases h
      refine ⟨t.leadingBlanks, Text.leadingBlanks more, t.isBlank_leadingBlanks,
        Text.isBlank_leadingBlanks more, ?_, Text.head?_trimStart more⟩
      rw [Text.leadingBlanks_append_trimStart, ← hm, Text.leadingBlanks_append_trimStart]
  · cases h

/-- What stands behind the brace of a block is part of the line. -/
theorem oneLine_of_blockTail? {t tail : Text} (h : blockTail? t = some tail) (hn : '\n' ∉ t) :
    '\n' ∉ tail := by
  obtain ⟨before, after, -, -, rfl, -⟩ := eq_of_blockTail? h
  simp only [List.mem_append, List.mem_cons, not_or] at hn
  exact hn.2.2.2

/-- Where no block opens, no brace behind blanks is the brace of a block. -/
theorem leadsToOpener_mark (hb : b.quote? = none) {afterColon : Bool} {t : Text} (hn : '\n' ∉ t)
    (hcolon : afterColon = true → b.level = 0 → blockTail? t = none) :
    leadsToOpener ((b.context afterColon).mark t).1 = false := by
  induction t with
  | nil => rfl
  | cons c t ih =>
    rw [List.mem_cons, not_or] at hn
    by_cases hc : isBlank c = true
    · rw [CodeContext.mark_cons (CodeContext.read_blank hb (Ne.symm hn.1) hc afterColon t)]
      have hrest := ih hn.2 fun ha hl => by rw [← blockTail?_blank hc, hcolon ha hl]
      simp [leadsToOpener, hrest]
    · have hrole : ((b.context afterColon).read c t).1 ≠ .opener := by
        intro hr
        obtain ⟨rfl, hl, ha⟩ := CodeContext.of_read_eq_opener hr
        rw [blockTail?_brace hn.2] at hcolon
        cases hcolon ha hl
      simp [CodeContext.mark, leadsToOpener, hc, hrole]

/-- The indentation of a line is written in front of its first text. -/
theorem beginLine_write (p : Printer) (started : Bool) {role : Role} (t : Text) :
    (beginLine p started).write t = p.write ((LineState.ofStarted started).lead p role ++ t) := by
  cases started with
  | false => exact Printer.write_write ..
  | true => rfl

namespace Continues

variable {started afterColon : Bool} {t : Text}

theorem running (hn : '\n' ∉ t) : Continues b true false t :=
  ⟨hn, fun _ => ⟨rfl, rfl⟩, nofun, nofun⟩

theorem trimmed (hb : b.quote? = none) (hn : '\n' ∉ t)
    (hfirst : ∀ c ∈ t.head?, isBlank c = false) : Continues b started false t :=
  ⟨hn, by simp [hb], fun _ => hfirst, nofun⟩

theorem tail_oneLine {c : Char} (h : Continues b started afterColon (c :: t)) : '\n' ∉ t :=
  fun hm => h.oneLine (List.mem_cons_of_mem c hm)

theorem head_ne {c : Char} (h : Continues b started afterColon (c :: t)) : c ≠ '\n' :=
  fun he => h.oneLine (he ▸ List.mem_cons_self)

end Continues

/-- A colon and the brace of a block behind it. -/
theorem Follows.block (hb : b.quote? = none) (hl : b.level = 0) {started : Bool} {p : Printer}
    {more tail : Text} (hn : '\n' ∉ more) (htail : blockTail? more = some tail)
    {y : BraceSyntax × Printer} (afterColon : Bool)
    (h : Follows .opened ((beginLine p started).write [':']).indent ((b.context false).mark tail)
      y) :
    Follows (LineState.ofStarted started) p ((b.context afterColon).mark (':' :: more)) y := by
  obtain ⟨before, after, hbefore, hafter, rfl, -⟩ := eq_of_blockTail? htail
  simp only [List.mem_append, List.mem_cons, not_or] at hn
  have hbrace : (b.context true).read '\x7b' (after ++ tail) = (.opener, b.context false) := by
    rw [CodeContext.read_openBrace hb, if_pos ⟨hl, rfl⟩]
  rw [CodeContext.mark_cons (CodeContext.read_colon hb afterColon _),
    CodeContext.mark_blanks hb hn.1 hbefore, CodeContext.mark_cons hbrace,
    CodeContext.mark_blanks hb hn.2.2.1 hafter]
  refine .write (by decide) rfl (fun hc => nomatch hc) ?_
  refine .blanks hbefore hn.1 (.inr rfl) (.cons rfl (.blanks hafter hn.2.2.1 (.inl (by decide)) ?_))
  rwa [← beginLine_write]

/-- The brace that closes a block. -/
theorem Follows.close (hb : b.quote? = none) (hl : b.level = 0) {started : Bool} {p : Printer}
    {more : Text} (hn : '\n' ∉ more) {y : BraceSyntax × Printer} {afterColon : Bool}
    (h : Follows (if started then .ended else .fresh) p.dedent
      ((b.context false).mark more.trimStart) y) :
    Follows (LineState.ofStarted started) p ((b.context afterColon).mark ('\x7d' :: more)) y := by
  rw [CodeContext.mark_cons ((CodeContext.read_closeBrace hb ..).trans (if_pos hl)),
    CodeContext.mark_trimStart hb hn]
  have hstep : ∀ opening, (LineState.ofStarted started).step p '\x7d' .closer opening =
      ([], if started then .ended else .fresh) := by
    intro opening
    cases started <;> rfl
  refine .cons (hstep _) (.blanks more.isBlank_leadingBlanks (Text.not_mem_leadingBlanks hn) ?_ h)
  cases started <;> exact .inl (by decide)

/-- A block opens only outside of the braces of literals. -/
theorem blockTail?_of_dite {more tail : Text}
    (h : (if _h : b.level = 0 then blockTail? more else none) = some tail) :
    b.level = 0 ∧ blockTail? more = some tail := by
  split at h
  · exact ⟨‹_›, h⟩
  · cases h

/-- Laying out a line follows the roles of its characters. -/
theorem layOut_follows {started afterColon : Bool} {p : Printer} {rest : Text}
    (h : Continues b started afterColon rest) :
    Follows (LineState.ofStarted started) p ((b.context afterColon).mark rest)
      (b.layOut started p rest) := by
  fun_induction layOut b started p rest generalizing afterColon
  case case1 b started p => exact Follows.of_nil (b.context afterColon)
  -- Inside a string, which the line closes or not.
  case case2 b started p c more quote hquote through after hclose ih =>
    obtain ⟨rfl, rfl⟩ := h.inString (by simp [hquote])
    obtain ⟨quote?, level⟩ := b
    subst hquote
    have hn := h.oneLine
    rw [Quote.eq_append_of_close? hclose, List.mem_append, not_or] at hn
    rw [CodeContext.mark_close level h.oneLine hclose]
    exact .writeAll rfl hn.1 (ih (.running hn.2))
  case case3 b started p c more quote hquote hclose =>
    obtain ⟨rfl, rfl⟩ := h.inString (by simp [hquote])
    obtain ⟨quote?, level⟩ := b
    subst hquote
    obtain ⟨last, hlast, hmark⟩ := CodeContext.mark_unclosed level h.oneLine hclose
    rw [hmark, ← hlast]
    exact .writeAll rfl h.oneLine (.of_nil last)
  case case4 b started p more hb begun =>
    rw [CodeContext.mark_cons (CodeContext.read_hash hb ..),
      CodeContext.mark_comment rfl h.tail_oneLine]
    refine .write h.head_ne rfl (fun hc => nomatch hc) (.writeAll rfl h.tail_oneLine ?_)
    rw [← beginLine_write, Printer.write_write]
    exact .of_nil _
  -- The braces of a literal. Behind a colon a block would have been opened at the colon.
  case case5 b started p more hb begun _ ih =>
    have hlevel : ¬(b.level = 0 ∧ afterColon = true) := by
      rintro ⟨hl, rfl⟩
      have hblock := h.noBlock rfl hl
      rw [blockTail?_brace h.tail_oneLine] at hblock
      cases hblock
    rw [CodeContext.mark_cons ((CodeContext.read_openBrace hb ..).trans (if_neg hlevel))]
    refine .write h.head_ne rfl (fun hc => nomatch hc) ?_
    rw [← beginLine_write]
    exact ih (.running h.tail_oneLine)
  case case6 b started p more hb begun hl _ _ ih =>
    rw [CodeContext.mark_cons
      ((CodeContext.read_closeBrace hb ..).trans (if_neg (Nat.ne_of_gt hl)))]
    refine .write h.head_ne rfl (fun hc => nomatch hc) ?_
    rw [← beginLine_write]
    exact ih (.running h.tail_oneLine)
  -- The end of a block, with a line in front of it that has to be ended or not.
  case case7 b started p more hb hl hs _ _ ih =>
    obtain ⟨rfl, hne⟩ := hs
    refine .close hb (Nat.eq_zero_of_not_pos hl) h.tail_oneLine ?_
    refine .finish_mark rfl hne (Text.head?_trimStart more) (.inl rfl) (ih ?_)
    exact .trimmed hb (Text.not_mem_trimStart h.tail_oneLine) (Text.head?_trimStart more)
  case case8 b started p more hb hl hs _ _ ih =>
    have hn := Text.not_mem_trimStart h.tail_oneLine
    have hrest := ih (.trimmed hb hn (Text.head?_trimStart more))
    refine .close hb (Nat.eq_zero_of_not_pos hl) h.tail_oneLine ?_
    cases started with
    | false => exact hrest
    | true =>
      have hend : Text.trimStart more = [] := by simpa using hs
      rw [hend] at hrest ⊢
      exact hrest
  -- A colon, without a block and with one.
  case case9 b started p more hb begun htail _ _ _ ih =>
    rw [CodeContext.mark_cons (CodeContext.read_colon hb ..)]
    refine .write h.head_ne rfl (fun hc => nomatch hc) ?_
    rw [← beginLine_write]
    exact ih ⟨h.tail_oneLine, by simp [hb], nofun, fun _ hl => by simpa [hl] using htail⟩
  case case10 b started p more hb begun htail _ _ _ =>
    obtain ⟨hl, hblock⟩ := blockTail?_of_dite htail
    exact .block hb hl h.tail_oneLine hblock afterColon (.of_nil _)
  case case11 b started p more hb begun comment htail _ _ _ =>
    obtain ⟨hl, hblock⟩ := blockTail?_of_dite htail
    have hn : '\n' ∉ comment := fun hm =>
      oneLine_of_blockTail? hblock h.tail_oneLine (List.mem_cons_of_mem '#' hm)
    refine .block hb hl h.tail_oneLine hblock afterColon ?_
    rw [CodeContext.mark_cons (CodeContext.read_hash hb ..), CodeContext.mark_comment rfl hn]
    refine .write (by decide) rfl (fun hc => nomatch hc) (.writeAll rfl hn ?_)
    rw [Printer.write_write]
    exact .of_nil _
  case case12 b started p more hb begun tail hne hcomment htail _ _ _ ih =>
    obtain ⟨hl, hblock⟩ := blockTail?_of_dite htail
    obtain ⟨-, -, -, -, -, hfirst⟩ := eq_of_blockTail? hblock
    refine .block hb hl h.tail_oneLine hblock afterColon ?_
    refine .finish_mark rfl hne hfirst (.inr ⟨rfl, fun hhash => ?_⟩) (ih ?_)
    · obtain ⟨c, comment, rfl⟩ := List.exists_cons_of_ne_nil hne
      cases hhash
      exact hcomment comment rfl
    · exact .trimmed hb (oneLine_of_blockTail? hblock h.tail_oneLine) hfirst
  -- The beginning of a string, and any other character.
  case case13 b started p c more hb begun hcomment hopen hclose hcolon quote after hquote ih =>
    obtain ⟨-, htext⟩ := Quote.first?_of_open? hquote
    have hn := h.oneLine
    rw [htext, List.mem_append, not_or] at hn
    rw [CodeContext.mark_open hb hquote]
    refine .writeText rfl quote.text_ne_nil hn.1 ?_
    rw [← beginLine_write]
    exact ih (.running hn.2)
  case case14 b started p c more hb begun hcomment hopen hclose hcolon hquote ih =>
    have hfirst := Quote.first?_of_open?_none hquote
    have hblock : (c = ':' || afterColon && isBlank c) = true → b.level = 0 →
        blockTail? more = none := by
      intro ha hl
      have hboth : afterColon = true ∧ isBlank c = true := by simpa [hcolon] using ha
      rw [← blockTail?_blank hboth.2]
      exact h.noBlock hboth.1 hl
    rw [CodeContext.mark_cons (CodeContext.read_code hb h.head_ne hcomment hopen hclose hfirst _)]
    refine .write h.head_ne rfl (fun hc _ => ⟨?_, ?_⟩) ?_
    · cases started with
      | true => rfl
      | false =>
        rw [h.first rfl c rfl] at hc
        cases hc
    · exact leadsToOpener_mark hb h.tail_oneLine hblock
    · rw [← beginLine_write]
      exact ih ⟨h.tail_oneLine, by simp [hb], nofun, hblock⟩

/-- A line follows the roles of its characters, and its end comes behind them. -/
theorem line_follows {p : Printer} {l : Text} (hn : '\n' ∉ l) :
    ∃ y, b.line p l = (y.1, y.2.newline) ∧
      Follows (LineState.ofStarted b.quote?.isSome) p ((b.context false).mark l) y := by
  cases hq : b.quote? with
  | none =>
    refine ⟨b.layOut false p l.trimStart, by simp [line, hq], ?_⟩
    rw [CodeContext.mark_trimStart hq hn]
    refine .blanks l.isBlank_leadingBlanks (Text.not_mem_leadingBlanks hn) (.inl (by decide)) ?_
    exact layOut_follows (.trimmed hq (Text.not_mem_trimStart hn) l.head?_trimStart)
  | some quote =>
    cases l with
    | nil =>
      have hlay : b.layOut false p [] = (b, p) := by rw [layOut]
      refine ⟨(b, p), ?_, .of_nil (b.context false)⟩
      simp [line, Text.trimStart, hlay]
    | cons c l =>
      refine ⟨b.layOut true p (c :: l), by simp [line, hq], ?_⟩
      exact layOut_follows (.running hn)

/-- Lines of brace syntax are laid out as the roles of their characters tell. -/
theorem lines_follows {p : Printer} {ls : List Text} (hn : ∀ l ∈ ls, '\n' ∉ l) :
    Follows (LineState.ofStarted b.quote?.isSome) p ((b.context false).mark (Text.unlines ls))
      (b.lines p ls) := by
  induction ls generalizing b p with
  | nil => exact .of_nil _
  | cons l ls ih =>
    rw [List.forall_mem_cons] at hn
    obtain ⟨y, hline, hfollows⟩ := line_follows (b := b) (p := p) hn.1
    have hcarried : y.1 = ((b.context false).mark l).2.carried := congrArg Prod.fst hfollows
    have hrest := ih (b := y.1) (p := y.2.newline) hn.2
    rw [Text.unlines_cons, CodeContext.mark_append _ _ rfl, lines, hline]
    rw [hcarried] at hrest ⊢
    exact hfollows.append_break hrest

end BraceSyntax

end ServerPages
