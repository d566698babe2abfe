import ServerPages.Proofs.Code.Layout

/-!
# What layout keeps

Laying out brace syntax removes the braces of blocks and moves blanks, and nothing else: what is
written is woven from one piece for each character, and the role of the character says what its
piece may be. Strings and comments are written without a change.
-/

namespace ServerPages

/-- The text without the braces of blocks. -/
def withoutBraces (marked : List (Char × Role)) : Text :=
  (marked.filter fun m => !m.2.isBrace).map Prod.fst

/-- What may be written for a character. Blanks may come and go around code. -/
def Role.Renders (role : Role) (c : Char) (piece : Text) : Prop :=
  match role with
  | .string | .comment => piece = [c]
  | .code => Text.visible piece = Text.visible [c]
  | .opener | .closer => Text.visible piece = []

theorem withoutBraces_append (marked others : List (Char × Role)) :
    withoutBraces (marked ++ others) = withoutBraces marked ++ withoutBraces others := by
  rw [withoutBraces, List.filter_append, List.map_append, withoutBraces, withoutBraces]

namespace Role.Renders

/-- A character other than the brace of a block may be written as it is. -/
theorem self {role : Role} (hr : role.isBrace = false) (c : Char) : role.Renders c [c] := by
  cases role with
  | code | string | comment => rfl
  | opener | closer => cases hr

/-- Blanks may be written for the braces of blocks and for blanks of code. -/
theorem of_isBlank {role : Role} {c : Char} {piece : Text} (hp : Text.isBlank piece = true)
    (hr : role.isVerbatim = false) (hc : role = .code → ServerPages.isBlank c = true) :
    role.Renders c piece := by
  have hvisible := Text.visible_of_isBlank hp
  cases role with
  | string | comment => cases hr
  | code =>
    have hblank : Text.isBlank [c] = true := by simp [Text.isBlank, hc rfl]
    exact hvisible.trans (Text.visible_of_isBlank hblank).symm
  | opener | closer => exact hvisible

/-- What is written for a character shows the character, unless it is the brace of a block. -/
theorem visible_eq {role : Role} {c : Char} {piece : Text}
    (h : role.Renders c piece) : Text.visible piece = Text.visible (withoutBraces [(c, role)]) := by
  cases role with
  | string | comment => exact congrArg Text.visible h
  | code | opener | closer => exact h

end Role.Renders

/-- The text is woven from pieces for the characters. -/
inductive Woven : List (Char × Role) → Text → Prop
  | nil : Woven [] []
  | cons {c : Char} {role : Role} {piece out : Text} {marked : List (Char × Role)} :
      role.Renders c piece → Woven marked out → Woven ((c, role) :: marked) (piece ++ out)

namespace Woven

variable {marked before after : List (Char × Role)} {out : Text}

/-- Blanks apart, all is written but the braces of blocks. -/
theorem visible_eq (h : Woven marked out) :
    Text.visible out = Text.visible (withoutBraces marked) := by
  induction h with
  | nil => rfl
  | @cons c role piece out marked hpiece _ ih =>
    have hkept : withoutBraces ((c, role) :: marked) =
        withoutBraces [(c, role)] ++ withoutBraces marked :=
      withoutBraces_append [(c, role)] marked
    rw [hkept, Text.visible_append, Text.visible_append, hpiece.visible_eq, ih]

/-- What is woven from two parts is woven from each of them. -/
theorem of_append (h : Woven (before ++ after) out) :
    ∃ head tail, out = head ++ tail ∧ Woven before head ∧ Woven after tail := by
  induction before generalizing out with
  | nil => exact ⟨[], out, rfl, .nil, h⟩
  | cons m before ih =>
    cases h with
    | cons hpiece hrest =>
      obtain ⟨head, tail, rfl, hhead, htail⟩ := ih hrest
      exact ⟨_, tail, (List.append_assoc ..).symm, .cons hpiece hhead, htail⟩

/-- Strings and comments are written as they are. -/
theorem eq_of_isVerbatim (h : Woven marked out) (hv : ∀ m ∈ marked, m.2.isVerbatim = true) :
    out = marked.map Prod.fst := by
  induction h with
  | nil => rfl
  | @cons c role piece out marked hpiece _ ih =>
    rw [List.forall_mem_cons] at hv
    have hone : piece = [c] := by
      cases role with
      | string | comment => exact hpiece
      | code | opener | closer => cases hv.1
    rw [hone, ih hv.2]
    rfl

end Woven

namespace Printer

/-- A unit of indentation is blank. -/
theorem isBlank_unit (p : Printer) : Text.isBlank p.unit = true := by
  have hspaces : Text.isBlank (List.replicate p.spaces ' ') = true :=
    List.all_eq_true.mpr fun c hc => by rw [List.eq_of_mem_replicate hc]; rfl
  rw [unit]
  split
  · rfl
  · exact hspaces
  · exact hspaces

/-- Lines are indented with blanks. -/
theorem isBlank_indentation {p : Printer} (h : Text.isBlank p.userIndent = true) :
    Text.isBlank p.indentation = true := by
  have hunits : Text.isBlank (List.replicate p.depth p.unit).flatten = true := by
    rw [Text.isBlank, List.all_flatten]
    refine List.all_eq_true.mpr fun t ht => ?_
    rw [List.eq_of_mem_replicate ht]
    exact p.isBlank_unit
  rw [indentation]
  split
  · rfl
  · exact Text.isBlank_append hunits h

/-- Braces of blocks do not change the indentation that is handed on. -/
theorem userIndent_shift (p : Printer) (role : Role) :
    (p.shift role).userIndent = p.userIndent := by
  cases role with
  | closer =>
    rw [shift, dedent]
    split <;> rfl
  | _ => rfl

end Printer

namespace LineState

theorem isBlank_finish (s : LineState) : Text.isBlank s.finish = true := by
  cases s <;> rfl

/-- What comes in front of a text is blank. -/
theorem isBlank_lead {p : Printer} (h : Text.isBlank p.userIndent = true) (s : LineState)
    (role : Role) : Text.isBlank (s.lead p role) = true := by
  have hindent := Printer.isBlank_indentation h
  cases s with
  | fresh => exact hindent
  | running => rfl
  | ended => exact hindent
  | opened =>
    rw [lead]
    split
    · rfl
    · exact hindent

/-- What is written for a character is blanks that begin the line and a piece for the character,
to which the blanks that begin the next line may be added. -/
theorem step_renders {p : Printer} (h : Text.isBlank p.userIndent = true) (s : LineState)
    (c : Char) (role : Role) (opening : Bool) :
    ∃ blanks piece, (s.step p c role opening).1 = blanks ++ piece ∧ Text.isBlank blanks = true ∧
      (s = running → blanks = []) ∧
      ∀ more, Text.isBlank more = true → ((s.step p c role opening).2 = running → more = []) →
        role.Renders c (piece ++ more) := by
  fun_cases step s p c role opening
  case case1 hc =>
    subst hc
    refine ⟨[], ['\n'], rfl, rfl, fun _ => rfl, fun more hmore hnext => ?_⟩
    cases role with
    | code | opener | closer => exact .of_isBlank hmore rfl fun _ => rfl
    | string | comment =>
      rw [hnext rfl]
      exact .self rfl '\n'
  case case2 | case3 =>
    refine ⟨[], s.finish, rfl, rfl, fun _ => rfl, fun more hmore _ => ?_⟩
    exact .of_isBlank (Text.isBlank_append s.isBlank_finish hmore) rfl nofun
  case case4 hc =>
    exact ⟨[], [], rfl, rfl, fun _ => rfl, fun more hmore _ => .of_isBlank hmore rfl fun _ => hc.1⟩
  case case5 | case6 | case7 =>
    refine ⟨_, [c], rfl, isBlank_lead h s _, ?_, fun more _ hnext => ?_⟩
    · rintro rfl
      rfl
    · rw [hnext rfl]
      exact .self rfl c

/-- What is written for characters is woven from pieces for them, behind blanks that begin the
line. -/
theorem render_woven {p : Printer} (h : Text.isBlank p.userIndent = true) (s : LineState)
    (marked : List (Char × Role)) :
    ∃ blanks out, s.render p marked = blanks ++ out ∧ Text.isBlank blanks = true ∧
      (s = running → blanks = []) ∧ Woven marked out := by
  induction marked generalizing s p with
  | nil => exact ⟨[], [], rfl, rfl, fun _ => rfl, .nil⟩
  | cons m marked ih =>
    obtain ⟨c, role⟩ := m
    obtain ⟨blanks, piece, htext, hblanks, hrunning, hpiece⟩ :=
      step_renders h s c role (leadsToOpener marked)
    obtain ⟨more, out, hout, hmore, hnext, hwoven⟩ := ih (p := p.shift role)
      (p.userIndent_shift role ▸ h) (s.step p c role (leadsToOpener marked)).2
    refine ⟨blanks, piece ++ more ++ out, ?_, hblanks, hrunning, ?_⟩
    · rw [render]
      simp only [htext, hout, List.append_assoc]
    · exact .cons (hpiece more hmore hnext) hwoven

end LineState

namespace BraceSyntax

/-- Laying out lines in brace syntax removes the braces of blocks and moves blanks, and nothing
else. Every part of a string or a comment is written as it is, at its place among the rest. The
braces of blocks tell how deep the script ends, and strings and literals that are open go on. -/
theorem lines_weave (p : Printer) (hu : Text.isBlank p.userIndent = true) (ls : List Text)
    (hn : ∀ l ∈ ls, '\n' ∉ l) {marked : List (Char × Role)} {last : CodeContext}
    (hm : ({} : CodeContext).mark (Text.unlines ls) = (marked, last)) :
    marked.map Prod.fst = Text.unlines ls ∧
    ∃ out, start.lines p ls = (last.carried, (p.shiftAll marked).write out) ∧
      Text.visible out = Text.visible (withoutBraces marked) ∧
      ∀ before run after, marked = before ++ (run ++ after) →
        (∀ m ∈ run, m.2.isVerbatim = true) →
        ∃ head tail, out = head ++ (run.map Prod.fst ++ tail) ∧
          Text.visible head = Text.visible (withoutBraces before) ∧
          Text.visible tail = Text.visible (withoutBraces after) := by
  have hfst : marked.map Prod.fst = Text.unlines ls := by
    rw [← CodeContext.map_fst_mark {} (Text.unlines ls), hm]
  have hlines := lines_follows (b := start) (p := p) hn
  rw [show start.context false = {} from rfl, hm] at hlines
  obtain ⟨blanks, woven, hrender, hblanks, -, hwoven⟩ := LineState.render_woven hu .fresh marked
  have hvisible := Text.visible_of_isBlank hblanks
  refine ⟨hfst, blanks ++ woven, hrender ▸ hlines, ?_, ?_⟩
  · rw [Text.visible_append, hvisible, hwoven.visible_eq, List.nil_append]
  · rintro before run after rfl hrun
    obtain ⟨head, others, rfl, hhead, hothers⟩ := hwoven.of_append
    obtain ⟨middle, tail, rfl, hmiddle, htail⟩ := hothers.of_append
    refine ⟨blanks ++ head, tail, ?_, ?_, htail.visible_eq⟩
    · rw [hmiddle.eq_of_isVerbatim hrun, List.append_assoc]
    · rw [Text.visible_append, hvisible, hhead.visible_eq, List.nil_append]

/-- Two blocks, around a string and a comment with braces and around a literal. -/
theorem lines_weave_of_nested_braces :
    ∃ out head tail,
      start.lines ⟨[], 1, 1, .braces, 4, ['\t'], 0⟩
          ["if x: \x7b s = 'a:\x7b  b' #  \x7d", "\x7d else:\x7b d = \x7b1: \x7b2\x7d\x7d \x7d"] =
        (start, (⟨[], 1, 1, .braces, 4, ['\t'], 0⟩ : Printer).write out) ∧
      out = head ++ ("'a:\x7b  b'".toList ++ tail) ∧
      Text.visible head = "ifx:s=".toList ∧
      Text.visible tail = "#\x7delse:d=\x7b1:\x7b2\x7d\x7d".toList := by
  have hmark : ({} : CodeContext).mark (Text.unlines ["if x: \x7b s = 'a:\x7b  b' #  \x7d",
      "\x7d else:\x7b d = \x7b1: \x7b2\x7d\x7d \x7d"]) =
      (("if x: ".toList.map (·, .code) ++ ('\x7b', .opener) :: " s = ".toList.map (·, .code)) ++
        ("'a:\x7b  b'".toList.map (·, .string) ++
          ((' ', .code) :: "#  \x7d".toList.map (·, .comment) ++
            ('\n', .code) :: ('\x7d', .closer) :: " else:".toList.map (·, .code) ++
            ('\x7b', .opener) :: " d = \x7b1: \x7b2\x7d\x7d ".toList.map (·, .code) ++
            [('\x7d', .closer), ('\n', .code)])), {}) := by
    decide +kernel
  obtain ⟨-, out, hlines, -, hruns⟩ :=
    lines_weave ⟨[], 1, 1, .braces, 4, ['\t'], 0⟩ (by decide) _ (by decide +kernel) hmark
  obtain ⟨head, tail, hout, hhead, htail⟩ := hruns _ _ _ rfl (by decide +kernel)
  have hstring : ("'a:\x7b  b'".toList.map (·, Role.string)).map Prod.fst =
      "'a:\x7b  b'".toList := by decide +kernel
  rw [hstring] at hout
  refine ⟨out, head, tail, hlines.trans ?_, hout, hhead.trans ?_, htail.trans ?_⟩
  · refine congrArg (fun q : Printer => (start, q.write out)) ?_
    decide +kernel
  · decide +kernel
  · decide +kernel

end BraceSyntax

end ServerPages
