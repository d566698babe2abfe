import ServerPages.Proofs.Code.Margin
import ServerPages.Proofs.Code.StringScan
import ServerPages.Proofs.Page.Level
import ServerPages.Proofs.Page.Tidy

/-!
# Scripts that end inside a string

With brace syntax a page cannot be generated if one of its scripts ends inside a string, and this is
the only reason why it cannot. The failure names the quote that is missing and the place of the
first such script.
-/

namespace ServerPages

/-- Removing escapes adds no characters. -/
theorem Text.mem_of_mem_unescapeClose {c : Char} {t : Text} (h : c ∈ t.unescapeClose) : c ∈ t := by
  fun_induction unescapeClose t with
  | case1 => exact h
  | case2 rest ih =>
    simp only [List.mem_cons] at h ⊢
    tauto
  | case3 d rest _ ih =>
    simp only [List.mem_cons] at h ⊢
    exact h.imp_right ih

/-- Removing the margin brings in no carriage return. -/
theorem Margin.cr_not_mem_remove {code : Text} (h : '\r' ∉ code) : '\r' ∉ remove code := by
  obtain ⟨l, rfl⟩ := Lined.exists_text_eq code
  cases l using Lined.induction with
  | single line hline =>
    rw [Lined.text_single, remove_line hline]
    exact hline.2
  | above line hline ending below hpair =>
    obtain ⟨columns, -, hremove⟩ := remove_text (l := .above line hline ending below hpair) rfl
    rw [Lined.text_above] at h
    have hending : '\r' ∉ ending.text := fun hm =>
      h (List.mem_append_right _ (List.mem_append_left _ hm))
    rw [hremove, Lined.text_moved]
    intro hm
    rcases List.mem_append.mp hm with hfirst | hrest
    · exact hline.2 hfirst
    · obtain ⟨next, hnext, hm⟩ := List.mem_flatMap.mp hrest
      rcases List.mem_append.mp hm with hbreak | hshort
      · exact hending hbreak
      · exact (Lined.isLine_of_mem_trimmed _ hnext).2 ((shorten_sublist columns next).subset hshort)

namespace Script

/-- The string in which a script ends. Its margin and the escapes of closing delimiters are removed
and its line breaks are unified. -/
def openQuote? (code : Text) : Option Quote :=
  (Margin.remove code).unescapeClose.unifyBreaks.openQuote?

/-- With brace syntax, a script fails if and only if it ends inside of a string. -/
theorem fault_writeBraced (p : Printer) (code : Text) :
    (writeBraced p code).1 = (openQuote? code).map fun quote => .unterminatedQuote quote.text := by
  have hquote : (BraceSyntax.start.lines p (codeLines code)).1.quote? = openQuote? code := by
    rw [codeLines, BraceSyntax.quote?_lines (Text.newline_not_mem_of_mem_lines _),
      Text.openQuote?_unlines_lines]
    rfl
  rw [← hquote]
  rfl

end Script

/-- No operations change the block style. -/
theorem Printer.style_performAll (p : Printer) (actions : List Action) :
    (p.performAll actions).style = p.style := by
  induction actions generalizing p with
  | nil => rfl
  | cons a actions ih => rw [performAll, ih, style_perform]

namespace Fragment

/-- How a fragment fails in a block style. -/
def failure? (style : BlockStyle) : Fragment → Option Failure
  | script code span? =>
    if style = .braces then
      (Script.openQuote? code).map fun quote => ⟨.unterminatedQuote quote.text, span?⟩
    else none
  | _ => none

/-- With brace syntax, a fragment fails if it is a script that ends inside of a string. -/
theorem failure?_eq_some_iff {f : Fragment} {failure : Failure} :
    f.failure? .braces = some failure ↔
      ∃ code span? quote, f = script code span? ∧ Script.openQuote? code = some quote ∧
        ⟨.unterminatedQuote quote.text, span?⟩ = failure := by
  cases f with
  | script code span? =>
    simp only [failure?, if_true, Option.map_eq_some_iff]
    constructor
    · rintro ⟨quote, hquote, hfailure⟩
      exact ⟨code, span?, quote, rfl, hquote, hfailure⟩
    · rintro ⟨code, span?, quote, hf, hquote, hfailure⟩
      cases hf
      exact ⟨quote, hquote, hfailure⟩
  | _ => simp [failure?]

/-- With brace syntax, a script fails unless it ends outside of strings. -/
theorem failure?_script_eq_none_iff {code : Text} {span? : Option Span} :
    (script code span?).failure? .braces = none ↔ Script.openQuote? code = none := by
  rw [failure?, if_pos rfl, Option.map_eq_none_iff]

/-- Without brace syntax no fragment fails. -/
theorem failure?_of_ne_braces {style : BlockStyle} (h : style ≠ .braces) (f : Fragment) :
    f.failure? style = none := by
  cases f with
  | script code span? => exact if_neg h
  | _ => rfl

/-- A fragment fails or not whatever has been written before. -/
theorem failure_emit (f : Fragment) (p : Printer) : (f.emit p).1 = f.failure? p.style := by
  cases f with
  | script code span? =>
    rw [emit_script, failure?, Script.write]
    split
    · rw [Script.fault_writeBraced, Option.map_map]
      rfl
    · rfl
  | _ => rfl

theorem style_emit (f : Fragment) (p : Printer) : (f.emit p).2.style = p.style := by
  rw [emit_eq_performAll, Printer.style_performAll]

/-- Fragments are written up to the first that fails. -/
theorem emitAll_cases (fragments : List Fragment) (p : Printer) :
    (∃ failure, fragments.findSome? (failure? p.style) = some failure ∧
      emitAll p fragments = .error failure) ∨
    (fragments.findSome? (failure? p.style) = none ∧ ∃ q, emitAll p fragments = .ok q) := by
  induction fragments generalizing p with
  | nil => exact .inr ⟨rfl, p, rfl⟩
  | cons f rest ih =>
    cases hfailure : f.failure? p.style with
    | some failure =>
      left
      have hemit : f.emit p = (some failure, (f.emit p).2) :=
        Prod.ext ((f.failure_emit p).trans hfailure) rfl
      refine ⟨failure, ?_, ?_⟩
      · rw [List.findSome?_cons, hfailure]
      · rw [emitAll, hemit]
    | none =>
      have hemit : f.emit p = (none, (f.emit p).2) :=
        Prod.ext ((f.failure_emit p).trans hfailure) rfl
      rw [List.findSome?_cons, hfailure, emitAll_cons hemit, ← f.style_emit p]
      exact ih (f.emit p).2

/-- Only scripts fail. -/
theorem findSome?_failure?_filter (keep : Fragment → Bool)
    (hkeep : ∀ code span?, keep (script code span?) = true) (style : BlockStyle)
    (fragments : List Fragment) :
    (fragments.filter keep).findSome? (failure? style) = fragments.findSome? (failure? style) := by
  induction fragments with
  | nil => rfl
  | cons f rest ih =>
    by_cases hf : keep f = true
    · rw [List.filter_cons_of_pos hf, List.findSome?_cons, List.findSome?_cons, ih]
    · have hnone : f.failure? style = none := by
        cases f with
        | script code span? => exact absurd (hkeep code span?) hf
        | _ => rfl
      rw [List.filter_cons_of_neg hf, List.findSome?_cons, hnone, ih]

end Fragment

namespace Page

variable (page : Page)

/-- Tidying a page keeps its scripts. -/
theorem findSome?_failure?_tidy (style : BlockStyle) :
    page.tidy.fragments.findSome? (Fragment.failure? style) =
      page.fragments.findSome? (Fragment.failure? style) := by
  have hscripts :=
    Fragment.findSome?_failure?_filter (fun f => !f.isText) (fun _ _ => rfl) style
  have htext : ∀ chars, (!(Fragment.text chars).isText) = false := fun _ => rfl
  have htidy : page.tidy.fragments.filter (fun f => !f.isText) =
      page.fragments.filter fun f => !f.isText := by
    rw [tidy]
    split
    · exact (Fragment.filter_gobbleAfter htext none _).trans (Fragment.filter_mergeTexts htext _)
    · exact Fragment.filter_mergeTexts htext _
  rw [← hscripts, htidy, hscripts]

/-- A page is generated up to its first script that fails. -/
theorem generate_cases :
    (∃ failure, page.fragments.findSome? (Fragment.failure? page.settings.style) = some failure ∧
      page.generate.1 = .error failure) ∨
    (page.fragments.findSome? (Fragment.failure? page.settings.style) = none ∧
      ∃ text, page.generate.1 = .ok text) := by
  obtain ⟨start, hcourse, -, -, -, hstyle⟩ := page.exists_course
  have hgenerate : page.generate.1 = page.tidy.emitBody (start .service) := by
    rw [generate, hcourse.emitFrame]
  have hscripts : (page.tidy.fragments.filter fun f => f.region = .service).findSome?
        (Fragment.failure? (start .service).style) =
      page.fragments.findSome? (Fragment.failure? page.settings.style) := by
    rw [Fragment.findSome?_failure?_filter _ (fun _ _ => rfl), findSome?_failure?_tidy, hstyle]
  rw [hgenerate, emitBody, emitRegion, ← hscripts]
  obtain ⟨failure, hfailure, hemit⟩ | ⟨hnone, q, hemit⟩ := Fragment.emitAll_cases
    (page.tidy.fragments.filter fun f => f.region = .service) (start .service)
  · left
    exact ⟨failure, hfailure, by rw [hemit]; rfl⟩
  · right
    exact ⟨hnone, _, by rw [hemit]; rfl⟩

variable {page}

/-- With brace syntax a failure comes from the first script that ends inside a string. -/
theorem exists_open_of_generate (hbraces : page.settings.style = .braces) {failure : Failure}
    (h : page.generate.1 = .error failure) :
    ∃ before code span? after quote,
      page.fragments = before ++ Fragment.script code span? :: after ∧
      (∀ other place?, Fragment.script other place? ∈ before → Script.openQuote? other = none) ∧
      Script.openQuote? code = some quote ∧ failure = ⟨.unterminatedQuote quote.text, span?⟩ := by
  obtain ⟨other, hfailure, herror⟩ | ⟨-, text, hok⟩ := page.generate_cases
  · obtain rfl : other = failure := Except.error.inj (herror.symm.trans h)
    rw [hbraces] at hfailure
    obtain ⟨before, f, after, hsplit, hf, hbefore⟩ := List.findSome?_eq_some_iff.mp hfailure
    obtain ⟨code, span?, quote, rfl, hquote, hplace⟩ := Fragment.failure?_eq_some_iff.mp hf
    refine ⟨before, code, span?, after, quote, hsplit, ?_, hquote, hplace.symm⟩
    intro earlier place? hmem
    exact Fragment.failure?_script_eq_none_iff.mp (hbefore _ hmem)
  · cases hok.symm.trans h

/-- With brace syntax a script that ends inside a string is a failure. -/
theorem exists_failure_of_open (hbraces : page.settings.style = .braces) {code : Text}
    {span? : Option Span} (hmem : Fragment.script code span? ∈ page.fragments)
    (hopen : Script.openQuote? code ≠ none) : ∃ failure, page.generate.1 = .error failure := by
  obtain ⟨failure, -, herror⟩ | ⟨hnone, -⟩ := page.generate_cases
  · exact ⟨failure, herror⟩
  · rw [hbraces, List.findSome?_eq_none_iff] at hnone
    exact absurd (Fragment.failure?_script_eq_none_iff.mp (hnone _ hmem)) hopen

/-- Without brace syntax nothing fails. -/
theorem exists_text_of_ne_braces (h : page.settings.style ≠ .braces) :
    ∃ text, page.generate.1 = .ok text := by
  obtain ⟨failure, hfailure, -⟩ | ⟨-, hok⟩ := page.generate_cases
  · obtain ⟨f, -, hf⟩ := List.exists_of_findSome?_eq_some hfailure
    rw [Fragment.failure?_of_ne_braces h] at hf
    cases hf
  · exact hok

/-- Brace syntax follows strings line by line as one scan of the whole text does. So a page with
brace syntax cannot be generated just if one of its scripts ends inside a string, and the failure
names the quote that is missing and the place of the first such script. In the other styles every
page can be generated. In a script line breaks of every kind count as line feeds; a script without
carriage returns is scanned as it stands. -/
theorem generate_fails_in_open_string :
    (∀ (p : Printer) (ls : List Text), (∀ l ∈ ls, '\n' ∉ l) →
      (BraceSyntax.start.lines p ls).1.quote? = Text.openQuote? (Text.join ['\n'] ls)) ∧
    (∀ code : Text, '\r' ∉ code →
      Script.openQuote? code = Text.openQuote? (Margin.remove code).unescapeClose) ∧
    ∀ page : Page,
      (page.settings.style = .braces →
        ((∃ failure, page.generate.1 = .error failure) ↔
          ∃ code span?, Fragment.script code span? ∈ page.fragments ∧
            Script.openQuote? code ≠ none) ∧
        ∀ failure, page.generate.1 = .error failure →
          ∃ before code span? after quote,
            page.fragments = before ++ Fragment.script code span? :: after ∧
            (∀ other place?, Fragment.script other place? ∈ before →
              Script.openQuote? other = none) ∧
            Script.openQuote? code = some quote ∧
            failure = ⟨.unterminatedQuote quote.text, span?⟩) ∧
      (page.settings.style ≠ .braces → ∃ text, page.generate.1 = .ok text) := by
  refine ⟨fun p ls hn => ?_, fun code hcr => ?_, fun page => ⟨fun hbraces => ⟨⟨?_, ?_⟩, ?_⟩, ?_⟩⟩
  · rw [BraceSyntax.quote?_lines hn, Text.openQuote?_unlines]
  · rw [Script.openQuote?, Text.unifyBreaks_eq_self]
    exact fun hm => Margin.cr_not_mem_remove hcr (Text.mem_of_mem_unescapeClose hm)
  · rintro ⟨failure, herror⟩
    obtain ⟨before, code, span?, after, quote, hsplit, -, hquote, -⟩ :=
      exists_open_of_generate hbraces herror
    refine ⟨code, span?, ?_, ?_⟩
    · rw [hsplit]
      exact List.mem_append_right before List.mem_cons_self
    · rw [hquote]
      exact Option.some_ne_none quote
  · rintro ⟨code, span?, hmem, hopen⟩
    exact exists_failure_of_open hbraces hmem hopen
  · intro failure herror
    exact exists_open_of_generate hbraces herror
  · exact exists_text_of_ne_braces

/-- A string over three lines with a backslash at the end of the second; two scripts that end inside
a string behind one that does not; and a page without brace syntax. -/
theorem generate_fails_in_first_open_string :
    (BraceSyntax.start.lines (.start .braces 4) ["x = '''", "\\", "'' # \""]).1.quote? =
      Text.openQuote? (Text.join ['\n'] ["x = '''", "\\", "'' # \""]) ∧
    (let page : Page := { Page.start { style := .braces } "P" "p" with
        fragments := [.script "x = '#'" none, .script "'''\\\n#" none, .script "\"" none] }
      ∃ failure, page.generate.1 = .error failure ∧
        ∃ before code span? after quote,
          page.fragments = before ++ Fragment.script code span? :: after ∧
          (∀ other place?, Fragment.script other place? ∈ before →
            Script.openQuote? other = none) ∧
          Script.openQuote? code = some quote ∧
          failure = ⟨.unterminatedQuote quote.text, span?⟩) ∧
    ∃ text, ({ Page.start {} "P" "p" with
      fragments := [.script "'''" none] } : Page).generate.1 = .ok text := by
  obtain ⟨hlines, -, hpages⟩ := generate_fails_in_open_string
  refine ⟨hlines _ _ (by decide), ?_, (hpages _).2 (by decide)⟩
  intro page
  obtain ⟨hfails, hfirst⟩ := (hpages page).1 rfl
  obtain ⟨failure, herror⟩ := hfails.mpr ⟨"\"", none, by decide, by decide +kernel⟩
  exact ⟨failure, herror, hfirst failure herror⟩

/-- A comment ends at a carriage return too, so a quote behind that opens a string, although no line
feed has ended the comment. -/
theorem generate_fails_behind_carriage_return :
    Text.openQuote? (Margin.remove "#\r'").unescapeClose = none ∧
      ({ Page.start { style := .braces } "P" "p" with
        fragments := [.script "#\r'" none] } : Page).generate.1 =
          .error ⟨.unterminatedQuote "'", none⟩ := by
  refine ⟨by decide +kernel, ?_⟩
  have hfirst : ({ Page.start { style := .braces } "P" "p" with
      fragments := [.script "#\r'" none] } : Page).fragments.findSome?
        (Fragment.failure? .braces) = some ⟨.unterminatedQuote "'", none⟩ := by
    decide +kernel
  obtain ⟨failure, hfailure, herror⟩ | ⟨hnone, -⟩ := generate_cases
    { Page.start { style := .braces } "P" "p" with fragments := [.script "#\r'" none] }
  · rw [herror, Option.some.inj (hfailure.symm.trans hfirst)]
  · cases hnone.symm.trans hfirst

end Page

end ServerPages
