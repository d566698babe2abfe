import ServerPages.Disk.Tree
import ServerPages.Page.Basic
import ServerPages.Proofs.Code.Printer
import ServerPages.Proofs.Markup.Construct
import ServerPages.Proofs.Markup.Displacement
import ServerPages.Proofs.Text.Breaks
import ServerPages.Proofs.Text.Line

/-!
# Code with closing delimiters

Code that holds the closing delimiter can stand in a template if the delimiter is escaped wherever
it occurs. The escaped code holds no closing delimiter, not even together with the one that follows
it, and restoring the delimiters gives the code back, unless it holds an escaped one by itself. An
expression of such code is therefore read as one element and written as the code.
-/

namespace ServerPages

namespace Text

/-- Script text with its closing delimiters escaped. -/
def escapeClose : Text → Text
  | [] => []
  | '%' :: '>' :: rest => '%' :: '\\' :: '\\' :: '>' :: escapeClose rest
  | c :: rest => c :: escapeClose rest

/-- Nothing but backslashes is added. -/
theorem mem_of_mem_escapeClose {c : Char} (hc : c ≠ '\\') {t : Text} (h : c ∈ t.escapeClose) :
    c ∈ t := by
  fun_induction escapeClose t with
  | case1 => exact h
  | case2 rest ih =>
    simp only [List.mem_cons, hc, false_or] at h ⊢
    exact h.imp_right (Or.imp_right ih)
  | case3 d rest _ ih => exact List.mem_cons.mpr ((List.mem_cons.mp h).imp_right ih)

/-- Up to the first percent sign, escaped text is the text. -/
theorem prefix_of_prefix_escapeClose {w t : Text} (hw : '%' ∉ w) (h : w <+: t.escapeClose) :
    w <+: t := by
  fun_induction escapeClose t generalizing w with
  | case1 => exact h
  | case2 rest ih =>
    rcases List.prefix_cons_iff.mp h with rfl | ⟨w, rfl, -⟩
    · exact List.nil_prefix
    · exact absurd List.mem_cons_self hw
  | case3 d rest _ ih =>
    rcases List.prefix_cons_iff.mp h with rfl | ⟨w, rfl, hp⟩
    · exact List.nil_prefix
    · exact List.cons_prefix_cons.mpr ⟨rfl, ih (fun hm => hw (List.mem_cons_of_mem d hm)) hp⟩

/-- Escaped text holds no closing delimiter. -/
theorem close_not_infix_escapeClose (t : Text) : ¬ "%>".toList <:+: t.escapeClose := by
  fun_induction escapeClose t with
  | case1 => decide
  | case2 rest ih =>
    rw [List.infix_cons_iff, not_or]
    refine ⟨by simp, ?_⟩
    exact not_infix_cons (by decide) (not_infix_cons (by decide) (not_infix_cons (by decide) ih))
  | case3 c rest hne ih =>
    rw [List.infix_cons_iff, not_or]
    refine ⟨fun hp => ?_, ih⟩
    obtain ⟨hc, hp⟩ := List.cons_prefix_cons.mp hp
    obtain ⟨more, hmore⟩ := prefix_of_prefix_escapeClose (by decide) hp
    exact hne more hc.symm hmore.symm

/-- Restoring the delimiters gives a text back that holds no escaped one. -/
theorem unescapeClose_escapeClose {t : Text} (h : ¬ "%\\\\>".toList <:+: t) :
    t.escapeClose.unescapeClose = t := by
  fun_induction escapeClose t with
  | case1 => rfl
  | case2 rest ih =>
    have hrest : ¬ "%\\\\>".toList <:+: rest := fun hi => h (hi.trans ⟨['%', '>'], [], by simp⟩)
    rw [unescapeClose, ih hrest]
  | case3 c rest _ ih =>
    have hrest : ¬ "%\\\\>".toList <:+: rest := fun hi =>
      h (hi.trans (List.suffix_cons c rest).isInfix)
    rw [unescapeClose, ih hrest]
    rintro more rfl hmore
    have hp : "\\\\>".toList <+: rest := prefix_of_prefix_escapeClose (by decide) ⟨more, hmore.symm⟩
    exact h (List.cons_prefix_cons.mpr ⟨rfl, hp⟩).isInfix

/-- Escaping does not touch the spaces in front. -/
theorem skipSpaces_escapeClose (t : Text) :
    t.escapeClose.skipSpaces = t.skipSpaces.escapeClose := by
  fun_induction escapeClose t with
  | case1 => rfl
  | case2 rest => rfl
  | case3 c rest hne ih =>
    by_cases hc : isTagSpace c = true
    · rw [skipSpaces, skipSpaces, List.dropWhile_cons_of_pos hc, List.dropWhile_cons_of_pos hc]
      exact ih
    · rw [skipSpaces, skipSpaces, List.dropWhile_cons_of_neg hc, List.dropWhile_cons_of_neg hc,
        escapeClose]
      exact hne

/-- The blanks of a tag are blank. -/
theorem trim_skipSpaces (t : Text) : t.skipSpaces.trim = t.trim := by
  have hstart : t.skipSpaces.trimStart = t.trimStart := by
    induction t with
    | nil => rfl
    | cons c t ih =>
      by_cases hc : isTagSpace c = true
      · have hb : ServerPages.isBlank c = true := by
          rw [← Bool.not_eq_false]
          intro hb
          rw [isTagSpace_eq_false hb] at hc
          cases hc
        rw [skipSpaces, List.dropWhile_cons_of_pos hc, trimStart, trimStart,
          List.dropWhile_cons_of_pos hb]
        exact ih
      · rw [skipSpaces, List.dropWhile_cons_of_neg hc]
  rw [trim, trim, hstart]

/-- Spaces end in front of a character that is no space. -/
theorem skipSpaces_append_of_head {t u : Text} {c : Char} (hc : isTagSpace c = false)
    (hu : u.head? = some c) : skipSpaces (t ++ u) = t.skipSpaces ++ u := by
  obtain ⟨rest, rfl⟩ := List.head?_eq_some_iff.mp hu
  rw [skipSpaces, skipSpaces, List.dropWhile_append]
  split
  · rename_i hnil
    rw [List.isEmpty_iff.mp hnil, List.dropWhile_cons_of_neg (by simp [hc]), List.nil_append]
  · rfl

end Text

/-- Escaped code is the text of an expression, up to the blanks at its beginning. -/
theorem Cut.exists_first?_escapeClose (code rest : Text) :
    ∃ opening, first? ("<%=" ++ (code.escapeClose ++ ("%>" ++ rest))) =
      some (some (⟨.expression, .empty, opening, code.skipSpaces.escapeClose, "%>"⟩, rest)) := by
  have hskip : Text.skipSpaces (code.escapeClose ++ ("%>" ++ rest)) =
      code.skipSpaces.escapeClose ++ ("%>" ++ rest) := by
    rw [Text.skipSpaces_append_of_head (c := '%') rfl rfl, Text.skipSpaces_escapeClose]
  refine ⟨"<%=" ++ List.takeWhile isTagSpace (code.escapeClose ++ ("%>" ++ rest)), ?_⟩
  rw [first?_expression, hskip, enclosed?_append rfl (Text.close_not_infix_escapeClose _)]

/-- The code of an expression is written without the blanks around it. -/
theorem Fragment.emit_expression (code : Text) (p : Printer) :
    (expression code).emit p =
      (none, p.write (p.indentation ++ ("res.write(_formatter(" ++ (code.unescapeClose.trim ++
        "))\n")))) := by
  have hline : "res.write(_formatter(".toList ++ code.unescapeClose.trim ++ "))".toList ≠ [] :=
    List.cons_ne_nil _ _
  rw [emit, p.writeLine_of_ne_nil hline, List.append_assoc, List.append_assoc]
  rfl

namespace Scan

/-- An expression at the beginning of a template may hold any code, its closing delimiters being
escaped. The expression is handed over first, and then the elements of the rest of the template; its
fragment writes the code. -/
theorem run_escaped_expression {code rest : Text} (hcr : '\r' ∉ code)
    (hcode : ¬ "%\\\\>".toList <:+: code) {follows crossing : Bool} {disk : Disk}
    {name baseDir : Text} {canonical? : Option Text} {encoding : Encoding}
    {scan : Scan (List Element)}
    (h : (start ((Input.empty crossing).push name rest canonical? baseDir encoding) []).run
      (.recorder follows) disk = .ok scan) :
    ∃ scan' e others,
      (start ((Input.empty crossing).push name
          ("<%=" ++ (code.escapeClose ++ ("%>" ++ rest))) canonical? baseDir encoding) []).run
        (.recorder follows) disk = .ok scan' ∧
      scan'.state = e :: others ∧
      e.event = ⟨.expression, code.skipSpaces.escapeClose, .empty⟩ ∧
      others.map Element.event = scan.state.map Element.event ∧
      (∀ stack, ∃ f, Page.fragment? disk stack e = .ok (some f) ∧
        ∀ p, f.emit p = (none, p.write (p.indentation ++ ("res.write(_formatter(" ++ (code.trim ++
          "))\n"))))) ∧
      code.escapeClose.unescapeClose = code := by
  have hbreaks : Text.unifyBreaks ("<%=" ++ (code.escapeClose ++ ("%>" ++ rest))) =
      "<%=" ++ (code.escapeClose ++ ("%>" ++ rest.unifyBreaks)) := by
    have hescaped : '\r' ∉ code.escapeClose := fun hm =>
      hcr (Text.mem_of_mem_escapeClose (by decide) hm)
    rw [Text.unifyBreaks_append_of_cr (by decide), Text.unifyBreaks_append_of_cr hescaped,
      Text.unifyBreaks_append_of_cr (by decide)]
  obtain ⟨opening, hfirst⟩ := Cut.exists_first?_escapeClose code rest.unifyBreaks
  rw [← hbreaks] at hfirst
  have hpieces := Cut.pieces?_of_first? hfirst (by simp)
  obtain ⟨scan', hrun, hevents⟩ := exists_run_behind hpieces
    (by rw [List.forall_mem_singleton]; rfl) h
  obtain ⟨e, others, hstate, he, hothers⟩ := List.map_eq_cons_iff.mp hevents
  have hcodes : ¬ "%\\\\>".toList <:+: code.skipSpaces := fun hi =>
    hcode (hi.trans (List.dropWhile_suffix _).isInfix)
  refine ⟨scan', e, others, hrun, hstate, he, hothers, ?_, Text.unescapeClose_escapeClose hcode⟩
  intro stack
  refine ⟨.expression code.skipSpaces.escapeClose, ?_, ?_⟩
  · have hkind : e.kind = .expression := congrArg Event.kind he
    have htext : e.text = code.skipSpaces.escapeClose := congrArg Event.text he
    rw [Page.fragment?, hkind, htext]
  · intro p
    rw [Fragment.emit_expression, Text.unescapeClose_escapeClose hcodes, Text.trim_skipSpaces]

/-- The code ends in a percent sign, and the rest of the template includes a file. -/
theorem run_escaped_expression_before_include :
    ∃ scan e others,
      (start ((Input.empty true).push "page" "<%= '%\\\\>' % n %%>a<%@ include file='b' %>" none []
        .utf8) []).run (.recorder true)
          (FileTree.empty.add "b" (.file (Encoding.encode "<%= x %>"))).disk = .ok scan ∧
      scan.state = e :: others ∧ e.event = ⟨.expression, "'%\\\\>' % n %", .empty⟩ ∧
      others.map Element.event =
        [⟨.plainText, "a", .empty⟩,
          ⟨.directive "include", "<%@ include file='b' %>", Attributes.empty.insert "file" "b"⟩,
          ⟨.expression, "x ", .empty⟩] ∧
      ∃ f, Page.fragment? (FileTree.empty.add "b" (.file (Encoding.encode "<%= x %>"))).disk [] e =
          .ok (some f) ∧
        f.emit (.start .tabs 4) =
          (none, (Printer.start .tabs 4).write "res.write(_formatter('%>' % n %))\n") := by
  have hcr : '\r' ∉ " '%>' % n %".toList := by decide +kernel
  have hcode : ¬ "%\\\\>".toList <:+: " '%>' % n %".toList := by decide +kernel
  have hrest : ((start ((Input.empty true).push "page" "a<%@ include file='b' %>" none [] .utf8)
      []).runWithin (.recorder true)
        (FileTree.empty.add "b" (.file (Encoding.encode "<%= x %>"))).disk 10).map
          (·.state.map Element.event) =
      some [⟨.plainText, "a", .empty⟩,
        ⟨.directive "include", "<%@ include file='b' %>", Attributes.empty.insert "file" "b"⟩,
        ⟨.expression, "x ", .empty⟩] := by decide +kernel
  obtain ⟨last, hlast, hevents⟩ := Option.map_eq_some_iff.mp hrest
  have hsource : "<%=".toList ++ (Text.escapeClose " '%>' % n %" ++
      ("%>".toList ++ "a<%@ include file='b' %>".toList)) =
      "<%= '%\\\\>' % n %%>a<%@ include file='b' %>".toList := by decide +kernel
  have hescaped : Text.escapeClose (Text.skipSpaces " '%>' % n %") = "'%\\\\>' % n %".toList := by
    decide +kernel
  have hline : (Printer.start .tabs 4).indentation ++ ("res.write(_formatter(".toList ++
      (Text.trim " '%>' % n %" ++ "))\n".toList)) =
      "res.write(_formatter('%>' % n %))\n".toList := by decide +kernel
  obtain ⟨scan, e, others, hrun, hstate, he, hothers, hfragment, -⟩ :=
    run_escaped_expression hcr hcode (run_of_runWithin hlast)
  obtain ⟨f, hf, hemit⟩ := hfragment []
  have hemit := hemit (.start .tabs 4)
  rw [hsource] at hrun
  rw [hescaped] at he
  rw [hline] at hemit
  exact ⟨scan, e, others, hrun, hstate, he, hothers.trans hevents, f, hf, hemit⟩

end Scan

end ServerPages
