import ServerPages.Proofs.Page.OpenString
import ServerPages.Proofs.Page.Parts
import ServerPages.Proofs.Page.Verbatim

/-!
# Page directives

While a template is read, nothing depends on the settings of its page, apart from the page
directives themselves. So reading can be repeated with other settings, and a page directive may be
moved to the beginning of a template over a part that has none.
-/

namespace ServerPages

namespace Cut

/-- A directive is recognized by its own opening delimiter. -/
theorem exists_directive?_of_first? {t rest name : Text} {c : Cut}
    (h : first? t = some (some (c, rest))) (hk : c.kind = .directive name) :
    ∃ body, t = "<%@" ++ body ∧ directive? t body = some (c, rest) := by
  have henclosed : ∀ {kind : ElementKind} {opening close body : Text}, kind ≠ .directive name →
      enclosed? kind .empty opening close body ≠ some (c, rest) := by
    intro kind opening close body hkind he
    obtain ⟨-, hc, -⟩ := eq_append_of_enclosed? he
    exact hkind (hc.symm.trans hk)
  have htag : ∀ {kind : ElementKind} {found : Attributes × Text}, kind ≠ .directive name →
      tag kind t found ≠ (c, rest) := by
    intro kind found hkind he
    obtain ⟨rfl, -⟩ := Prod.mk.inj he
    exact hkind hk
  simp only [first?, Option.or_eq_some_iff, Option.map_eq_some_iff, Option.some.injEq] at h
  rcases h with ((((((((⟨b, hb, h⟩ | ⟨-, b, hb, h⟩) | ⟨-, b, hb, h⟩) | ⟨-, b, hb, rfl⟩) |
    ⟨-, b, hb, h⟩) | ⟨-, b, hb, h⟩) | ⟨-, b, hb, h⟩) | ⟨-, b, hb, found, hf, h⟩) |
    ⟨-, b, hb, found, hf, h⟩) | ⟨-, b, hb, found, hf, h⟩
  · exact absurd h (henclosed (by simp))
  · exact absurd h (henclosed (by simp))
  · exact ⟨b, Text.after?_eq_some_iff.mp hb, h⟩
  · simp only [endBlock?, Option.bind_eq_some_iff, Option.or_eq_some_iff,
      Option.map_eq_some_iff] at hb
    obtain ⟨-, -, -, -, ⟨stop, -, he⟩ | ⟨-, stop, -, he⟩⟩ := hb
    · exact absurd he (htag (by simp))
    · exact absurd he (htag (by simp))
  · exact absurd h (henclosed (by simp))
  · exact absurd h (henclosed (by simp))
  · exact absurd h (henclosed (by simp))
  · exact absurd h (htag (by simp))
  · exact absurd h (htag (by simp))
  · exact absurd h (htag (by simp))

end Cut

section PageDirective

variable {tag : Text} {c : Cut} {name : Text}
  (htag : Cut.first? tag.unifyBreaks = some (some (c, []))) (hk : c.kind = .directive name)

include htag hk

/-- A directive that takes up a whole text stands in the same way in front of any other text. -/
theorem Cut.first?_directive_append (rest : Text) :
    first? (tag.unifyBreaks ++ rest) = some (some (c, rest)) := by
  obtain ⟨body, hbody, hdirective⟩ := exists_directive?_of_first? htag hk
  have hmore := directive?_append hdirective rest
  rw [hbody, List.append_assoc, first?_directive]
  rw [hbody, List.append_assoc] at hmore
  rw [hmore, List.nil_append]

/-- A directive begins with an angle bracket. -/
theorem Text.exists_eq_cons_of_directive : ∃ more, tag = '<' :: more := by
  obtain ⟨body, hbody, -⟩ := Cut.exists_directive?_of_first? htag hk
  have hopen : ['<'] <+: tag.unifyBreaks := by
    rw [hbody]
    exact List.prefix_append ['<'] _
  obtain ⟨more, hmore⟩ := prefix_of_prefix_unifyBreaks (by decide) hopen
  exact ⟨more, hmore.symm⟩

/-- No delimiter lies across the beginning of a directive, and no pair of line break characters. -/
theorem Recognition.not_straddled_directive (front rest : Text) :
    ¬ Straddled front (tag ++ rest) ∧ ¬ Text.SplitsPair front (tag ++ rest) := by
  obtain ⟨more, rfl⟩ := Text.exists_eq_cons_of_directive htag hk
  refine ⟨not_straddled_bracket front _, ?_⟩
  rintro ⟨-, hhead⟩
  exact absurd hhead (by simp)

/-- A directive ends with a bracket. -/
theorem Text.unifyBreaks_directive (rest : Text) :
    (tag ++ rest).unifyBreaks = tag.unifyBreaks ++ rest.unifyBreaks := by
  obtain ⟨body, hbody, hdirective⟩ := Cut.exists_directive?_of_first? htag hk
  have hclose : ['>'] <:+ tag.unifyBreaks := by
    rw [hbody]
    have hsuffix := Cut.suffix_directive? hdirective
    rw [List.append_nil] at hsuffix
    exact List.IsSuffix.trans ⟨['%'], rfl⟩ (hsuffix.trans (List.suffix_append _ _))
  obtain ⟨front, hfront⟩ := suffix_of_suffix_unifyBreaks (by decide) hclose
  refine unifyBreaks_append ?_
  rintro ⟨hlast, -⟩
  rw [← hfront, List.getLast?_concat] at hlast
  exact absurd hlast (by decide)

end PageDirective

namespace Page

variable {disk : Disk} {stack : Stack} {e : Element}

/-- A page directive acts on the settings alone. -/
theorem accept_pageDirective {c : Cut} (hk : c.kind = .directive "page") {page : Page}
    {before settings : Settings} {fault? : Option Fault} (hbefore : page.settings = before)
    (h : before.applyAll c.attributes.entries = (settings, fault?)) (stack : Stack) (e : Element)
    (he : e.event = c.event) :
    accept disk stack e page = ({ page with settings }, fault?) := by
  have hkind : e.kind = .directive "page" := (congrArg Event.kind he).trans hk
  have hattributes : e.attributes = c.attributes := congrArg Event.attributes he
  simp only [accept, hkind, direct, if_true, hattributes, hbefore, h]

/-- Every other element neither sees nor changes the settings. -/
theorem accept_settings (hk : e.kind ≠ .directive "page") {page next : Page}
    (h : accept disk stack e page = (next, none)) (settings : Settings) :
    next.settings = page.settings ∧
      accept disk stack e { page with settings } = ({ next with settings }, none) := by
  by_cases hdirective : ∃ name, e.kind = .directive name
  · obtain ⟨name, hname⟩ := hdirective
    have hne : name ≠ "page" := by
      rintro rfl
      exact hk hname
    simp only [accept, hname, direct, if_neg hne] at h ⊢
    by_cases hinclude : name = "include"
    · simp only [if_pos hinclude] at h ⊢
      cases hfile : required e "include" "file" with
      | error fault =>
        rw [hfile] at h
        cases h
      | ok path =>
        rw [hfile] at h
        obtain ⟨rfl, -⟩ := Prod.mk.inj h
        exact ⟨rfl, rfl⟩
    · simp only [if_neg hinclude] at h
      cases h
  · have hfragment : ∀ name, e.kind ≠ .directive name := fun name hname => hdirective ⟨name, hname⟩
    rw [accept_of_fragment? hfragment] at h ⊢
    cases hf : fragment? disk stack e with
    | error fault =>
      rw [hf] at h
      cases h
    | ok f? =>
      rw [hf] at h
      cases f? with
      | none =>
        obtain ⟨rfl, -⟩ := Prod.mk.inj h
        exact ⟨rfl, rfl⟩
      | some f =>
        obtain ⟨rfl, -⟩ := Prod.mk.inj h
        exact ⟨rfl, rfl⟩

/-- The recorder keeps the elements that a page takes. -/
theorem leads_recording (disk : Disk) :
    visitor.Leads visitor.recording disk (fun _ => True) fun page state => state.1 = page := by
  refine ⟨rfl, fun _ _ => trivial, ?_⟩
  rintro stack e page next ⟨state, found⟩ - ha - rfl
  refine ⟨(next, found ++ [e]), ?_, rfl⟩
  simp only [Visitor.recording, ha]

/-- The recorder keeps the elements that another visitor is given. -/
theorem leads_recorder (disk : Disk) :
    visitor.recording.Leads (.recorder true) disk (fun _ => True) fun state found =>
      found = state.2 := by
  refine ⟨rfl, fun _ _ => trivial, ?_⟩
  rintro stack e ⟨page, elements⟩ ⟨next, elements'⟩ found - ha - rfl
  obtain ⟨hnext, -⟩ := Prod.mk.inj ha
  obtain ⟨-, rfl⟩ := Prod.mk.inj hnext
  exact ⟨_, rfl, rfl⟩

/-- Without page directives, the same elements make the same page with other settings. -/
theorem leads_settings (disk : Disk) (initial settings : Settings) :
    visitor.recording.Leads visitor disk (fun state => ∀ e ∈ state.2, e.kind ≠ .directive "page")
      fun state page => state.1.settings = initial ∧ page = { state.1 with settings } := by
  refine ⟨rfl, ?_, ?_⟩
  · rintro stack e ⟨page, elements⟩ ⟨next, elements'⟩ ha hgood d hd
    obtain ⟨hnext, -⟩ := Prod.mk.inj ha
    obtain ⟨-, rfl⟩ := Prod.mk.inj hnext
    exact hgood d (List.mem_append_left _ hd)
  · rintro stack e ⟨page, elements⟩ ⟨next, elements'⟩ other - ha hgood ⟨hinitial, rfl⟩
    obtain ⟨hnext, hfault⟩ := Prod.mk.inj ha
    obtain ⟨rfl, rfl⟩ := Prod.mk.inj hnext
    have hk : e.kind ≠ .directive "page" :=
      hgood e (List.mem_append_right _ List.mem_cons_self)
    obtain ⟨hkept, haccept⟩ := accept_settings hk (Prod.ext rfl hfault) settings
    exact ⟨_, haccept, hkept.trans hinitial, rfl⟩

end Page

namespace Scan

variable {disk : Disk} {o : Options} {name : Text}

/-- A template without page directives is read in the same way with other settings. -/
theorem run_of_settings {front : Text} {last : Scan Page} {found : Scan (List Element)}
    (hparse : (startText o name front).run Page.visitor disk = .ok last)
    (hrecord : (start (startText o name front).input []).run (.recorder true) disk = .ok found)
    (hfound : ∀ e ∈ found.state, e.kind ≠ .directive "page") (settings : Settings) :
    last.state.settings = .ofOptions o ∧ ∃ last' : Scan Page,
      run Page.visitor disk { startText o name front with
        state := { (startText o name front).state with settings } } = .ok last' ∧
      last'.input = last.input ∧ last'.pending? = last.pending? ∧
      last'.state = { last.state with settings } := by
  obtain ⟨-, hrecording⟩ := carries_run (Page.leads_recording disk) _ last hparse trivial
  obtain ⟨both, hboth, hb⟩ := hrecording
    (start (startText o name front).input ((startText o name front).state, []))
    ⟨rfl, rfl, rfl, rfl⟩
  obtain ⟨-, hrecorder⟩ := carries_run (Page.leads_recorder disk) _ both hboth trivial
  obtain ⟨found', hfound', hb'⟩ := hrecorder (start (startText o name front).input [])
    ⟨rfl, rfl, rfl, rfl⟩
  obtain rfl := Except.ok.inj (hrecord.symm.trans hfound')
  obtain ⟨-, hsettings⟩ := carries_run
    (Page.leads_settings disk (.ofOptions o) settings) _ both hboth (hb'.state ▸ hfound)
  obtain ⟨last', hlast', hinput, hpending, -, hinitial, hstate⟩ := hsettings
    { startText o name front with state := { (startText o name front).state with settings } }
    ⟨rfl, rfl, rfl, rfl, rfl⟩
  rw [hb.state] at hinitial hstate
  exact ⟨hinitial, last', hlast', hinput.trans hb.input, hpending.trans hb.pending, hstate⟩

/-- A template may begin in the middle of another one. -/
theorem tracks_startText_within {front rest : Text} {root : Source} {i : Input}
    (h : Input.Tracks root (front.unifyBreaks ++ rest.unifyBreaks) (startText o name []).input i)
    (hcut : ¬ Recognition.Straddled front rest) :
    Input.Tracks root rest.unifyBreaks (startText o name front).input i := by
  obtain ⟨-, hsuffix, -, hcanonical, hid⟩ := h.goesOn
  have hwhole := Recognition.whole_of_not_straddled (Recognition.not_straddled_unifyBreaks hcut)
  exact ⟨h.stack, ⟨List.suffix_refl _, hsuffix, hwhole, hcanonical, hid⟩, h.crossing, h.opened⟩

/-- The first part of a template is read behind a page directive as without it, with the settings
that the directive makes. -/
theorem exists_arrival_again {front rest : Text} {root : Source} {last m : Scan Page}
    {found : Scan (List Element)} {settings : Settings}
    (hparse : (startText o name front).run Page.visitor disk = .ok last)
    (hrecord : (start (startText o name front).input []).run (.recorder true) disk = .ok found)
    (hfound : ∀ e ∈ found.state, e.kind ≠ .directive "page")
    (hcut : ¬ Recognition.Straddled front rest)
    (hinput : Input.Tracks root (front.unifyBreaks ++ rest.unifyBreaks) (startText o name []).input
      m.input)
    (hpage : ({ (startText o name front).state with settings } : Page).Alike m.page) :
    ∃ m' : Scan Page, m.run Page.visitor disk = m'.run Page.visitor disk ∧
      Input.Tracks root rest.unifyBreaks last.input m'.input ∧
      ({ last.state with settings } : Page).Alike m'.page := by
  obtain ⟨-, again, hagain, hsame, -, hstate⟩ := run_of_settings hparse hrecord hfound settings
  have hbegin : Tracks Taken.Alike root rest.unifyBreaks
      { startText o name front with state := { (startText o name front).state with settings } } m :=
    ⟨tracks_startText_within hinput hcut, hpage⟩
  obtain ⟨m', -, hrun, htracks, halike, -, -⟩ := exists_alike_of_run hbegin hagain
  exact ⟨m', hrun, hsame ▸ htracks, hstate ▸ halike⟩

end Scan

/-- A page directive acts on the whole page: in front of a template and between two parts of it, the
module has the same text, or compiling fails with the same fault. The first part is one that can be
read alone, neither it nor a file that it includes holds a page directive, and neither an opening
delimiter nor a pair of line break characters is cut by the directive. -/
theorem compileText_pageDirective (disk : Disk) (o : Options) (name : Text)
    {tag front rest : Text} {c : Cut} {last : Scan Page} {found : Scan (List Element)}
    (htag : Cut.first? tag.unifyBreaks = some (some (c, []))) (hk : c.kind = .directive "page")
    (hparse : (startText o name front).run Page.visitor disk = .ok last)
    (hrecord : (Scan.start (startText o name front).input []).run (.recorder true) disk = .ok found)
    (hfound : ∀ e ∈ found.state, e.kind ≠ .directive "page")
    (hcut : ¬ Recognition.Straddled front rest) (hpair : ¬ Text.SplitsPair front rest) :
    (compileText disk o name (tag ++ (front ++ rest))).outcome =
      (compileText disk o name (front ++ (tag ++ rest))).outcome := by
  rw [outcome_compileText, outcome_compileText]
  obtain ⟨hcut₁, hpair₁⟩ := Recognition.not_straddled_directive htag hk [] (front ++ rest)
  obtain ⟨hcut₂, hpair₂⟩ := Recognition.not_straddled_directive htag hk front rest
  have hempty : (startText o name []).run Page.visitor disk = .ok (startText o name []) :=
    Scan.run_of_unread rfl
  obtain ⟨m, r, hm, htracks, halike, hstack, hr⟩ := Scan.exists_arrival hempty hcut₁ hpair₁
  obtain ⟨m', r', hm', htracks', halike', hstack', hr'⟩ := Scan.exists_arrival hparse hcut₂ hpair₂
  rw [List.nil_append] at hm
  rw [Text.unifyBreaks_directive htag hk] at htracks htracks'
  rw [hm, hm']
  have hhead : c.kind ≠ .methodHead := by
    rw [hk]
    exact nofun
  have hinclusion : c.event.inclusion? = none := by
    refine if_neg ?_
    rw [show c.event.kind = _ from hk]
    decide
  have hinitial := (Scan.run_of_settings hparse hrecord hfound (.ofOptions o)).1
  cases happly : Settings.applyAll (.ofOptions o) c.attributes.entries with
  | mk settings fault? =>
    have haccept := @Page.accept_pageDirective disk c hk m.page _ _ _ halike.settings.symm happly
    have haccept' := @Page.accept_pageDirective disk c hk m'.page _ _ _
      (halike'.settings.symm.trans hinitial) happly
    cases fault? with
    | some fault =>
      obtain ⟨halt, hhalt, hfault⟩ := Scan.run_of_refuse htracks hstack hr
        (Cut.first?_directive_append htag hk _) hhead haccept
      obtain ⟨halt', hhalt', hfault'⟩ := Scan.run_of_refuse htracks' hstack' hr'
        (Cut.first?_directive_append htag hk _) hhead haccept'
      rw [hhalt, hhalt']
      exact congrArg Except.error (hfault.trans hfault'.symm)
    | none =>
      obtain ⟨behind, hrun, hinput, hpage⟩ := Scan.run_of_accept htracks hstack hr
        (Cut.first?_directive_append htag hk _) hhead hinclusion haccept
      obtain ⟨behind', hrun', hinput', hpage'⟩ := Scan.run_of_accept htracks' hstack' hr'
        (Cut.first?_directive_append htag hk _) hhead hinclusion haccept'
      rw [Text.unifyBreaks_append hpair] at hinput
      have hbehind :
          ({ (startText o name front).state with settings } : Page).Alike behind.page := by
        rw [hpage]
        exact Page.alike_settings halike settings
      obtain ⟨again, hagain, htracks'', halike''⟩ :=
        Scan.exists_arrival_again hparse hrecord hfound hcut hinput hbehind
      rw [hrun, hrun', hagain]
      refine Scan.outcome_of_arrival hstack' hr' htracks'' hinput' ?_
      rw [hpage']
      exact halike''.symm.trans (Page.alike_settings halike' settings)

/-- Elements that are checked one by one are of other kinds. -/
theorem Element.forall_kind_ne {elements : List Element} {kind : ElementKind}
    (h : (elements.all fun e => decide (e.kind ≠ kind)) = true) : ∀ e ∈ elements, e.kind ≠ kind :=
  fun e he => of_decide_eq_true (List.all_eq_true.mp h e he)

/-- Without brace syntax a page has a module. -/
theorem Page.exists_outcome_of_ne_braces {page : Page} (h : page.settings.style ≠ .braces) :
    ∃ text, page.outcome = .ok text := by
  obtain ⟨text, htext⟩ := exists_text_of_ne_braces h
  exact ⟨text, by rw [outcome, htext]; rfl⟩

/-- Directives behind a part that ends with a carriage return, in front of an expression. With one of
them both templates compile, and the other one fits up to its last attribute. -/
theorem compileText_pageDirective_behind_text :
    ∃ (c refused : Cut) (last : Scan Page) (found : Scan (List Element)) (text : Text),
      Cut.first? (Text.unifyBreaks "<%@ page method='m'\r\nindentSpaces='2' %>") =
        some (some (c, [])) ∧
      Cut.first? (Text.unifyBreaks "<%@ page method='m'\r\nindentSpaces='0' %>") =
        some (some (refused, [])) ∧
      (startText {} "page" "a<%--b--%>\r").run Page.visitor FileTree.empty.disk = .ok last ∧
      (Scan.start (startText {} "page" "a<%--b--%>\r").input []).run (.recorder true)
        FileTree.empty.disk = .ok found ∧
      (compileText FileTree.empty.disk {} "page"
        ("<%@ page method='m'\r\nindentSpaces='2' %>" ++ ("a<%--b--%>\r" ++ "<%= x %>"))).outcome =
        .ok text ∧
      (compileText FileTree.empty.disk {} "page"
        ("a<%--b--%>\r" ++
          ("<%@ page method='m'\r\nindentSpaces='2' %>" ++ "<%= x %>"))).outcome = .ok text ∧
      (compileText FileTree.empty.disk {} "page"
        ("<%@ page method='m'\r\nindentSpaces='0' %>" ++ ("a<%--b--%>\r" ++ "<%= x %>"))).outcome =
      (compileText FileTree.empty.disk {} "page"
        ("a<%--b--%>\r" ++
          ("<%@ page method='m'\r\nindentSpaces='0' %>" ++ "<%= x %>"))).outcome := by
  have hparse : (startText {} "page" "a<%--b--%>\r").run Page.visitor FileTree.empty.disk = .ok _ :=
    Scan.run_of_runWithin (n := 10) (Option.some_get (by decide +kernel)).symm
  obtain ⟨found, hrecord, hfound⟩ : ∃ found : Scan (List Element),
      (Scan.start (startText {} "page" "a<%--b--%>\r").input []).run (.recorder true)
        FileTree.empty.disk = .ok found ∧ ∀ e ∈ found.state, e.kind ≠ .directive "page" :=
    ⟨_, Scan.run_of_runWithin (n := 10) (Option.some_get (by decide +kernel)).symm,
      Element.forall_kind_ne (by decide +kernel)⟩
  have htag : Cut.first? (Text.unifyBreaks "<%@ page method='m'\r\nindentSpaces='2' %>") =
      some (some (⟨.directive "page", ⟨[("method", "m"), ("indentSpaces", "2")]⟩, [],
        "<%@ page method='m'\nindentSpaces='2' %>", []⟩, [])) := by decide +kernel
  have htag' : Cut.first? (Text.unifyBreaks "<%@ page method='m'\r\nindentSpaces='0' %>") =
      some (some (⟨.directive "page", ⟨[("method", "m"), ("indentSpaces", "0")]⟩, [],
        "<%@ page method='m'\nindentSpaces='0' %>", []⟩, [])) := by decide +kernel
  obtain ⟨text, htext⟩ : ∃ text, (compileText FileTree.empty.disk {} "page"
      ("<%@ page method='m'\r\nindentSpaces='2' %>" ++ ("a<%--b--%>\r" ++ "<%= x %>"))).outcome =
      .ok text := by
    have hrun : (startText {} "page" ("<%@ page method='m'\r\nindentSpaces='2' %>" ++
        ("a<%--b--%>\r" ++ "<%= x %>"))).run Page.visitor FileTree.empty.disk = .ok _ :=
      Scan.run_of_runWithin (n := 10) (Option.some_get (by decide +kernel)).symm
    rw [outcome_compileText, hrun]
    exact Page.exists_outcome_of_ne_braces (by decide +kernel)
  refine ⟨_, _, _, found, text, htag, htag', hparse, hrecord, htext, ?_, ?_⟩
  · rw [← htext]
    exact (compileText_pageDirective _ _ _ htag rfl hparse hrecord hfound (by decide +kernel)
      (by decide)).symm
  · exact compileText_pageDirective _ _ _ htag' rfl hparse hrecord hfound (by decide +kernel)
      (by decide)

/-- The module of a page that writes one text tells the text. -/
theorem Page.text_eq_of_outcome_eq (page : Page) {t u : Text}
    (h : ({ page with fragments := [.text t] } : Page).outcome =
      ({ page with fragments := [.text u] } : Page).outcome) : t = u := by
  obtain ⟨p, hp⟩ : ∃ p, page.writeService (page.writeClass
      ((Printer.start page.settings.style page.settings.spaces).writeLines page.headLines)) = p :=
    ⟨_, rfl⟩
  have houtcome : ∀ chars : Text, ({ page with fragments := [.text chars] } : Page).outcome =
      .ok (p.text ++ Fragment.statement p.indentation chars.quoteLong ++ "\n##footer\n") := by
    intro chars
    have hshown : Fragment.AllShown [.text chars] := List.forall_mem_singleton.mpr rfl
    have hgenerate := @generate_of_allShown { page with fragments := [.text chars] } p hshown hp
    rw [outcome, hgenerate]
    simp only [Fragment.mergeTexts, List.flatMap_cons, List.flatMap_nil, List.append_nil]
    rfl
  rw [houtcome, houtcome] at h
  have hstatement := List.append_cancel_left (List.append_cancel_right (Except.ok.inj h))
  rw [Fragment.statement, Fragment.statement] at hstatement
  have hquoted : t.quoteLong = u.quoteLong :=
    List.append_cancel_left (List.append_cancel_right (List.append_cancel_left hstatement))
  have hread := Text.readLong_quoteLong t []
  rw [hquoted, Text.readLong_quoteLong] at hread
  exact (Prod.mk.inj (Option.some.inj hread)).1.symm

/-- Between a carriage return and a line feed, a directive makes two line breaks of one. -/
theorem compileText_pageDirective_splits_pair :
    (∃ c, Cut.first? (Text.unifyBreaks "<%@ page %>") = some (some (c, [])) ∧
      c.kind = .directive "page") ∧
    (∃ last, (startText {} "page" "a\r").run Page.visitor FileTree.empty.disk = .ok last) ∧
    (∃ found : Scan (List Element), (Scan.start (startText {} "page" "a\r").input []).run
        (.recorder true) FileTree.empty.disk = .ok found ∧
      ∀ e ∈ found.state, e.kind ≠ .directive "page") ∧
    ¬ Recognition.Straddled "a\r" "\nb" ∧
    (compileText FileTree.empty.disk {} "page" ("<%@ page %>" ++ ("a\r" ++ "\nb"))).outcome ≠
      (compileText FileTree.empty.disk {} "page" ("a\r" ++ ("<%@ page %>" ++ "\nb"))).outcome := by
  have hfront : (startText {} "page" ("<%@ page %>" ++ ("a\r" ++ "\nb"))).run Page.visitor
      FileTree.empty.disk = .ok _ :=
    Scan.run_of_runWithin (n := 10) (Option.some_get (by decide +kernel)).symm
  have hbetween : (startText {} "page" ("a\r" ++ ("<%@ page %>" ++ "\nb"))).run Page.visitor
      FileTree.empty.disk = .ok _ :=
    Scan.run_of_runWithin (n := 10) (Option.some_get (by decide +kernel)).symm
  refine ⟨⟨⟨.directive "page", .empty, [], "<%@ page %>", []⟩, by decide +kernel, rfl⟩,
    ⟨_, Scan.run_of_runWithin (n := 10) (Option.some_get (by decide +kernel)).symm⟩,
    ⟨_, Scan.run_of_runWithin (n := 10) (Option.some_get (by decide +kernel)).symm,
      Element.forall_kind_ne (by decide +kernel)⟩,
    by decide +kernel, ?_⟩
  rw [outcome_compileText, outcome_compileText, hfront, hbetween]
  intro hsame
  have htexts := Page.text_eq_of_outcome_eq (Page.start {} "page" "page") (t := "a\nb")
    (u := "a\n\nb") ((Page.outcome_of_alike ?_).trans (hsame.trans (Page.outcome_of_alike ?_)))
  · exact absurd htexts (by decide)
  · unfold Page.Alike
    decide +kernel
  · unfold Page.Alike
    decide +kernel

end ServerPages
