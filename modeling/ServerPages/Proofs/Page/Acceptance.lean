import ServerPages.Proofs.Markup.Step
import ServerPages.Proofs.Page.Alike

/-!
# Taking an element, or leaving all as it is

A page takes an element as a whole or refuses it and stays as it is, and with it the input. A page
directive is the exception: its attributes take effect one after the other, so those in front of the
first that does not fit have taken effect when the directive is refused.
-/

namespace ServerPages

/-- An element that leaves no fragment: a comment, a directive, or text that is empty. -/
def Element.IsSilent (e : Element) : Prop :=
  e.kind = .comment ∨ (∃ name, e.kind = .directive name) ∨ e.kind = .plainText ∧ e.text = []

/-- Attributes are applied in order, up to the first that does not fit. It changes nothing. -/
theorem Settings.applyAll_eq_some {s last : Settings} {entries : List (Text × Text)} {fault : Fault}
    (h : s.applyAll entries = (last, some fault)) :
    ∃ applied name value rest, entries = applied ++ (name, value) :: rest ∧
      applied.foldlM (fun (before : Settings) entry => before.apply entry.1 entry.2) s = .ok last ∧
      last.apply name value = .error fault := by
  fun_induction applyAll s entries with
  | case1 => cases h
  | case2 s name value rest next hnext ih =>
    obtain ⟨applied, other, found, more, rfl, hfold, hfault⟩ := ih h
    refine ⟨(name, value) :: applied, other, found, more, rfl, ?_, hfault⟩
    rw [List.foldlM_cons, hnext]
    exact hfold
  | case3 s name value rest error herror =>
    obtain ⟨rfl, hsame⟩ := Prod.mk.inj h
    obtain rfl := Option.some.inj hsame
    exact ⟨[], name, value, rest, rfl, rfl, herror⟩

namespace Page

variable (disk : Disk) (stack : Stack) (e : Element) (page : Page)

/-- Where a fragment is made of something, there is a fragment. -/
private theorem exists_some_of_map_eq_ok {α : Type} {x : Except Fault α} {g : α → Fragment}
    {f? : Option Fragment} (h : x.map (fun a => some (g a)) = .ok f?) : ∃ f, f? = some f := by
  cases x with
  | error fault => cases h
  | ok a => exact ⟨g a, (Except.ok.inj h).symm⟩

/-- An element that is no directive leaves no fragment just if it is silent. -/
theorem isSilent_of_fragment? {e : Element} (hk : ∀ name, e.kind ≠ .directive name)
    {f? : Option Fragment} (h : fragment? disk stack e = .ok f?) : f? = none ↔ e.IsSilent := by
  obtain ⟨kind, text, attributes, start, stop⟩ := e
  cases kind with
  | directive name => exact absurd rfl (hk name)
  | comment =>
    obtain rfl := Except.ok.inj h
    exact iff_of_true rfl (.inl rfl)
  | plainText =>
    obtain rfl := Except.ok.inj h
    simp [Element.IsSilent]
  | methodHead | urlInclude | fileInsert =>
    obtain ⟨f, rfl⟩ := exists_some_of_map_eq_ok h
    simp [Element.IsSilent]
  | _ =>
    obtain rfl := Except.ok.inj h
    simp [Element.IsSilent]

/-- What a page does with an element: it follows a page directive, refuses the element, takes it
without a trace, or adds its fragment. -/
theorem accept_cases :
    (e.kind = .directive "page" ∧ accept disk stack e page =
      ({ page with settings := (page.settings.applyAll e.attributes.entries).1 },
        (page.settings.applyAll e.attributes.entries).2)) ∨
    (e.kind ≠ .directive "page" ∧
      ((∃ fault, accept disk stack e page = (page, some fault)) ∨
      (e.IsSilent ∧ accept disk stack e page = (page, none)) ∨
      (¬ e.IsSilent ∧ ∃ f, fragment? disk stack e = .ok (some f) ∧
        accept disk stack e page = (page.add f e.notices, none)))) := by
  by_cases hdirective : ∃ name, e.kind = .directive name
  · obtain ⟨name, hname⟩ := hdirective
    by_cases hpage : name = "page"
    · left
      refine ⟨hpage ▸ hname, ?_⟩
      simp only [accept, hname, direct, if_pos hpage]
    · right
      refine ⟨fun hk => hpage (ElementKind.directive.inj (hname.symm.trans hk)), ?_⟩
      have hsilent : e.IsSilent := .inr (.inl ⟨name, hname⟩)
      simp only [accept, hname, direct, if_neg hpage]
      -- An include directive is taken as soon as it names a file: the scan opens the file.
      by_cases hinclude : name = "include"
      · simp only [if_pos hinclude]
        cases required e "include" "file" with
        | ok path => exact .inr (.inl ⟨hsilent, rfl⟩)
        | error fault => exact .inl ⟨fault, rfl⟩
      · simp only [if_neg hinclude]
        exact .inl ⟨_, rfl⟩
  · right
    have hk : ∀ name, e.kind ≠ .directive name := fun name hname => hdirective ⟨name, hname⟩
    refine ⟨hk "page", ?_⟩
    rw [accept_of_fragment? hk]
    cases hf : fragment? disk stack e with
    | error fault => exact .inl ⟨fault, rfl⟩
    | ok f? =>
      have hsilent := isSilent_of_fragment? disk stack hk hf
      cases f? with
      | none => exact .inr (.inl ⟨hsilent.mp rfl, rfl⟩)
      | some f => exact .inr (.inr ⟨fun hs => Option.some_ne_none f (hsilent.mpr hs), f, rfl, rfl⟩)

variable {disk stack e page} {after : Page} {fault : Fault}

/-- A page that refuses an element other than a page directive stays as it is. -/
theorem eq_of_accept_eq_some (h : accept disk stack e page = (after, some fault))
    (hk : e.kind ≠ .directive "page") : after = page := by
  obtain ⟨hpage, -⟩ | ⟨-, ⟨other, ha⟩ | ⟨-, ha⟩ | ⟨-, f, -, ha⟩⟩ := accept_cases disk stack e page
  · exact absurd hpage hk
  · exact (Prod.mk.inj (h.symm.trans ha)).1
  · exact absurd (Prod.mk.inj (h.symm.trans ha)).2 (Option.some_ne_none fault)
  · exact absurd (Prod.mk.inj (h.symm.trans ha)).2 (Option.some_ne_none fault)

/-- A page that refuses a page directive has followed it up to the attribute that does not fit. -/
theorem exists_of_accept_pageDirective (h : accept disk stack e page = (after, some fault))
    (hk : e.kind = .directive "page") :
    ∃ applied name value rest settings,
      e.attributes.entries = applied ++ (name, value) :: rest ∧
      applied.foldlM (fun (before : Settings) entry => before.apply entry.1 entry.2)
        page.settings = .ok settings ∧
      settings.apply name value = .error fault ∧ after = { page with settings } := by
  obtain ⟨-, ha⟩ | ⟨hother, -⟩ := accept_cases disk stack e page
  · obtain ⟨hafter, hfault⟩ := Prod.mk.inj (h.symm.trans ha)
    obtain ⟨applied, name, value, rest, hentries, hfold, herror⟩ :=
      Settings.applyAll_eq_some (Prod.ext rfl hfault.symm)
    exact ⟨applied, name, value, rest, _, hentries, hfold, herror, hafter⟩
  · exact absurd hk hother

/-- A page that takes an element adds its fragment, or nothing if the element is silent. -/
theorem fragments_of_accept (h : accept disk stack e page = (after, none)) :
    (e.IsSilent → after.fragments = page.fragments) ∧
      (¬ e.IsSilent → ∃ f, fragment? disk stack e = .ok (some f) ∧
        after.fragments = page.fragments ++ [f]) := by
  obtain ⟨hk, ha⟩ | ⟨-, ⟨fault, ha⟩ | ⟨hsilent, ha⟩ | ⟨hsilent, f, hf, ha⟩⟩ :=
    accept_cases disk stack e page
  · obtain rfl := (Prod.mk.inj (h.symm.trans ha)).1
    exact ⟨fun _ => rfl, fun hs => absurd (.inr (.inl ⟨_, hk⟩)) hs⟩
  · exact absurd (Prod.mk.inj (ha.symm.trans h)).2 (Option.some_ne_none fault)
  · obtain rfl := (Prod.mk.inj (h.symm.trans ha)).1
    exact ⟨fun _ => rfl, fun hs => absurd hsilent hs⟩
  · obtain rfl := (Prod.mk.inj (h.symm.trans ha)).1
    exact ⟨fun hs => absurd hs hsilent, fun _ => ⟨f, hf, rfl⟩⟩

/-- Whether or not its file can be opened, an include directive leaves the page as it is. -/
theorem eq_of_accept_include (h : accept disk stack e page = (after, none))
    (hk : e.kind = .directive "include") : after = page := by
  obtain ⟨hpage, -⟩ | ⟨-, ⟨fault, ha⟩ | ⟨-, ha⟩ | ⟨hsilent, -⟩⟩ := accept_cases disk stack e page
  · exact absurd (hk.symm.trans hpage) (by decide)
  · exact absurd (Prod.mk.inj (ha.symm.trans h)).2 (Option.some_ne_none fault)
  · exact (Prod.mk.inj (h.symm.trans ha)).1
  · exact absurd (.inr (.inl ⟨_, hk⟩)) hsilent

end Page

namespace Scan

/-- A failed delivery leaves the input. The visitor has refused the element, or has taken it, and
the file that it asks for could not be opened. -/
theorem deliver_error_cases {σ : Type} {v : Visitor σ} {disk : Disk} {e : Element} {s : Scan σ}
    {halt : Halt σ} (h : s.deliver v disk e = .error halt) :
    halt.scan.input = s.input ∧
      (v.accept disk s.input.stack e s.state = (halt.scan.state, some halt.failure.fault) ∨
        v.accept disk s.input.stack e s.state = (halt.scan.state, none) ∧
          e.kind = .directive "include") := by
  simp only [deliver] at h
  split at h
  · cases h
  · rename_i state failure hh
    cases h
    refine ⟨rfl, ?_⟩
    unfold Visitor.handle at hh
    split at hh
    · rename_i ha
      cases hh
      exact .inl ha
    · rename_i ha
      split at hh
      · rename_i inclusion hv hi
        obtain ⟨rfl, -⟩ := Prod.mk.inj hh
        refine .inr ⟨ha, ?_⟩
        apply Decidable.byContradiction
        intro hk
        rw [Element.inclusion?, if_neg hk] at hi
        cases hi
      · cases hh

/-- A page takes an element as a whole or not at all. If it refuses the element, or the file that
the element asks for cannot be opened, the input is as before, and so is the page, except that a
page directive has been followed up to its first attribute that does not fit. If it takes the
element, it has one more fragment, unless the element is silent. -/
theorem deliver_all_or_nothing (disk : Disk) (e : Element) (s : Scan Page) :
    (∀ halt, s.deliver Page.visitor disk e = .error halt →
      halt.scan.input = s.input ∧
      (e.kind ≠ .directive "page" → halt.scan.state = s.state) ∧
      (e.kind = .directive "page" →
        ∃ applied name value rest settings,
          e.attributes.entries = applied ++ (name, value) :: rest ∧
          applied.foldlM (fun (before : Settings) entry => before.apply entry.1 entry.2)
            s.state.settings = .ok settings ∧
          settings.apply name value = .error halt.failure.fault ∧
          halt.scan.state = { s.state with settings })) ∧
    (∀ after, s.deliver Page.visitor disk e = .ok after →
      (e.IsSilent → after.state.fragments = s.state.fragments) ∧
      (¬ e.IsSilent → ∃ f, Page.fragment? disk s.input.stack e = .ok (some f) ∧
        after.state.fragments = s.state.fragments ++ [f])) := by
  constructor
  · intro halt h
    obtain ⟨hinput, hrefused | ⟨htaken, hinclude⟩⟩ := deliver_error_cases h
    · exact ⟨hinput, Page.eq_of_accept_eq_some hrefused,
        Page.exists_of_accept_pageDirective hrefused⟩
    · refine ⟨hinput, fun _ => Page.eq_of_accept_include htaken hinclude, fun hk => ?_⟩
      exact absurd (hinclude.symm.trans hk) (by decide)
  · intro after h
    exact Page.fragments_of_accept (deliver_cases h).1

/-- A page directive whose second attribute does not fit, an include directive whose file is not
there, and an expression. -/
theorem deliver_all_or_nothing_at_second_attribute :
    (∃ halt, (start (Input.empty false) (Page.start {} "P" "p")).deliver Page.visitor Disk.empty
        ⟨.directive "page", [], ⟨[("method", "m"), ("indentSpaces", "0")]⟩, [], []⟩ = .error halt ∧
      ∃ applied name value rest settings,
        [("method".toList, "m".toList), ("indentSpaces".toList, "0".toList)] =
          applied ++ (name, value) :: rest ∧
        applied.foldlM (fun (before : Settings) entry => before.apply entry.1 entry.2)
          (.ofOptions {}) = .ok settings ∧
        settings.apply name value = .error halt.failure.fault ∧
        halt.scan.state = { Page.start {} "P" "p" with settings }) ∧
    (∃ halt, (start (Input.empty false) (Page.start {} "P" "p")).deliver Page.visitor Disk.empty
        ⟨.directive "include", [], ⟨[("file", "f")]⟩, [], []⟩ = .error halt ∧
      halt.scan.input = Input.empty false ∧ halt.scan.state = Page.start {} "P" "p") ∧
    ∃ after, (start (Input.empty false) (Page.start {} "P" "p")).deliver Page.visitor Disk.empty
        ⟨.expression, "x", .empty, [], []⟩ = .ok after ∧
      ∃ f, Page.fragment? Disk.empty [] ⟨.expression, "x", .empty, [], []⟩ = .ok (some f) ∧
        after.state.fragments = [f] := by
  refine ⟨⟨_, rfl, ?_⟩, ⟨_, rfl, ?_⟩, ⟨_, rfl, ?_⟩⟩
  · exact ((deliver_all_or_nothing Disk.empty
      ⟨.directive "page", [], ⟨[("method", "m"), ("indentSpaces", "0")]⟩, [], []⟩
      (start (Input.empty false) (Page.start {} "P" "p"))).1 _ rfl).2.2 rfl
  · obtain ⟨hinput, hpage, -⟩ := (deliver_all_or_nothing Disk.empty
      ⟨.directive "include", [], ⟨[("file", "f")]⟩, [], []⟩
      (start (Input.empty false) (Page.start {} "P" "p"))).1 _ rfl
    exact ⟨hinput, hpage (by decide)⟩
  · exact ((deliver_all_or_nothing Disk.empty ⟨.expression, "x", .empty, [], []⟩
      (start (Input.empty false) (Page.start {} "P" "p"))).2 _ rfl).2 (by simp [Element.IsSilent])

end Scan

end ServerPages
