import ServerPages.Proofs.Page.Tidy

/-!
# Pages alike

A page knows more than its module shows: where a script stood, in which pieces a text came, and what
the author is warned about. The shape of a page leaves that out. Pages of one shape take elements in
the same way, and their modules have the same text or fail with the same fault.
-/

namespace ServerPages

theorem mapError_bind {ε ε' α β : Type} (g : ε → ε') (x : Except ε α) (f : α → Except ε β) :
    (x >>= f).mapError g = x.mapError g >>= fun a => (f a).mapError g := by
  cases x <;> rfl

theorem mapError_map {ε ε' α β : Type} (g : ε → ε') (f : α → β) (x : Except ε α) :
    (x.map f).mapError g = (x.mapError g).map f := by
  cases x <;> rfl

namespace Fragment

@[simp] theorem isBoundary_erase (f : Fragment) : f.erase.isBoundary = f.isBoundary := by
  cases f <;> rfl

@[simp] theorem erase_text (chars : Text) : (text chars).erase = text chars := rfl

/-- Whether texts are merged does not depend on the places of scripts. -/
theorem merge?_erase (f g : Fragment) : f.erase.merge? g.erase = (f.merge? g).map erase := by
  cases f with
  | text chars => cases g <;> rfl
  | _ => rfl

/-- Texts are merged in the same way without the places of scripts. -/
theorem mergeTexts_map_erase (fragments : List Fragment) :
    mergeTexts (fragments.map erase) = (mergeTexts fragments).map erase := by
  induction fragments with
  | nil => rfl
  | cons f rest ih =>
    rw [List.map_cons, mergeTexts, mergeTexts, ih]
    cases mergeTexts rest with
    | nil => rfl
    | cons g more =>
      simp only [List.map_cons, merge?_erase]
      cases f.merge? g <;> rfl

/-- Blank texts are dropped in the same way without the places of scripts. -/
theorem gobbleAfter_map_erase (before? : Option Fragment) (fragments : List Fragment) :
    gobbleAfter (before?.map erase) (fragments.map erase) =
      (gobbleAfter before? fragments).map erase := by
  have hany : ∀ f? : Option Fragment, (f?.map erase).any isBoundary = f?.any isBoundary := by
    intro f?
    cases f? with
    | none => rfl
    | some f => exact isBoundary_erase f
  induction fragments generalizing before? with
  | nil => rfl
  | cons f rest ih =>
    have hnext := ih (some f)
    rw [Option.map_some] at hnext
    rw [List.map_cons, gobbleAfter, gobbleAfter, List.head?_map, hany, hany, isBlankText_erase,
      hnext]
    split
    · rfl
    · rfl

/-- A script that fails does so with the same fault at every place. -/
theorem emitAll_map_erase (p : Printer) (fragments : List Fragment) :
    (emitAll p (fragments.map erase)).mapError Failure.fault =
      (emitAll p fragments).mapError Failure.fault := by
  induction fragments generalizing p with
  | nil => rfl
  | cons f rest ih =>
    have hemit : ∃ failure? failure?' q,
        f.emit p = (failure?, q) ∧ f.erase.emit p = (failure?', q) ∧
        failure?'.map Failure.fault = failure?.map Failure.fault := by
      cases f with
      | script code span? =>
        refine ⟨_, _, _, rfl, rfl, ?_⟩
        rw [Option.map_map, Option.map_map]
        rfl
      | _ => exact ⟨_, _, _, rfl, rfl, rfl⟩
    obtain ⟨failure?, failure?', q, he, he', hf⟩ := hemit
    rw [List.map_cons, emitAll, emitAll, he, he']
    cases failure? with
    | none =>
      obtain rfl := Option.map_eq_none_iff.mp hf
      exact ih q
    | some failure =>
      obtain ⟨failure', rfl, hfault⟩ := Option.map_eq_some_iff.mp hf
      exact congrArg Except.error hfault

end Fragment

namespace Page

/-- What the module shows of a page. -/
def shape (page : Page) : Page :=
  { page with
    fragments := Fragment.mergeTexts (page.fragments.map Fragment.erase)
    notices := [] }

/-- Pages whose modules show the same. -/
def Alike (p q : Page) : Prop := p.shape = q.shape

theorem Alike.refl (p : Page) : p.Alike p := rfl

theorem Alike.symm {p q : Page} (h : p.Alike q) : q.Alike p := Eq.symm h

theorem Alike.trans {p q r : Page} (h : p.Alike q) (h' : q.Alike r) : p.Alike r := Eq.trans h h'

theorem Alike.settings {p q : Page} (h : p.Alike q) : p.settings = q.settings := by
  have hshape : p.shape.settings = q.shape.settings := congrArg Page.settings h
  exact hshape

section Generate

variable (page : Page)

/-- The regions before the page body are written in the same way from the shape. -/
theorem emitRegion_shape (region : Region) (hr : region ≠ .service) (p : Printer) :
    (page.shape.emitRegion region p).mapError Failure.fault =
      (page.emitRegion region p).mapError Failure.fault := by
  have hkeep : ∀ chars, decide ((Fragment.text chars).region = region) = false :=
    fun chars => decide_eq_false fun h => hr h.symm
  have hfilter : page.shape.fragments.filter (fun f => f.region = region) =
      (page.fragments.filter fun f => f.region = region).map Fragment.erase := by
    refine (Fragment.filter_mergeTexts hkeep _).trans ?_
    rw [List.filter_map]
    simp only [Function.comp_def, Fragment.region_erase]
  rw [emitRegion, emitRegion, hfilter]
  exact Fragment.emitAll_map_erase p _

/-- All that precedes the page body is written in the same way from the shape. -/
theorem emitFrame_shape :
    page.shape.emitFrame.mapError Failure.fault = page.emitFrame.mapError Failure.fault := by
  have hmodule := page.emitRegion_shape .module nofun
  have hclass := page.emitRegion_shape .classBody nofun
  have hmethods := page.emitRegion_shape .methods nofun
  rw [emitFrame, emitFrame]
  simp only [mapError_bind, hmodule, hclass, hmethods]
  rfl

/-- The tidied shape is the shape of the tidied page. -/
theorem fragments_tidy_shape :
    page.shape.tidy.fragments = page.tidy.fragments.map Fragment.erase := by
  have hmerged := Fragment.mergeTexts_eq_self (Fragment.areApart_mergeTexts page.fragments)
  have hgobble := Fragment.gobbleAfter_map_erase none (Fragment.mergeTexts page.fragments)
  simp only [tidy, shape, Fragment.mergeTexts_map_erase, hmerged]
  split
  · exact hgobble
  · rfl

/-- The page body is written in the same way from the shape. -/
theorem emitBody_shape (p : Printer) :
    (page.shape.tidy.emitBody p).mapError Failure.fault =
      (page.tidy.emitBody p).mapError Failure.fault := by
  have hfilter : (page.tidy.fragments.map Fragment.erase).filter (fun f => f.region = .service) =
      (page.tidy.fragments.filter fun f => f.region = .service).map Fragment.erase := by
    rw [List.filter_map]
    simp only [Function.comp_def, Fragment.region_erase]
  rw [emitBody, emitBody, mapError_map, mapError_map, emitRegion, emitRegion,
    fragments_tidy_shape, hfilter, Fragment.emitAll_map_erase]

/-- The text of the module, or the fault that it fails with. -/
def outcome (page : Page) : Except Fault Text := page.generate.1.mapError Failure.fault

/-- The module is what precedes the page body, and then the tidied page body. -/
theorem outcome_eq : page.outcome =
    page.emitFrame.mapError Failure.fault >>= fun p =>
      (page.tidy.emitBody p).mapError Failure.fault := by
  rw [outcome, generate]
  cases page.emitFrame <;> rfl

/-- A page and its shape have the same module. -/
theorem outcome_shape : page.shape.outcome = page.outcome := by
  rw [outcome_eq, outcome_eq, emitFrame_shape]
  simp only [emitBody_shape]

end Generate

/-- Pages alike have the same module. -/
theorem outcome_of_alike {p q : Page} (h : p.Alike q) : p.outcome = q.outcome := by
  rw [← outcome_shape, ← outcome_shape q]
  exact congrArg outcome h

section Accept

variable {p q : Page}

/-- A fragment is put behind what the page shows. -/
theorem shape_add (page : Page) (f : Fragment) (notices : List Notice) :
    (page.add f notices).shape =
      { page.shape with
        fragments := Fragment.mergeInto page.shape.fragments f.erase
        definesAwake := (page.shape.add f.erase []).definesAwake } := by
  have hmerge : Fragment.mergeTexts ((page.fragments ++ [f]).map Fragment.erase) =
      Fragment.mergeInto (Fragment.mergeTexts (page.fragments.map Fragment.erase)) f.erase := by
    rw [List.map_append]
    exact Fragment.mergeTexts_concat _ _
  cases f <;> simp only [add, shape, hmerge, Fragment.erase]

/-- Fragments that differ in their places only keep pages alike. -/
theorem Alike.add (h : p.Alike q) {f g : Fragment} (hf : f.erase = g.erase)
    (notices notices' : List Notice) : (p.add f notices).Alike (q.add g notices') := by
  unfold Alike at h ⊢
  rw [shape_add, shape_add, h, hf]

/-- A page with more text behind its fragments. -/
def addText (page : Page) (t : Text) : Page := if t = [] then page else page.add (.text t) []

@[simp] theorem addText_nil (page : Page) : page.addText [] = page := if_pos rfl

/-- The same text keeps pages alike. -/
theorem Alike.addText (h : p.Alike q) (t : Text) : (p.addText t).Alike (q.addText t) := by
  unfold Page.addText
  split
  · exact h
  · exact h.add rfl [] []

/-- It does not matter in which pieces a text comes. -/
theorem alike_addText_append (page : Page) (t u : Text) :
    (page.addText (t ++ u)).Alike ((page.addText t).addText u) := by
  by_cases ht : t = []
  · rw [ht, addText_nil]
    exact .refl _
  · by_cases hu : u = []
    · rw [hu, addText_nil, List.append_nil]
      exact .refl _
    · have htu : t ++ u ≠ [] := List.append_ne_nil_of_left_ne_nil ht u
      rw [Page.addText, Page.addText, Page.addText, if_neg ht, if_neg hu, if_neg htu]
      have hmerge : Fragment.mergeTexts (page.fragments.map Fragment.erase ++ [.text (t ++ u)]) =
          Fragment.mergeTexts (page.fragments.map Fragment.erase ++ [.text t, .text u]) := by
        rw [Fragment.mergeTexts_append, Fragment.mergeTexts_append]
        exact Fragment.mergeInto_text_append _ t u
      simp [Alike, shape, Page.add, hmerge]

/-- The same settings keep pages alike. -/
theorem alike_settings (h : p.Alike q) (settings : Settings) :
    ({ p with settings } : Page).Alike { q with settings } := by
  have hshape : ({ p.shape with settings } : Page) = { q.shape with settings } := by rw [h]
  exact hshape

variable {disk : Disk} {stack stack' : Stack} {e e' : Element}

/-- A directive does the same to pages alike. -/
theorem direct_alike (h : p.Alike q) (name : Text) (he : e.attributes = e'.attributes) :
    (p.direct name e).1.Alike (q.direct name e').1 ∧
      (p.direct name e).2 = (q.direct name e').2 := by
  unfold direct required
  rw [h.settings, he]
  split
  · exact ⟨alike_settings h _, rfl⟩
  · split
    · split
      · exact ⟨h, rfl⟩
      · exact ⟨h, rfl⟩
    · exact ⟨h, rfl⟩

/-- What a fragment shows depends on what its element says, and on the directory of the file. -/
theorem fragment?_of_event_eq (he : e.event = e'.event)
    (hs : ∀ path, stack.resolve path = stack'.resolve path) :
    (fragment? disk stack e).map (Option.map Fragment.erase) =
      (fragment? disk stack' e').map (Option.map Fragment.erase) := by
  obtain ⟨kind, text, attributes, start, stop⟩ := e
  obtain ⟨kind', text', attributes', start', stop'⟩ := e'
  obtain ⟨rfl, rfl, rfl⟩ := Event.mk.inj he
  cases kind with
  | fileInsert =>
    simp only [fragment?, insertion, required, isStatic, hs]
    rfl
  | _ => rfl

/-- Every element but a directive adds the fragment that it makes, if any. -/
theorem accept_of_fragment? (hk : ∀ name, e.kind ≠ .directive name) (page : Page) :
    accept disk stack e page =
      match fragment? disk stack e with
      | .error fault => (page, some fault)
      | .ok none => (page, none)
      | .ok (some f) => (page.add f e.notices, none) := by
  unfold accept
  split
  · rename_i name hname
    exact absurd hname (hk name)
  · rfl

/-- Pages alike accept what says the same and stay alike, or refuse it with the same fault. -/
theorem accept_alike (h : p.Alike q) (he : e.event = e'.event)
    (hs : ∀ path, stack.resolve path = stack'.resolve path) :
    (accept disk stack e p).1.Alike (accept disk stack' e' q).1 ∧
      (accept disk stack e p).2 = (accept disk stack' e' q).2 := by
  have hkind : e.kind = e'.kind := congrArg Event.kind he
  by_cases hk : ∃ name, e.kind = .directive name
  · obtain ⟨name, hname⟩ := hk
    have hname' := hname
    rw [hkind] at hname'
    simp only [accept, hname, hname']
    exact direct_alike h name (congrArg Event.attributes he)
  · have hk : ∀ name, e.kind ≠ .directive name := fun name hname => hk ⟨name, hname⟩
    have hfragment : (fragment? disk stack e).map (Option.map Fragment.erase) =
        (fragment? disk stack' e').map (Option.map Fragment.erase) := fragment?_of_event_eq he hs
    rw [accept_of_fragment? hk, accept_of_fragment? (hkind ▸ hk)]
    cases hf : fragment? disk stack e with
    | error fault =>
      cases hf' : fragment? disk stack' e' with
      | error fault' =>
        rw [hf, hf'] at hfragment
        exact ⟨h, congrArg some (Except.error.inj hfragment)⟩
      | ok f? =>
        rw [hf, hf'] at hfragment
        cases hfragment
    | ok f? =>
      cases hf' : fragment? disk stack' e' with
      | error fault' =>
        rw [hf, hf'] at hfragment
        cases hfragment
      | ok g? =>
        rw [hf, hf'] at hfragment
        have herase := Except.ok.inj hfragment
        cases f? with
        | none =>
          obtain rfl := Option.map_eq_none_iff.mp herase.symm
          exact ⟨h, rfl⟩
        | some f =>
          obtain ⟨g, rfl, hg⟩ := Option.map_eq_some_iff.mp herase.symm
          exact ⟨h.add hg.symm _ _, rfl⟩

end Accept

end Page

end ServerPages
