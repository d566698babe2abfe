import ServerPages.Proofs.Markup.Construct
import ServerPages.Proofs.Page.Module

/-!
# From elements to fragments

A fragment keeps the place of its script only to report it, so as long as nothing fails the place
does not matter. Texts that are apart and not blank are neither merged nor dropped. A page whose
fragments all belong to its body is therefore the frame of the body around just these fragments.
-/

namespace ServerPages

namespace Fragment

/-- A fragment without its place in the template. -/
def erase : Fragment → Fragment
  | script code _ => script code none
  | f => f

@[simp] theorem isText_erase (f : Fragment) : f.erase.isText = f.isText := by cases f <;> rfl

@[simp] theorem isBlankText_erase (f : Fragment) : f.erase.isBlankText = f.isBlankText := by
  cases f <;> rfl

@[simp] theorem region_erase (f : Fragment) : f.erase.region = f.region := by cases f <;> rfl

theorem emit_script (code : Text) (span? : Option Span) (p : Printer) :
    (script code span?).emit p =
      ((Script.write p code).1.map fun fault => ⟨fault, span?⟩, (Script.write p code).2) := rfl

theorem emitAll_cons {f : Fragment} {p q : Printer} (h : f.emit p = (none, q))
    (rest : List Fragment) : emitAll p (f :: rest) = emitAll q rest := by
  rw [emitAll, h]

/-- A fragment that is written without a fault is written in the same way at every place. -/
theorem emit_of_erase {f : Fragment} {p q : Printer} (h : f.erase.emit p = (none, q)) :
    f.emit p = (none, q) := by
  cases f with
  | script code span? =>
    rw [erase, emit_script, Prod.mk.injEq, Option.map_eq_none_iff] at h
    rw [emit_script, h.1, h.2, Option.map_none]
  | _ => exact h

/-- Fragments that can be written without their places can be written with them. -/
theorem emitAll_of_erase {fragments : List Fragment} {p q : Printer}
    (h : emitAll p (fragments.map erase) = .ok q) : emitAll p fragments = .ok q := by
  induction fragments generalizing p with
  | nil => exact h
  | cons f rest ih =>
    rw [List.map_cons, emitAll] at h
    cases he : f.erase.emit p with
    | mk failure? next =>
      rw [he] at h
      cases failure? with
      | some failure => cases h
      | none => exact (emitAll_cons (emit_of_erase he) rest).trans (ih h)

/-- Only texts are merged. -/
theorem merge?_eq_none {f g : Fragment} (h : f.isText = true → g.isText = false) :
    f.merge? g = none := by
  cases f with
  | text chars =>
    cases g with
    | text more => cases h rfl
    | _ => rfl
  | _ => rfl

/-- Texts that are apart are not merged. -/
theorem mergeTexts_eq_self {fragments : List Fragment} (h : areApart isText fragments = true) :
    mergeTexts fragments = fragments := by
  induction fragments with
  | nil => rfl
  | cons f rest ih =>
    obtain ⟨hnext, hrest⟩ := areApart_cons.mp h
    rw [mergeTexts, ih hrest]
    cases rest with
    | nil => rfl
    | cons g more => simp only [merge?_eq_none fun hf => hnext hf g rfl]

/-- Only blank texts are dropped. -/
theorem gobble_eq_self {fragments : List Fragment}
    (h : ∀ f ∈ fragments, f.isBlankText = false) : gobble fragments = fragments := by
  have hafter : ∀ before?, gobbleAfter before? fragments = fragments := by
    induction fragments with
    | nil => exact fun _ => rfl
    | cons f rest ih =>
      intro before?
      rw [List.forall_mem_cons] at h
      rw [gobbleAfter, h.1, ih h.2]
      rfl
  exact hafter none

end Fragment

/-- The fragment of the page body that an element leaves if it says this. -/
def Event.fragment? (event : Event) : Option Fragment :=
  match event.kind with
  | .plainText => if event.text = [] then none else some (.text event.text)
  | .expression => some (.expression event.text)
  | .endBlock false => some .endBlock
  | .script => some (.script event.text none)
  | _ => none

/-- An element that makes a fragment includes no file. -/
theorem Event.inclusion?_of_fragment? {event : Event} {f : Fragment}
    (h : event.fragment? = some f) : event.inclusion? = none := by
  obtain ⟨kind, text, attributes⟩ := event
  cases kind with
  | directive name => cases h
  | _ => rfl

namespace Page

/-- A page gains the fragment of the page body that an element leaves. -/
def Gains (page : Page) (event : Event) (next : Page) : Prop :=
  ∃ f, event.fragment? = some f.erase ∧ next = { page with fragments := page.fragments ++ [f] }

/-- Adding a fragment of the page body changes nothing but the fragments. -/
theorem add_eq (page : Page) {f : Fragment} (hf : f.region = .service) :
    page.add f [] = { page with fragments := page.fragments ++ [f] } := by
  cases f with
  | methodHead name params? => cases hf
  | _ => simp [add]

/-- An element that leaves a fragment of the page body is accepted, and leaves this fragment with
its own place. -/
theorem accept_of_event {e : Element} {f : Fragment} (h : e.event.fragment? = some f)
    (disk : Disk) (stack : Stack) (page : Page) :
    ∃ g, g.erase = f ∧
      accept disk stack e page = ({ page with fragments := page.fragments ++ [g] }, none) := by
  obtain ⟨kind, text, attributes, start, stop⟩ := e
  cases kind with
  | plainText =>
    have ht : text ≠ [] := by
      rintro rfl
      cases h
    refine ⟨.text text, Option.some.inj ((if_neg ht).symm.trans h), ?_⟩
    rw [← page.add_eq rfl]
    simp [accept, fragment?, ht, Element.notices]
  | expression =>
    exact ⟨.expression text, Option.some.inj h, congrArg (Prod.mk · none) (page.add_eq rfl)⟩
  | endBlock marked =>
    cases marked with
    | true => cases h
    | false => exact ⟨.endBlock, Option.some.inj h, congrArg (Prod.mk · none) (page.add_eq rfl)⟩
  | script =>
    exact ⟨.script text (some start.span), Option.some.inj h,
      congrArg (Prod.mk · none) (page.add_eq rfl)⟩
  | _ => cases h

/-- A page takes every element that leaves a fragment of the page body. -/
theorem visitor_takes {event : Event} {f : Fragment} (h : event.fragment? = some f) (disk : Disk) :
    visitor.Takes disk Gains event := by
  refine ⟨fun _ => Event.inclusion?_of_fragment? h, fun e stack page he => ?_⟩
  subst he
  obtain ⟨g, hg, haccept⟩ := accept_of_event h disk stack page
  exact ⟨_, haccept, g, hg ▸ h, rfl⟩

/-- Elements that leave fragments of the page body change the fragments of a page and nothing
else. -/
theorem steps_gains {page last : Page} {events : List Event}
    (h : Event.Steps Gains page events last) :
    ∃ fragments, last = { page with fragments } ∧
      fragments.map Fragment.erase =
        page.fragments.map Fragment.erase ++ events.filterMap Event.fragment? := by
  induction events generalizing page with
  | nil => exact ⟨page.fragments, (show page = last from h) ▸ rfl, by simp⟩
  | cons event events ih =>
    obtain ⟨_, ⟨f, hf, rfl⟩, hsteps⟩ := h
    obtain ⟨fragments, hlast, hmap⟩ := ih hsteps
    refine ⟨fragments, hlast, ?_⟩
    rw [hmap, List.filterMap_cons, hf]
    simp

/-- Texts that are apart and not blank stay as they are. -/
theorem tidy_eq_self {page : Page} (ha : areApart Fragment.isText page.fragments = true)
    (hv : ∀ f ∈ page.fragments, f.isBlankText = false) : page.tidy = page := by
  rw [tidy, Fragment.mergeTexts_eq_self ha, Fragment.gobble_eq_self hv, ite_self]

/-- A page without other fragments has nothing to write in front of its body. -/
theorem emitRegion_eq_ok {page : Page} (hbody : ∀ f ∈ page.fragments, f.region = .service)
    (region : Region) (hr : region ≠ .service) (p : Printer) :
    page.emitRegion region p = .ok p := by
  have hnone : (page.fragments.filter fun f => f.region = region) = [] :=
    List.filter_eq_nil_iff.mpr fun f hf he => hr ((of_decide_eq_true he).symm.trans (hbody f hf))
  rw [emitRegion, hnone, Fragment.emitAll]

/-- The frame of a page whose fragments belong to its body does not depend on them. -/
theorem emitFrame_of_service {page : Page} (hbody : ∀ f ∈ page.fragments, f.region = .service) :
    page.emitFrame = .ok (page.writeService (page.writeClass
      ((Printer.start page.settings.style page.settings.spaces).writeLines page.headLines))) := by
  simp only [emitFrame, emitRegion_eq_ok hbody .module nofun,
    emitRegion_eq_ok hbody .classBody nofun, emitRegion_eq_ok hbody .methods nofun, bind,
    Except.bind]

/-- All fragments of a page that belong to its body are written there. -/
theorem emitRegion_service {page : Page} (hbody : ∀ f ∈ page.fragments, f.region = .service)
    (p : Printer) : page.emitRegion .service p = Fragment.emitAll p page.fragments := by
  have hall : (page.fragments.filter fun f => f.region = .service) = page.fragments :=
    List.filter_eq_self.mpr fun f hm => decide_eq_true (hbody f hm)
  rw [emitRegion, hall]

/-- A page whose fragments belong to its body is the frame of the body around them. -/
theorem generate_of_emitAll {page : Page} {fragments : List Fragment} {p q : Printer}
    (hpage : page.fragments.map Fragment.erase = fragments)
    (ha : areApart Fragment.isText fragments = true)
    (hf : ∀ f ∈ fragments, f.isBlankText = false ∧ f.region = .service)
    (hp : page.writeService (page.writeClass
      ((Printer.start page.settings.style page.settings.spaces).writeLines page.headLines)) = p)
    (hemit : Fragment.emitAll p fragments = .ok q) :
    page.generate.1 = .ok (q.text ++ "\n##footer\n") := by
  subst hpage
  rw [areApart_map Fragment.isText_erase] at ha
  have hown : ∀ f ∈ page.fragments, f.isBlankText = false ∧ f.region = .service := by
    simpa using hf
  have hbody := fun f hm => (hown f hm).2
  have hservice : page.emitRegion .service p = .ok q :=
    (emitRegion_service hbody p).trans (Fragment.emitAll_of_erase hemit)
  rw [generate, emitFrame_of_service hbody, hp, tidy_eq_self ha fun f hm => (hown f hm).1]
  simp only [emitBody, hservice, Except.map, text_writeFooter]

end Page

end ServerPages
