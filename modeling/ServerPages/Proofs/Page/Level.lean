import ServerPages.Proofs.Code.Action
import ServerPages.Proofs.Page.Fragment
import ServerPages.Proofs.Text.Line

/-!
# The levels of the module

Every region of the module is written at a level of its own. The fragments before the page body
close what they open. In the page body scripts may open and close blocks as they like: every
operation that they carry out keeps the two levels around the body, since the floor lies there, and
keeps the count of blocks in step with the depth.
-/

namespace ServerPages

namespace Printer

/-- The operations that the page body carries out. With brace syntax levels are opened and closed
without counting blocks, and otherwise only together with a block. -/
def Action.Fits (style : BlockStyle) : Action → Prop
  | .indent | .dedent => style = .braces
  | .openBlock => style ≠ .braces
  | .handOn userIndent => userIndent.isBlank = true
  | .write _ | .writeIndent | .closeBlock => True

/-- A printer inside the page body. -/
structure InBody (p : Printer) : Prop where
  /-- The two levels around the body stay open. -/
  floor_eq : p.floor = 2
  /-- The two levels around the body are open. -/
  two_le_depth : 2 ≤ p.depth
  /-- An indentation that is handed on is blank. -/
  isBlank : p.userIndent.isBlank = true
  /-- With brace syntax no block is counted. -/
  blockCount_eq : p.style = .braces → p.blockCount = 0
  /-- Otherwise every level inside of the body is a block. -/
  depth_eq : p.style ≠ .braces → p.depth = 2 + p.blockCount

/-- No operation changes the block style. -/
theorem style_perform (p : Printer) (a : Action) : (p.perform a).style = p.style := by
  cases a with
  | dedent =>
    simp only [perform, dedent]
    split <;> rfl
  | closeBlock =>
    simp only [perform, closeBlock, dedent]
    split <;> rfl
  | _ => rfl

namespace InBody

variable {p : Printer}

theorem write (h : p.InBody) (t : Text) : (p.write t).InBody :=
  ⟨h.floor_eq, h.two_le_depth, h.isBlank, h.blockCount_eq, h.depth_eq⟩

/-- Closing a block stays inside of the page body. -/
theorem closeBlock (h : p.InBody) : p.closeBlock.InBody := by
  obtain ⟨hfloor, hdepth, hblank, hbraces, hblocks⟩ := h
  by_cases hinner : p.floor < p.depth
  · simp only [Printer.closeBlock, dedent, if_pos hinner]
    refine ⟨hfloor, ?_, hblank, ?_, ?_⟩
    · simp only
      omega
    · intro hs
      simp only [hbraces hs]
    · intro hs
      have := hblocks hs
      simp only
      omega
  · simp only [Printer.closeBlock, dedent, if_neg hinner]
    refine ⟨hfloor, hdepth, hblank, ?_, ?_⟩
    · intro hs
      simp only [hbraces hs]
    · intro hs
      have := hblocks hs
      simp only
      omega

/-- One operation that fits keeps a printer inside the page body. -/
theorem perform (h : p.InBody) {a : Action} (ha : a.Fits p.style) : (p.perform a).InBody := by
  cases a with
  | write t => exact h.write t
  | writeIndent => exact h.write p.indentation
  | closeBlock => exact h.closeBlock
  | indent =>
    have hs : p.style = .braces := ha
    exact ⟨h.floor_eq, Nat.le_succ_of_le h.two_le_depth, h.isBlank, h.blockCount_eq,
      fun hne => absurd hs hne⟩
  | dedent =>
    have hs : p.style = .braces := ha
    simp only [Printer.perform, Printer.dedent]
    split
    · rename_i hinner
      have hfloor := h.floor_eq
      refine ⟨hfloor, ?_, h.isBlank, h.blockCount_eq, fun hne => absurd hs hne⟩
      simp only
      omega
    · exact h
  | openBlock =>
    have hs : p.style ≠ .braces := ha
    refine ⟨h.floor_eq, Nat.le_succ_of_le h.two_le_depth, h.isBlank, fun he => absurd he hs, ?_⟩
    intro hne
    have hdepth := h.depth_eq hne
    simp only [Printer.perform, Printer.openBlock, Printer.indent]
    omega
  | handOn userIndent => exact ⟨h.floor_eq, h.two_le_depth, ha, h.blockCount_eq, h.depth_eq⟩

/-- Operations that fit pass only printers inside the page body. -/
theorem passed (h : p.InBody) {actions : List Action} (ha : ∀ a ∈ actions, a.Fits p.style) :
    ∀ q ∈ p.passed actions, q.InBody ∧ q.style = p.style := by
  induction actions generalizing p with
  | nil =>
    intro q hq
    rw [List.mem_singleton.mp hq]
    exact ⟨h, rfl⟩
  | cons a rest ih =>
    obtain ⟨hfirst, hrest⟩ := List.forall_mem_cons.mp ha
    have hstyle := p.style_perform a
    intro q hq
    rcases List.mem_cons.mp hq with rfl | hq
    · exact ⟨h, rfl⟩
    · rw [← hstyle] at hrest ⊢
      exact ih (h.perform hfirst) hrest q hq

end InBody

end Printer

namespace BraceSyntax

open Printer

end BraceSyntax

namespace Script

open Printer

end Script

namespace Fragment

open Printer

/-- The operations that write text to the response. -/
def textActions (chars : Text) : List Action :=
  [.writeIndent, .write ("res.write(\"\"\"" ++ chars.quoteLong ++ "\"\"\")\n")]

/-- The operations that write a fragment. -/
def actions (f : Fragment) (p : Printer) : List Action :=
  match f with
  | text chars => textActions chars
  | expression code => lineActions ("res.write(_formatter(" ++ code.unescapeClose.trim ++ "))")
  | script code _ => Script.actions p code
  | endBlock => [.closeBlock, .handOn []]
  | moduleCode code =>
    .write ['\n'] :: lineActions "# File level user code" ++
      (Script.codeLines code).flatMap lineActions
  | classCode code =>
    lineActions "# Class level user code" ++ .write ['\n'] ::
      (Script.codeLines code).flatMap lineActions
  | methodHead name params? =>
    lineActions (methodLine name params?) ++
      if name = "awake" then .indent :: [("self.initPSP()" : Text)].flatMap lineActions ++ [.dedent]
      else []
  | methodBody body =>
    .indent :: (methodLines body).flatMap lineActions ++ [.dedent, .write ['\n']]
  | urlInclude path =>
    [("__pspincludepath = \"" ++ path.quoteShort ++ "\"" : Text),
      "self.transaction().application().includeURL(self.transaction(), __pspincludepath)"].flatMap
      lineActions
  | insertText content => textActions content
  | insertFile path => lineActions ("self.__includeFile(\"" ++ path.quoteShort ++ "\")")

/-- The operations write a fragment as it is written, also if it fails. -/
theorem emit_eq_performAll (f : Fragment) (p : Printer) :
    (f.emit p).2 = p.performAll (f.actions p) := by
  cases f with
  | text chars => rfl
  | expression code => simp only [emit, actions, performAll_lineActions]
  | script code span? => exact Script.write_eq p code
  | endBlock => rfl
  | moduleCode code =>
    simp only [emit, actions, List.cons_append, performAll, performAll_append, perform,
      performAll_lineActions, performAll_flatMap_lineActions, newline]
  | classCode code =>
    simp only [emit, actions, performAll, performAll_append, perform, performAll_lineActions,
      performAll_flatMap_lineActions, newline]
  | methodHead name params? =>
    simp only [emit, actions, performAll_append, performAll_lineActions]
    split
    · simp only [List.cons_append, performAll, performAll_append, perform,
        performAll_flatMap_lineActions, writeInner]
    · rfl
  | methodBody body =>
    simp only [emit, actions, List.cons_append, performAll, performAll_append, perform,
      performAll_flatMap_lineActions, writeInner, newline]
  | urlInclude path => exact (performAll_flatMap_lineActions p _).symm
  | insertText content => rfl
  | insertFile path => simp only [emit, actions, performAll_lineActions]

/-- A fragment that is written, with the printer before it and after it. -/
structure Visit where
  before : Printer
  fragment : Fragment
  after : Printer

/-- The printers that are passed while a fragment is written. -/
def Visit.passed (v : Visit) : List Printer := v.before.passed (v.fragment.actions v.before)

/-- A fragment in front of the page body is written without a failure, and closes what it opens. -/
theorem appends_emit {f : Fragment} (hf : f.region ≠ .service) {p : Printer}
    (hp : p.floor ≤ p.depth) : (f.emit p).1 = none ∧ p.Appends (f.emit p).2 := by
  cases f with
  | moduleCode code => exact ⟨rfl, ((Appends.refl p).newline.writeLine _).writeLines _⟩
  | classCode code => exact ⟨rfl, ((Appends.refl p).writeLine _).newline.writeLines _⟩
  | methodHead name params? =>
    have hline := (Appends.refl p).writeLine (methodLine name params?)
    refine ⟨rfl, ?_⟩
    simp only [emit]
    split
    · exact hline.writeInner hp _
    · exact hline
  | methodBody body => exact ⟨rfl, ((Appends.refl p).writeInner hp _).newline⟩
  | _ => exact absurd rfl hf

section Front

variable {fragments : List Fragment} (hf : ∀ f ∈ fragments, f.region ≠ .service) {p : Printer}
  (hp : p.floor ≤ p.depth)

include hf hp

/-- Fragments of the regions before the page body are written, and only add text. -/
theorem emitAll_front : ∃ q, emitAll p fragments = .ok q ∧ p.Appends q := by
  induction fragments generalizing p with
  | nil => exact ⟨p, rfl, Appends.refl p⟩
  | cons f rest ih =>
    obtain ⟨hfirst, hrest⟩ := List.forall_mem_cons.mp hf
    obtain ⟨hnone, happends⟩ := appends_emit hfirst hp
    obtain ⟨q, hq, hlast⟩ := ih hrest (happends.floor_le hp)
    exact ⟨q, (emitAll_cons (Prod.ext hnone rfl) rest).trans hq, happends.trans hlast⟩

end Front

end Fragment

/-- The level of a region. -/
def Region.level : Region → Nat
  | module => 0
  | classBody | methods => 1
  | service => 2

namespace Page

open Printer

/-- The fragments of one region. -/
def inRegion (page : Page) (region : Region) : List Fragment :=
  page.fragments.filter fun f => f.region = region

/-- The printers with which the regions of the module begin. -/
structure Course (page : Page) (start : Region → Printer) : Prop where
  /-- The module begins with its head. -/
  module : start .module =
    (Printer.start page.settings.style page.settings.spaces).writeLines page.headLines
  /-- The head of the class follows the module region. -/
  classBody : ∃ p, page.emitRegion .module (start .module) = .ok p ∧
    start .classBody = page.writeClass p
  /-- The methods follow the class region at once. -/
  methods : page.emitRegion .classBody (start .classBody) = .ok (start .methods)
  /-- The head of the page body follows the methods. -/
  service : ∃ p, page.emitRegion .methods (start .methods) = .ok p ∧
    start .service = page.writeService p

/-- The page body begins where the regions before it have led. -/
theorem Course.emitFrame {page : Page} {start : Region → Printer} (h : page.Course start) :
    page.emitFrame = .ok (start .service) := by
  obtain ⟨p, hp, hclass⟩ := h.classBody
  obtain ⟨q, hq, hservice⟩ := h.service
  rw [Page.emitFrame, ← h.module, hp]
  change (page.emitRegion .classBody (page.writeClass p) >>= fun p =>
    page.emitRegion .methods p >>= fun p => .ok (page.writeService p)) = _
  rw [← hclass, h.methods]
  change (page.emitRegion .methods (start .methods) >>= fun p => .ok (page.writeService p)) = _
  rw [hq, hservice]
  rfl

/-- The head of the page body opens a level, and sets the floor there. -/
theorem inBody_writeService (page : Page) {style : BlockStyle} {spaces : Nat} {p : Printer}
    (h : (Printer.start style spaces).indent.Appends p) :
    (page.writeService p).InBody ∧ (page.writeService p).depth = 2 ∧
      (page.writeService p).style = style := by
  obtain ⟨t, ht⟩ := page.writeService_eq (h.floor_le (Nat.zero_le 1))
  obtain ⟨u, rfl⟩ := h
  rw [ht]
  exact ⟨⟨rfl, Nat.le_refl 2, rfl, fun _ => rfl, fun _ => rfl⟩, rfl, rfl⟩

/-- Fragments of another region do not belong to the page body. -/
theorem region_ne_service {page : Page} {region : Region} (hr : region ≠ .service) :
    ∀ f ∈ page.inRegion region, f.region ≠ .service := by
  intro f hf
  rw [of_decide_eq_true (List.mem_filter.mp hf).2]
  exact hr

/-- The parts of the module follow each other without a failure, and every region begins at its
level. -/
theorem exists_course (page : Page) :
    ∃ start : Region → Printer, page.Course start ∧
      (∀ region, region ≠ .service →
        (start region).depth = region.level ∧ (start region).floor = 0) ∧
      (start .service).InBody ∧ (start .service).depth = 2 ∧
      (start .service).style = page.settings.style := by
  have hfront := fun (region : Region) (hr : region ≠ .service) (p : Printer) =>
    Fragment.emitAll_front (@region_ne_service page region hr) (p := p)
  have hhead := (Appends.refl (Printer.start page.settings.style page.settings.spaces)).writeLines
    page.headLines
  obtain ⟨p, hp, hmodule⟩ := hfront .module (by decide) _ (hhead.floor_le (Nat.zero_le 0))
  have hbefore := hhead.trans hmodule
  have hclass := hbefore.indent.trans (page.appends_writeClass (hbefore.floor_le (Nat.zero_le 0)))
  obtain ⟨q, hq, hbody⟩ := hfront .classBody (by decide) _ (hclass.floor_le (Nat.zero_le 1))
  have hmethods := hclass.trans hbody
  obtain ⟨r, hr, hlast⟩ := hfront .methods (by decide) _ (hmethods.floor_le (Nat.zero_le 1))
  let start : Region → Printer
    | .module => (Printer.start page.settings.style page.settings.spaces).writeLines page.headLines
    | .classBody => page.writeClass p
    | .methods => q
    | .service => page.writeService r
  refine ⟨start, ⟨rfl, ⟨p, hp, rfl⟩, hq, ⟨r, hr, rfl⟩⟩, ?_,
    page.inBody_writeService (hmethods.trans hlast)⟩
  intro region hne
  cases region with
  | module => exact ⟨hhead.depth_eq, hhead.floor_eq⟩
  | classBody => exact ⟨hclass.depth_eq, hclass.floor_eq⟩
  | methods => exact ⟨hmethods.depth_eq, hmethods.floor_eq⟩
  | service => exact absurd rfl hne

end Page

end ServerPages
