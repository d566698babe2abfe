import ServerPages.Compile
import ServerPages.Disk.Tree
import ServerPages.Proofs.Markup.Upkeep
import ServerPages.Proofs.Page.Tidy

/-!
# Where failures are placed

Whatever goes wrong when a template is compiled is placed in a file of the compilation: while the
template is scanned, because reading never leaves the files on record, and while the module is
written, because only a script can fail then and carries the place where it was read. Only a
template that cannot be opened at all has no place.
-/

namespace ServerPages

/-- The position of an offset lies on a line that begins before it, and within the file. -/
theorem Position.ofOffset_bounds {file text : Text} {offset : Nat} (h : text.IsBoundary offset) :
    (ofOffset file text offset).lineStart ≤ (ofOffset file text offset).offset ∧
      (ofOffset file text offset).offset ≤ text.byteLength := by
  have hmin : Nat.min offset text.byteLength = offset := Nat.min_eq_left h.le
  obtain ⟨front, rest, rfl, rfl⟩ := h
  refine ⟨?_, Nat.min_le_right ..⟩
  simp only [ofOffset, hmin, Text.takeBytes_append]
  exact Nat.sub_le ..

namespace Fragment

/-- A script carries a place in one of the files. -/
def PlacedIn (files : List Source) : Fragment → Prop
  | script _ span? => ∃ span, span? = some span ∧ span.PointsInto files
  | _ => True

variable {files more : List Source} {f : Fragment}

/-- A place in some files is a place in them when more are opened. -/
theorem PlacedIn.mono (h : f.PlacedIn files) (hmore : files <+: more) : f.PlacedIn more := by
  cases f with
  | script code span? =>
    obtain ⟨span, hspan, hpoints⟩ := h
    exact ⟨span, hspan, hpoints.mono hmore⟩
  | _ => trivial

/-- Only a script can fail to be written, and it fails at its place. -/
theorem PlacedIn.of_emit (h : f.PlacedIn files) {p q : Printer} {failure : Failure}
    (hf : f.emit p = (some failure, q)) : failure.PointsInto files := by
  cases f with
  | script code span? =>
    obtain ⟨span, rfl, hpoints⟩ := h
    simp only [emit, Prod.mk.injEq, Option.map_eq_some_iff] at hf
    obtain ⟨⟨fault, -, rfl⟩, -⟩ := hf
    exact ⟨span, rfl, hpoints⟩
  | _ => cases hf

/-- Fragments fail at places in the files. -/
theorem placedIn_of_emitAll {fragments : List Fragment} (h : ∀ f ∈ fragments, f.PlacedIn files)
    {p : Printer} {failure : Failure} (hf : emitAll p fragments = .error failure) :
    failure.PointsInto files := by
  fun_induction emitAll p fragments with
  | case1 => cases hf
  | case2 p f rest q hq ih => exact ih (fun g hg => h g (List.mem_cons_of_mem f hg)) hf
  | case3 p f rest other q hq =>
    obtain rfl := Except.error.inj hf
    exact (h f List.mem_cons_self).of_emit hq

end Fragment

namespace Page

variable {page : Page} {files : List Source}

/-- Tidying a page concerns texts only. -/
theorem placedIn_tidy (h : ∀ f ∈ page.fragments, f.PlacedIn files) :
    ∀ f ∈ page.tidy.fragments, f.PlacedIn files := by
  intro f hf
  cases hscript : f with
  | script code span? =>
    have hkeep : ∀ chars, (!(Fragment.text chars).isText) = false := fun _ => rfl
    have hsame : page.tidy.fragments.filter (!·.isText) = page.fragments.filter (!·.isText) := by
      rw [tidy]
      split
      · exact (Fragment.filter_gobbleAfter hkeep none _).trans (Fragment.filter_mergeTexts hkeep _)
      · exact Fragment.filter_mergeTexts hkeep _
    have hmem : f ∈ page.tidy.fragments.filter (!·.isText) := by
      rw [List.mem_filter, hscript]
      exact ⟨hscript ▸ hf, rfl⟩
    rw [hsame] at hmem
    rw [← hscript]
    exact h f (List.mem_filter.mp hmem).1
  | _ => trivial

/-- A region fails at a place in the files. -/
theorem pointsInto_of_emitRegion (h : ∀ f ∈ page.fragments, f.PlacedIn files) {region : Region}
    {p : Printer} {failure : Failure} (hf : page.emitRegion region p = .error failure) :
    failure.PointsInto files :=
  Fragment.placedIn_of_emitAll (fun f hmem => h f (List.mem_filter.mp hmem).1) hf

/-- What precedes the page body fails at a place in the files. -/
theorem pointsInto_of_emitFrame (h : ∀ f ∈ page.fragments, f.PlacedIn files) {failure : Failure}
    (hf : page.emitFrame = .error failure) : failure.PointsInto files := by
  simp only [emitFrame, bind, Except.bind] at hf
  split at hf
  · rename_i failed hmodule
    cases hf
    exact pointsInto_of_emitRegion h hmodule
  · split at hf
    · rename_i failed hclass
      cases hf
      exact pointsInto_of_emitRegion h hclass
    · split at hf
      · rename_i failed hmethods
        cases hf
        exact pointsInto_of_emitRegion h hmethods
      · cases hf

/-- Writing the module fails where one of its scripts was read. -/
theorem pointsInto_of_generate (h : ∀ f ∈ page.fragments, f.PlacedIn files) {failure : Failure}
    (hf : page.generate.1 = .error failure) : failure.PointsInto files := by
  rw [generate] at hf
  split at hf
  · rename_i failed hframe
    cases hf
    exact pointsInto_of_emitFrame h hframe
  · rename_i p hframe
    cases hbody : page.tidy.emitRegion .service p with
    | error failed =>
      rw [emitBody, hbody] at hf
      cases hf
      exact pointsInto_of_emitRegion (placedIn_tidy h) hbody
    | ok q =>
      rw [emitBody, hbody] at hf
      cases hf

/-- A file is inserted by its text or by its name. -/
theorem placedIn_of_insertion {disk : Disk} {stack : Stack} {e : Element} {f : Fragment}
    (hf : insertion disk stack e = .ok f) : f.PlacedIn files := by
  simp only [insertion] at hf
  split at hf
  · cases hf
  · split at hf
    · split at hf
      · cases hf
        trivial
      · cases hf
    · split at hf
      · cases hf
        trivial
      · cases hf

/-- A fragment that is a script was read where its element begins. -/
theorem placedIn_of_fragment? {disk : Disk} {stack : Stack} {e : Element} {f : Fragment}
    (he : e.kind = .script → e.start.span.PointsInto files)
    (hf : fragment? disk stack e = .ok (some f)) : f.PlacedIn files := by
  cases hk : e.kind with
  | comment | directive =>
    simp only [fragment?, hk] at hf
    cases hf
  | script =>
    simp only [fragment?, hk] at hf
    cases hf
    exact ⟨_, rfl, he hk⟩
  | expression | endBlock | moduleCode | classCode | methodBody =>
    simp only [fragment?, hk] at hf
    cases hf
    trivial
  | plainText =>
    simp only [fragment?, hk] at hf
    split at hf
    · cases hf
    · cases hf
      trivial
  | methodHead | urlInclude =>
    simp only [fragment?, hk] at hf
    unfold required at hf
    split at hf
    · cases hf
      trivial
    · cases hf
  | fileInsert =>
    simp only [fragment?, hk] at hf
    cases hi : insertion disk stack e with
    | error fault =>
      rw [hi] at hf
      cases hf
    | ok inserted =>
      rw [hi] at hf
      cases hf
      exact placedIn_of_insertion hi

/-- Every element that a page takes leaves its scripts at places in the files. -/
theorem placedIn_accept {disk : Disk} {stack : Stack} {e : Element}
    (h : ∀ f ∈ page.fragments, f.PlacedIn files)
    (he : e.kind = .script → e.start.span.PointsInto files) :
    ∀ f ∈ (accept disk stack e page).1.fragments, f.PlacedIn files := by
  unfold accept
  split
  · simp only [direct]
    split
    · exact h
    · split
      · split <;> exact h
      · exact h
  · split
    · exact h
    · exact h
    · rename_i added hadded
      intro f hf
      rcases List.mem_append.mp hf with hold | hnew
      · exact h f hold
      · obtain rfl := List.mem_singleton.mp hnew
        exact placedIn_of_fragment? he hadded

end Page

/-- What a page upholds: its scripts carry places in the files, each of which is known. -/
theorem Page.upholds_placed (disk : Disk) {known : Source → Prop}
    (hknown : ∀ file, file.ReadFrom disk → known file) :
    Page.visitor.Upholds disk fun files _ page =>
      (∀ file ∈ files, known file) ∧ ∀ f ∈ page.fragments, f.PlacedIn files where
  fewer h _ := h
  opens {files ids page file} h _ hfile := by
    refine ⟨?_, fun f hf => (h.2 f hf).mono (List.prefix_append _ _)⟩
    intro other hother
    rcases List.mem_append.mp hother with hold | hnew
    · exact h.1 other hold
    · obtain rfl := List.mem_singleton.mp hnew
      exact hknown other hfile
  text _ _ h _ _ := ⟨h.1, placedIn_accept h.2 fun hk => by cases hk⟩
  element _ hne hstart h := ⟨h.1, placedIn_accept h.2 fun _ => hstart.span_pointsInto hne⟩

namespace Compilation

/-- A failure is placed in a file of a compilation, at an offset within its text and on a line that
begins before it. -/
def Places (known : Source → Prop) (c : Compilation) (f : Failure) : Prop :=
  ∃ file ∈ c.sources, known file ∧ ∃ offset, file.content.IsBoundary offset ∧
    f.span? = some (.point (.ofOffset file.name file.content offset)) ∧
    (Position.ofOffset file.name file.content offset).lineStart ≤
      (Position.ofOffset file.name file.content offset).offset ∧
    (Position.ofOffset file.name file.content offset).offset ≤ file.content.byteLength

/-- A failure that points into the files of a compilation is placed in one of them. -/
theorem places_of_pointsInto {known : Source → Prop} {c : Compilation} {f : Failure}
    (hknown : ∀ file ∈ c.sources, known file) (h : f.PointsInto c.sources) : c.Places known f := by
  obtain ⟨span, hspan, file, hfile, offset, hoffset, rfl⟩ := h
  exact ⟨file, hfile, hknown file hfile, offset, hoffset, hspan, Position.ofOffset_bounds hoffset⟩

/-- A template that is open fails in one of the files that have been opened. -/
theorem places_ofInput {disk : Disk} {known : Source → Prop}
    (hdisk : ∀ file, file.ReadFrom disk → known file) {o : Options} {name : Text} {input : Input}
    (hinput : input.Regular) (hopened : ∀ file ∈ input.opened, known file)
    {log : List LogRecord} {f : Failure} (h : (ofInput disk o name input log).result = .error f) :
    (ofInput disk o name input log).Places known f := by
  have hkept : (Scan.start input (Page.start o (className o name) name)).Kept fun files _ page =>
      (∀ file ∈ files, known file) ∧ ∀ f ∈ page.fragments, f.PlacedIn files :=
    Scan.kept_start hinput ⟨hopened, fun f hf => absurd hf List.not_mem_nil⟩
  have hends := Scan.ends_run (Page.upholds_placed disk hdisk) hkept
  unfold ofInput at h ⊢
  dsimp only at h ⊢
  cases hrun : (Scan.start input (Page.start o (className o name) name)).run Page.visitor disk with
  | error halt =>
    rw [hrun] at hends h
    cases h
    exact places_of_pointsInto hends.1.1 hends.2
  | ok scan =>
    rw [hrun] at hends h
    cases hgenerate : scan.state.generate.1 with
    | error failure =>
      simp only [hgenerate, Except.map] at h
      cases h
      exact places_of_pointsInto hends.1 (Page.pointsInto_of_generate hends.2 hgenerate)
    | ok text =>
      simp only [hgenerate, Except.map] at h
      cases h

end Compilation

/-- Whenever compiling fails, the failure is placed in the root template or in a file that was read
on the way. Only a template on disk that cannot be opened itself is not placed at all. -/
theorem compile_failure_placed (disk : Disk) (o : Options) :
    (∀ name source f, (compileText disk o name source).result = .error f →
      (compileText disk o name source).Places
        (fun file => file = ⟨0, name, source.unifyBreaks, none⟩ ∨ file.ReadFrom disk) f) ∧
    ∀ path f, (compileFile disk o path).result = .error f →
      (f.span? = none ↔
        ∃ refusal, (Input.empty o.crossing).tryOpen disk ⟨path, none⟩ = .error refusal) ∧
      (f.span? ≠ none → (compileFile disk o path).Places (·.ReadFrom disk) f) := by
  constructor
  · intro name source f hf
    apply Compilation.places_ofInput (fun _ => .inr) (.root ..) _ hf
    intro file hfile
    exact .inl (List.mem_singleton.mp hfile)
  · intro path f hf
    cases hopen : (Input.empty o.crossing).tryOpen disk ⟨path, none⟩ with
    | error refusal =>
      rw [compileFile, Input.openFile, hopen] at hf
      cases hf
      exact ⟨⟨fun _ => ⟨refusal, rfl⟩, fun _ => rfl⟩, fun hne => absurd rfl hne⟩
    | ok opened =>
      obtain ⟨encoding, octets, -, hread, -, rfl⟩ := Input.eq_push_of_tryOpen hopen
      have hregular := Input.Regular.root o.crossing path (encoding.decode octets)
        (disk.canonical? path) (Path.directoryOf path) encoding
      have hread : ∀ file ∈ ((Input.empty o.crossing).push path (encoding.decode octets)
          (disk.canonical? path) (Path.directoryOf path) encoding).opened, file.ReadFrom disk := by
        intro file hfile
        obtain rfl := List.mem_singleton.mp hfile
        exact ⟨encoding, octets, hread, rfl⟩
      have hplaced : (compileFile disk o path).Places (·.ReadFrom disk) f := by
        rw [compileFile, Input.openFile, hopen] at hf ⊢
        cases hbase : o.baseDir? with
        | none =>
          simp only [hbase] at hf ⊢
          exact Compilation.places_ofInput (fun _ h => h) hregular hread hf
        | some baseDir =>
          simp only [hbase] at hf ⊢
          apply Compilation.places_ofInput (fun _ h => h) (hregular.setBaseDir baseDir) _ hf
          rw [Input.opened_setBaseDir]
          exact hread
      have hsome : f.span? ≠ none := by
        obtain ⟨file, -, -, offset, -, hspan, -⟩ := hplaced
        rw [hspan]
        exact Option.some_ne_none _
      refine ⟨⟨fun hnone => absurd hnone hsome, ?_⟩, fun _ => hplaced⟩
      rintro ⟨refusal, hrefused⟩
      cases hrefused

/-- What went wrong, if anything did. -/
def Compilation.failure? (c : Compilation) : Option Failure :=
  match c.result with
  | .error f => some f
  | .ok _ => none

/-- A compilation that has failed has no module. -/
theorem Compilation.result_of_failure? {c : Compilation} {f : Failure} (h : c.failure? = some f) :
    c.result = .error f := by
  unfold failure? at h
  split at h
  · rename_i hresult
    obtain rfl := Option.some.inj h
    exact hresult
  · cases h

/-- A script of an included file that ends inside a string, which shows only when the module is
written, and a template that does not exist. -/
theorem compile_failure_placed_in_script :
    let disk := (FileTree.empty.add "b" (.file (Encoding.encode "é\r\n<% s = \"\"\"x %>"))).disk
    let o : Options := { style := .braces }
    let c := compileText disk o "page" "<%@ include file='b' %>"
    (∃ f, c.result = .error f ∧ f.span? = some (.point ⟨"./b", 2, 3, 5⟩) ∧ c.Places (fun file =>
      file = ⟨0, "page", Text.unifyBreaks "<%@ include file='b' %>", none⟩ ∨ file.ReadFrom disk)
      f) ∧
    ∃ f, (compileFile disk o "a").result = .error f ∧ f.span? = none ∧
      ∃ refusal, (Input.empty o.crossing).tryOpen disk ⟨"a", none⟩ = .error refusal := by
  intro disk o c
  obtain ⟨htext, hfile⟩ := compile_failure_placed disk o
  constructor
  · have hrun : (Scan.start ((Input.empty o.crossing).openText "page" "<%@ include file='b' %>"
        (o.baseDir?.getD ['.'])) (Page.start o (Compilation.className o "page") "page")).run
        Page.visitor disk = .ok _ :=
      Scan.run_of_runWithin (n := 10) (Option.some_get (by decide +kernel)).symm
    have hfailure : c.failure? =
        some ⟨.unterminatedQuote "\"\"\"", some (.point ⟨"./b", 2, 3, 5⟩)⟩ := by
      simp only [c]
      rw [compileText, Compilation.ofInput, hrun]
      decide +kernel
    have hresult := Compilation.result_of_failure? hfailure
    exact ⟨_, hresult, rfl, htext _ _ _ hresult⟩
  · have hfailure : (compileFile disk o "a").failure? =
        some ⟨.resource "a" (.unreadable "a" .notFound), none⟩ := by decide +kernel
    have hresult := Compilation.result_of_failure? hfailure
    exact ⟨_, hresult, rfl, (hfile _ _ hresult).1.mp rfl⟩

end ServerPages
