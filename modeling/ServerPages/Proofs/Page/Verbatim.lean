import ServerPages.Disk.Tree
import ServerPages.Proofs.Markup.Lockstep
import ServerPages.Proofs.Page.Body
import ServerPages.Proofs.Page.Tidy
import ServerPages.Proofs.Text.Literal

/-!
# Text that is shown as it is

A template may hold nothing but plain text, comments and files that are inserted when it is
compiled. Its module writes long literals one after the other. Read back, each literal ends where it
was ended, and together they hold what the template shows, whatever quotes and backslashes occur in
it.
-/

namespace ServerPages

namespace Text

/-- The text of a long literal after its opening quotes, and what follows its closing quotes. A
backslash takes the next character. -/
def readLong : Text → Option (Text × Text)
  | '\\' :: c :: rest => (readLong rest).map fun (t, after) => (c :: t, after)
  | '"' :: '"' :: '"' :: rest => some ([], rest)
  | '\\' :: _ => none
  | c :: rest => (readLong rest).map fun (t, after) => (c :: t, after)
  | [] => none

/-- What the rules of long literals make of a text does not depend on what a backslash means in
front of other characters. -/
theorem readLong_of_read {t : Text} {found : Text × Text}
    (h : LiteralKind.long.read t = some found) : readLong t = some found := by
  fun_induction LiteralKind.read .long t generalizing found with
  | case1 => cases h
  | case2 => cases h
  | case3 c rest ih =>
    obtain ⟨d, hd, hmap⟩ := Option.bind_eq_some_iff.mp h
    obtain ⟨inner, hinner, rfl⟩ := Option.map_eq_some_iff.mp hmap
    rw [readLong, ih hinner, LiteralKind.eq_of_escaped?_long hd]
    rfl
  | case4 c rest hlone hescape after hafter =>
    cases h
    rw [Text.after?_eq_some_iff.mp hafter]
    rfl
  | case5 => cases h
  | case6 c rest hlone hescape hafter _ ih =>
    obtain ⟨inner, hinner, rfl⟩ := Option.map_eq_some_iff.mp h
    have hslash : c ≠ '\\' := by
      rintro rfl
      cases rest with
      | nil => exact hlone rfl rfl
      | cons d rest => exact hescape d rest rfl rfl
    rw [readLong, ih hinner]
    · rfl
    · exact fun d more he => absurd he hslash
    · rintro more rfl rfl
      exact absurd hafter (by simp [LiteralKind.marker, after?])
    · exact hslash

/-- A text in a long literal is read back, and the literal ends at its own closing quotes. -/
theorem readLong_quoteLong (t rest : Text) :
    readLong (t.quoteLong ++ "\"\"\"" ++ rest) = some (t, rest) := by
  rw [List.append_assoc]
  exact readLong_of_read (LiteralKind.read_flatMap LiteralKind.writes_quoteLongChar t rest)

end Text

/-- What an element shows of itself: plain text its text, a comment nothing, and the tag of a file
that is inserted when the page is compiled the text of the file. -/
def Element.shown? (disk : Disk) (e : Element) : Option Text :=
  match e.kind with
  | .plainText => some e.text
  | .comment => some []
  | .fileInsert =>
    if Page.isStatic e then
      (e.attributes.get? "file").bind fun path =>
        (disk.read (e.stop.resolve path)).toOption.map Encoding.utf8.decode
    else none
  | _ => none

namespace Fragment

/-- The text that a fragment writes to the response as it is. -/
def shown? : Fragment → Option Text
  | text chars | insertText chars => some chars
  | _ => none

/-- The text that fragments write to the response as it is. -/
def shown (fragments : List Fragment) : Text := fragments.flatMap fun f => f.shown?.getD []

/-- Fragments that write nothing but text as it is. -/
def AllShown (fragments : List Fragment) : Prop := ∀ f ∈ fragments, f.shown?.isSome = true

/-- Only two kinds of fragments write text as it is. -/
theorem exists_shown? {f : Fragment} (h : f.shown?.isSome = true) :
    (∃ chars, f = text chars) ∨ ∃ chars, f = insertText chars := by
  cases f with
  | text chars => exact .inl ⟨chars, rfl⟩
  | insertText chars => exact .inr ⟨chars, rfl⟩
  | _ => cases h

/-- Merging texts does not change what is written. -/
theorem shown_mergeTexts (fragments : List Fragment) :
    shown (mergeTexts fragments) = shown fragments :=
  flatMap_mergeTexts (fun _ _ => rfl) fragments

theorem allShown_mergeTexts {fragments : List Fragment} (h : AllShown fragments) :
    AllShown (mergeTexts fragments) :=
  forall_mem_mergeTexts (fun _ _ _ _ => rfl) h

/-- Without scripts there is no blank text between two of them. -/
theorem gobble_of_allShown {fragments : List Fragment} (h : AllShown fragments) :
    gobble fragments = fragments := by
  have hafter : ∀ before?, gobbleAfter before? fragments = fragments := by
    induction fragments with
    | nil => exact fun _ => rfl
    | cons f rest ih =>
      intro before?
      obtain ⟨-, hrest⟩ := List.forall_mem_cons.mp h
      have hnext : rest.head?.any isBoundary = false := by
        cases rest with
        | nil => rfl
        | cons g more =>
          rcases exists_shown? (hrest g List.mem_cons_self) with ⟨chars, rfl⟩ | ⟨chars, rfl⟩ <;> rfl
      rw [gobbleAfter, hnext, Bool.and_false, ih hrest]
      rfl
  exact hafter none

/-- A statement that writes a text, at some indentation. -/
def statement (margin inside : Text) : Text :=
  margin ++ ("res.write(\"\"\"" ++ inside ++ "\"\"\")\n")

/-- Fragments that write text as it is are written as one statement each. -/
theorem emitAll_of_allShown {fragments : List Fragment} (h : AllShown fragments) (p : Printer) :
    emitAll p fragments = .ok (p.write (fragments.flatMap fun f =>
      statement p.indentation (f.shown?.getD []).quoteLong)) := by
  induction fragments generalizing p with
  | nil => rfl
  | cons f rest ih =>
    obtain ⟨hf, hrest⟩ := List.forall_mem_cons.mp h
    have hemit : f.emit p = (none, p.write (statement p.indentation
        (f.shown?.getD []).quoteLong)) := by
      rcases exists_shown? hf with ⟨chars, rfl⟩ | ⟨chars, rfl⟩
      all_goals
        simp only [emit, writeText, Printer.writeIndent, Printer.write_write]
        rfl
    rw [emitAll_cons hemit, ih hrest, Printer.write_write]
    rfl

end Fragment

namespace Page

/-- The module of a page that writes nothing but text as it is. -/
theorem generate_of_allShown {page : Page} {p : Printer} (h : Fragment.AllShown page.fragments)
    (hp : page.writeService (page.writeClass
      ((Printer.start page.settings.style page.settings.spaces).writeLines page.headLines)) = p) :
    page.generate.1 = .ok (p.text ++ ((Fragment.mergeTexts page.fragments).flatMap fun f =>
      Fragment.statement p.indentation (f.shown?.getD []).quoteLong) ++ "\n##footer\n") := by
  have hservice : ∀ fragments, Fragment.AllShown fragments → ∀ f ∈ fragments,
      f.region = .service := by
    intro fragments hall f hf
    rcases Fragment.exists_shown? (hall f hf) with ⟨chars, rfl⟩ | ⟨chars, rfl⟩ <;> rfl
  have hmerged := Fragment.allShown_mergeTexts h
  have htidy : page.tidy.fragments = Fragment.mergeTexts page.fragments := by
    simp only [tidy, Fragment.gobble_of_allShown hmerged, ite_self]
  have hbody : page.tidy.emitRegion .service p =
      Fragment.emitAll p (Fragment.mergeTexts page.fragments) := by
    rw [emitRegion_service (by rw [htidy]; exact hservice _ hmerged), htidy]
  rw [generate, emitFrame_of_service (hservice _ h), hp]
  simp only [emitBody, hbody, Fragment.emitAll_of_allShown hmerged, Except.map, text_writeFooter,
    Printer.text_write]

/-- A page that has been given nothing but text that it writes as it is. -/
structure Shows (start : Page) (text : Text) (page : Page) : Prop where
  /-- Apart from its fragments the page is as before. -/
  eq : page = { start with fragments := page.fragments }
  /-- The fragments write text as it is. -/
  allShown : Fragment.AllShown page.fragments
  /-- The text has been given. -/
  shown : Fragment.shown page.fragments = text

/-- A fragment that writes text as it is adds that text. -/
theorem Shows.add {start page : Page} {text : Text} (h : start.Shows text page) {f : Fragment}
    {chars : Text} (hf : f.shown? = some chars) : start.Shows (text ++ chars) (page.add f []) := by
  have hregion : f.region = .service := by
    rcases Fragment.exists_shown? (f := f) (by rw [hf]; rfl) with ⟨_, rfl⟩ | ⟨_, rfl⟩ <;> rfl
  rw [page.add_eq hregion]
  refine ⟨?_, ?_, ?_⟩
  · rw [h.eq]
  · intro g hg
    rcases List.mem_append.mp hg with hg | hg
    · exact h.allShown g hg
    · rw [List.mem_singleton.mp hg, hf]
      rfl
  · simp only [Fragment.shown, List.flatMap_append, List.flatMap_singleton, hf, Option.getD_some]
    exact congrArg (· ++ chars) h.shown

/-- An insert writes the content of its file as it is. -/
theorem exists_of_shown?_fileInsert {disk : Disk} {e : Element} {chars : Text}
    (hk : e.kind = .fileInsert) (h : e.shown? disk = some chars) :
    isStatic e = true ∧ ∃ path, e.attributes.get? "file" = some path ∧
      ∃ octets, disk.read (e.stop.resolve path) = .ok octets ∧
        Encoding.utf8.decode octets = chars := by
  simp only [Element.shown?, hk] at h
  split at h
  · rename_i hstatic
    obtain ⟨path, hpath, hread⟩ := Option.bind_eq_some_iff.mp h
    obtain ⟨octets, hoctets, hchars⟩ := Option.map_eq_some_iff.mp hread
    refine ⟨hstatic, path, hpath, octets, ?_, hchars⟩
    cases hr : disk.read (e.stop.resolve path) with
    | error error =>
      rw [hr] at hoctets
      cases hoctets
    | ok found =>
      rw [hr] at hoctets
      rw [Option.some.inj hoctets]
  · cases h

/-- A page takes an element that shows something, and shows it behind what it shows already. -/
theorem Shows.accept {start page : Page} {text chars : Text} (h : start.Shows text page)
    {disk : Disk} {stack : Stack} {e : Element} (he : e.shown? disk = some chars)
    (ha : e.ArrivesAt stack) :
    ∃ next, accept disk stack e page = (next, none) ∧ start.Shows (text ++ chars) next := by
  obtain ⟨kind, body, attributes, first, stop⟩ := e
  cases kind with
  | plainText =>
    obtain rfl := Option.some.inj he
    by_cases hbody : body = []
    · subst hbody
      refine ⟨page, rfl, ?_⟩
      rw [List.append_nil]
      exact h
    · refine ⟨page.add (.text body) [], ?_, h.add rfl⟩
      simp [Page.accept, fragment?, hbody, Element.notices]
  | comment =>
    obtain rfl := Option.some.inj he
    refine ⟨page, rfl, ?_⟩
    rw [List.append_nil]
    exact h
  | fileInsert =>
    obtain rfl : stop = stack := ha (.inl rfl)
    obtain ⟨hstatic, path, hpath, octets, hread, rfl⟩ := exists_of_shown?_fileInsert rfl he
    refine ⟨page.add (.insertText (Encoding.utf8.decode octets)) [], ?_, h.add rfl⟩
    have hinsert : insertion disk stop ⟨.fileInsert, body, attributes, first, stop⟩ =
        .ok (.insertText (Encoding.utf8.decode octets)) := by
      rw [insertion, required, hpath]
      simp only [hstatic, if_true, hread]
    simp only [Page.accept, fragment?, hinsert, Except.map, Element.notices]
  | _ => cases he

/-- Beside a recorder that meets only elements that show something, a page comes to the end and
shows what they show. -/
theorem leads_shows (disk : Disk) (start : Page) {found : List Element}
    (h : ∀ e ∈ found, (e.shown? disk).isSome = true) :
    (Visitor.recorder true).Leads visitor disk (· <+: found)
      (fun elements => start.Shows (elements.flatMap fun e => (e.shown? disk).getD [])) := by
  refine ⟨rfl, ?_, ?_⟩
  · intro stack e elements next ha hn
    obtain ⟨rfl, -⟩ := Prod.mk.inj ha
    exact (List.prefix_append elements [e]).trans hn
  · intro stack e elements next page harrives ha hn hpage
    obtain ⟨rfl, -⟩ := Prod.mk.inj ha
    have hmem : e ∈ found := hn.subset (List.mem_append_right _ List.mem_cons_self)
    obtain ⟨chars, hchars⟩ := Option.isSome_iff_exists.mp (h e hmem)
    obtain ⟨after, haccept, hshows⟩ := hpage.accept hchars harrives
    refine ⟨after, haccept, ?_⟩
    simpa only [List.flatMap_append, List.flatMap_singleton, hchars, Option.getD_some] using hshows

end Page

/-- A template that holds nothing but plain text, comments and files that are inserted when it is
compiled. Compiling succeeds, and below the line that binds the formatter stand long literals one
after the other; each one is read back up to its own closing quotes, and together they hold what the
template shows. -/
theorem compileText_verbatim (o : Options) (name : Text) :
    ∃ head, ∀ (disk : Disk) (source : Text) (scan : Scan (List Element)),
      (Scan.start ((Input.empty o.crossing).openText name source (o.baseDir?.getD ['.']))
        []).run (.recorder true) disk = .ok scan →
      (∀ e ∈ scan.state, (e.shown? disk).isSome = true) →
      ∃ literals : List (Text × Text),
        (compileText disk o name source).result =
          .ok ⟨Compilation.className o name,
            head ++ (o.unit ++ o.unit ++ "_formatter = str\n") ++
              (literals.flatMap (fun l => Fragment.statement (o.unit ++ o.unit) l.1) ++
                "\n##footer\n"), []⟩ ∧
        (∀ l ∈ literals, ∀ rest, Text.readLong (l.1 ++ "\"\"\"" ++ rest) = some (l.2, rest)) ∧
        (literals.map Prod.snd).flatten =
          scan.state.flatMap fun e => (e.shown? disk).getD [] := by
  obtain ⟨head, hhead⟩ := (Page.start o (Compilation.className o name) name).exists_preamble
  refine ⟨head, fun disk source scan hrun hshown => ?_⟩
  have hmargin : (Printer.body o.style o.spaces).indentation = o.unit ++ o.unit := by
    rw [(Printer.ready_body o.style o.spaces).indentation]
    exact congrArg (o.unit ++ ·) (List.append_nil o.unit)
  obtain ⟨-, hbeside⟩ := Scan.carries_run (Page.leads_shows disk
    (Page.start o (Compilation.className o name) name) hshown) _ scan hrun (List.prefix_refl _)
  obtain ⟨last, hlast, hb⟩ := hbeside
    (Scan.start _ (Page.start o (Compilation.className o name) name))
    ⟨rfl, rfl, rfl, rfl, List.forall_mem_nil _, rfl⟩
  have hpage := hb.state.eq
  have hgenerate : last.state.generate.1 = .ok (head ++
      (o.unit ++ o.unit ++ "_formatter = str\n") ++
        ((Fragment.mergeTexts last.state.fragments).flatMap (fun f =>
          Fragment.statement (o.unit ++ o.unit) (f.shown?.getD []).quoteLong) ++
            "\n##footer\n")) := by
    have hframe : last.state.writeService (last.state.writeClass ((Printer.start
        last.state.settings.style last.state.settings.spaces).writeLines last.state.headLines)) =
        (Printer.body o.style o.spaces).write
          (head ++ (o.unit ++ o.unit ++ "_formatter = str\n")) := by
      rw [hpage, ← hmargin]
      exact hhead
    have hindent : ((Printer.body o.style o.spaces).write
        (head ++ (o.unit ++ o.unit ++ "_formatter = str\n"))).indentation = o.unit ++ o.unit :=
      hmargin
    rw [Page.generate_of_allShown hb.state.allShown hframe, hindent, Printer.text_write,
      List.append_assoc]
    rfl
  refine ⟨(Fragment.mergeTexts last.state.fragments).map fun f =>
    ((f.shown?.getD []).quoteLong, f.shown?.getD []), ?_, ?_, ?_⟩
  · rw [compileText, Compilation.ofInput, hlast]
    change (last.state.generate.1.map fun source =>
      CompiledModule.mk last.state.className source last.state.notices) = _
    rw [hgenerate, hpage, List.flatMap_map]
    rfl
  · intro l hl rest
    obtain ⟨f, -, rfl⟩ := List.mem_map.mp hl
    exact Text.readLong_quoteLong _ rest
  · rw [List.map_map, ← hb.state.shown, ← Fragment.shown_mergeTexts]
    rfl

/-- Quotes and a backslash in the template, and closing quotes in the file that it inserts. -/
theorem compileText_closing_quotes :
    ∃ (head : Text) (literals : List (Text × Text)), (compileText
        (FileTree.empty.add "f" (.file (Encoding.encode "\"\"\")\\"))).disk {} "page"
        "a\"\\<%--c--%><psp:insert file='f' static='true'/>").result =
      .ok ⟨"page", head ++ ("\t" ++ "\t" ++ "_formatter = str\n") ++
        (literals.flatMap (fun l => Fragment.statement ("\t" ++ "\t") l.1) ++ "\n##footer\n"), []⟩ ∧
      (∀ l ∈ literals, ∀ rest, Text.readLong (l.1 ++ "\"\"\"" ++ rest) = some (l.2, rest)) ∧
      (literals.map Prod.snd).flatten = ("a\"\\\"\"\")\\" : Text) := by
  obtain ⟨head, h⟩ := compileText_verbatim {} "page"
  obtain ⟨literals, hresult, hread, hshown⟩ := h
    (FileTree.empty.add "f" (.file (Encoding.encode "\"\"\")\\"))).disk
    "a\"\\<%--c--%><psp:insert file='f' static='true'/>" _
    (Scan.run_of_runWithin (n := 10) (Option.some_get (by decide +kernel)).symm)
    (List.all_eq_true.mp (by decide +kernel))
  refine ⟨head, literals, hresult, hread, hshown.trans ?_⟩
  decide +kernel

end ServerPages
