import ServerPages.Compile
import ServerPages.Proofs.Code.Heading
import ServerPages.Proofs.Page.Fragment

/-!
# Page bodies of nested blocks

A page body is built from texts, expressions and blocks, and blocks are nested to any depth. It is
written into a template in one of the block styles, and the compiled module shows it again: every
block stands one level below its heading, and what follows the block returns to the level before.
-/

namespace ServerPages

/-- Text that stands for itself in a template and is not blank. -/
structure Literal where
  /-- The text. -/
  text : Text
  /-- Some character is not blank. -/
  visible : text.isBlank = false
  /-- It holds no carriage return. -/
  unbroken : '\r' ∉ text
  /-- It holds no beginning of an element. -/
  plain : ∀ opener ∈ Recognition.openers, ¬ opener <:+: text

/-- A literal text is not empty. -/
theorem Literal.ne_nil (t : Literal) : t.text ≠ [] := fun h => by
  have hv := t.visible
  rw [h] at hv
  cases hv

/-- Texts, expressions and blocks one after the other. A body that follows a text does not begin
with a text. -/
inductive Body : (afterText : Bool) → Type where
  /-- Nothing more. -/
  | nil {afterText : Bool} : Body afterText
  /-- A text. -/
  | text (t : Literal) (rest : Body true) : Body false
  /-- An expression. -/
  | expression {afterText : Bool} (e : Phrase) (rest : Body false) : Body afterText
  /-- A heading with the body of its block. -/
  | block {afterText : Bool} (h : Heading) (children rest : Body false) : Body afterText

/-- The tag that ends a block in a template. -/
def BlockStyle.endTag : BlockStyle → Text
  | braces => "<% \x7d %>"
  | tabs | spaces => "<% end %>"

/-- What stands below a block in a module. -/
def BlockStyle.belowBlock : BlockStyle → Text
  | braces => "\n"
  | tabs | spaces => []

namespace Body

/-- A body as it is written in a template. -/
def print (style : BlockStyle) {afterText : Bool} : Body afterText → Text
  | nil => []
  | text t rest => t.text ++ rest.print style
  | expression e rest => "<%= " ++ (e.text ++ (" %>" ++ rest.print style))
  | block h children rest => "<% " ++ (h.text ++ (style.headingEnd ++ ("%>" ++
      (children.print style ++ (style.endTag ++ rest.print style)))))

/-- A body as it is laid out in a module, each level indented by one more unit. -/
def render (style : BlockStyle) (unit : Text) (depth : Nat) {afterText : Bool} :
    Body afterText → Text
  | nil => []
  | text t rest =>
    (List.replicate depth unit).flatten ++
      ("res.write(\"\"\"" ++ t.text.quoteLong ++ "\"\"\")\n") ++ rest.render style unit depth
  | expression e rest =>
    (List.replicate depth unit).flatten ++ ("res.write(_formatter(" ++ e.text ++ "))\n") ++
      rest.render style unit depth
  | block h children rest =>
    (List.replicate depth unit).flatten ++ (h.text ++ style.headingLineEnd) ++
      (children.render style unit (depth + 1) ++ style.belowBlock) ++ rest.render style unit depth

/-- The parts of a written body. -/
inductive Token where
  | text (t : Literal)
  | expression (e : Phrase)
  | opening (h : Heading)
  | closing

namespace Token

/-- A part that is text. -/
def isText : Token → Bool
  | text _ => true
  | _ => false

/-- The construct that a part is in a template. -/
def construct (style : BlockStyle) : Token → Construct
  | text t => .text t.text
  | expression e => .expression ⟨" ", by decide⟩ (e.text ++ " ")
  | opening h => .script (' ' :: (h.text ++ style.headingEnd))
  | closing =>
    match style with
    | .braces => .script " \x7d "
    | .tabs | .spaces => .endBlock ⟨" ", by decide⟩ ⟨" ", by decide⟩ false

/-- The fragment that a part leaves in a page. -/
def fragment (style : BlockStyle) : Token → Fragment
  | text t => .text t.text
  | expression e => .expression (e.text ++ " ")
  | opening h => .script (' ' :: (h.text ++ style.headingEnd)) none
  | closing =>
    match style with
    | .braces => .script " \x7d " none
    | .tabs | .spaces => .endBlock

end Token

/-- The parts of a body in the order of the template. -/
def tokens {afterText : Bool} : Body afterText → List Token
  | nil => []
  | text t rest => .text t :: rest.tokens
  | expression e rest => .expression e :: rest.tokens
  | block h children rest => .opening h :: (children.tokens ++ .closing :: rest.tokens)

variable {afterText : Bool}

/-- No part of a body is text right behind text. -/
theorem areApart_tokens (body : Body afterText) :
    areApart Token.isText body.tokens = true ∧
      (afterText = true → ∀ t ∈ body.tokens.head?, t.isText = false) := by
  induction body with
  | nil => exact ⟨rfl, nofun⟩
  | text t rest ih => exact ⟨areApart_cons.mpr ⟨fun _ => ih.2 rfl, ih.1⟩, nofun⟩
  | expression e rest ih =>
    exact ⟨areApart_cons.mpr ⟨nofun, ih.1⟩, fun _ => by simp [tokens, Token.isText]⟩
  | block h children rest ihc ih =>
    have hinner := areApart_append_cons (b := Token.closing) rfl ihc.1 ih.1
    exact ⟨areApart_cons.mpr ⟨nofun, hinner⟩, fun _ => by simp [tokens, Token.isText]⟩

/-- A body is written as the constructs of its parts. -/
theorem print_eq (style : BlockStyle) (body : Body afterText) :
    body.print style = Construct.printAll (body.tokens.map (Token.construct style)) := by
  induction body with
  | nil => rfl
  | text t rest ih => rw [print, ih]; rfl
  | expression e rest ih =>
    rw [print, ih, tokens, List.map_cons, Construct.printAll, Construct.printAll, List.flatMap_cons]
    change _ = ("<%=".toList ++ (" ".toList ++ ((e.text ++ " ".toList) ++ "%>".toList))) ++ _
    simp
  | block h children rest ihc ih =>
    have hclose : (Token.closing.construct style).print = style.endTag := by cases style <;> rfl
    rw [print, ihc, ih, tokens, List.map_cons, List.map_append, List.map_cons, Construct.printAll,
      Construct.printAll, Construct.printAll, List.flatMap_cons, List.flatMap_append,
      List.flatMap_cons, hclose]
    change _ = ("<%".toList ++ ((' ' :: (h.text ++ style.headingEnd)) ++ "%>".toList)) ++ _
    simp

namespace Token

/-- Every part is written as a construct that can be recognised. -/
theorem valid_construct (style : BlockStyle) (t : Token) : (t.construct style).Valid := by
  cases t with
  | text t => exact ⟨t.ne_nil, t.plain⟩
  | expression e => exact ⟨e.unclosed_append (by decide), e.isTagSpace_head _⟩
  | opening h =>
    have hclose : '>' ∉ style.headingEnd := by cases style <;> decide
    have hcolon : ':' ∈ style.headingEnd := by cases style <;> decide
    -- the space in front keeps the heading from making a longer delimiter
    refine ⟨Text.not_infix_cons (by decide) (h.unclosed_append hclose), ?_, ?_, ?_, ?_⟩
    · exact fun hp => absurd (List.cons_prefix_cons.mp hp).1 (by decide)
    · exact fun hp => absurd (List.cons_prefix_cons.mp hp).1 (by decide)
    · exact fun hp => absurd (List.cons_prefix_cons.mp hp).1 (by decide)
    · exact Construct.isEndWord_eq_false (by simp [hcolon])
  | closing => cases style <;> decide

/-- Every part is one element, which leaves its fragment. -/
theorem events_construct (style : BlockStyle) (t : Token) :
    ∃ event, (t.construct style).events = [event] ∧
      event.fragment? = some (t.fragment style) := by
  cases t with
  | text t => exact ⟨_, rfl, if_neg t.ne_nil⟩
  | expression e => exact ⟨_, rfl, rfl⟩
  | opening h => exact ⟨_, rfl, rfl⟩
  | closing => cases style <;> exact ⟨_, rfl, rfl⟩

/-- The events of the tokens make the fragments of the tokens. -/
theorem filterMap_events (style : BlockStyle) (tokens : List Token) :
    ((tokens.map (construct style)).flatMap Construct.events).filterMap Event.fragment? =
      tokens.map (fragment style) := by
  induction tokens with
  | nil => rfl
  | cons t tokens ih =>
    obtain ⟨event, hevents, hfragment⟩ := t.events_construct style
    rw [List.map_cons, List.flatMap_cons, hevents, List.singleton_append,
      List.filterMap_cons_some hfragment, ih, List.map_cons]

/-- Every event of a token makes a fragment. -/
theorem fragment?_of_mem_events {style : BlockStyle} {tokens : List Token} {event : Event}
    (h : event ∈ (tokens.map (construct style)).flatMap Construct.events) :
    ∃ f, event.fragment? = some f := by
  obtain ⟨c, hc, hevent⟩ := List.mem_flatMap.mp h
  obtain ⟨t, -, rfl⟩ := List.mem_map.mp hc
  obtain ⟨only, honly, hfragment⟩ := t.events_construct style
  rw [honly, List.mem_singleton] at hevent
  exact ⟨_, hevent ▸ hfragment⟩

theorem isText_construct (style : BlockStyle) (t : Token) :
    (t.construct style).isText = t.isText := by
  cases t with
  | closing => cases style <;> rfl
  | _ => rfl

theorem isText_fragment (style : BlockStyle) (t : Token) :
    (t.fragment style).isText = t.isText := by
  cases t with
  | closing => cases style <;> rfl
  | _ => rfl

/-- Every part leaves a fragment of the page body, and no blank text. -/
theorem fragment_spec (style : BlockStyle) (t : Token) :
    (t.fragment style).isBlankText = false ∧ (t.fragment style).region = .service := by
  cases t with
  | text t => exact ⟨by simp [fragment, Fragment.isBlankText, t.visible], rfl⟩
  | closing => cases style <;> exact ⟨rfl, rfl⟩
  | _ => exact ⟨rfl, rfl⟩

/-- Text is written as a literal at the indentation of the printer. -/
theorem emit_text (p : Printer) (t : Literal) :
    ((text t).fragment p.style).emit p =
      (none, p.write (p.indentation ++
        ("res.write(\"\"\"" ++ t.text.quoteLong ++ "\"\"\")\n"))) := by
  rw [← Printer.write_write]
  rfl

/-- An expression is written with its formatter at the indentation of the printer. -/
theorem emit_expression (p : Printer) (e : Phrase) :
    ((expression e).fragment p.style).emit p =
      (none, p.write (p.indentation ++ ("res.write(_formatter(" ++ e.text ++ "))\n"))) := by
  have hcode : (Text.unescapeClose (e.text ++ " ")).trim = e.text := by
    rw [Text.unescapeClose_eq_self (e.unescaped_append (by decide)), e.trim_append (by decide)]
  rw [fragment, Fragment.emit, hcode, Printer.writeLine_of_ne_nil p (by simp), List.append_assoc]
  rfl

/-- The heading of a block becomes a line, and the block is opened below it. -/
theorem emit_opening {p : Printer} (hp : p.Ready) (h : Heading) :
    ((opening h).fragment p.style).emit p =
      (none, (p.write (p.indentation ++ (h.text ++ p.style.headingLineEnd))).opened) := by
  rw [fragment, Fragment.emit_script, Script.write_heading h hp, Option.map_none]

/-- The end of a block returns to the level before the block. -/
theorem emit_closing {p : Printer} (hp : p.Ready) (t : Text) :
    (closing.fragment p.style).emit (p.opened.write t) =
      (none, p.write (t ++ p.style.belowBlock)) := by
  cases hs : p.style with
  | braces =>
    have hclose : Script.write (p.indent.write t) " \x7d " = (none, (p.write t).newline) := by
      rw [Script.write, if_pos (show (p.indent.write t).style = .braces from hs),
        Script.writeBraced_close, ← Printer.indent_write, Printer.dedent_indent (hp.write t).floor]
    rw [Printer.opened_of_braces hs, fragment, Fragment.emit_script, hclose, Option.map_none,
      Printer.newline, Printer.write_write]
    rfl
  | tabs | spaces =>
    have hclose : (p.openBlock.write t).closeBlock = p.write t := (hp.write t).closeBlock_openBlock
    rw [Printer.opened_of_indented (by simp [hs]), fragment, Fragment.emit, hclose,
      (hp.write t).setUserIndent]
    exact congrArg (fun u => (none, p.write u)) (List.append_nil t).symm

end Token

/-- The parts of a body are written as the body is laid out, whatever follows them. -/
theorem emitAll_tokens (body : Body afterText) {p : Printer} (hp : p.Ready)
    (more : List Fragment) :
    Fragment.emitAll p (body.tokens.map (Token.fragment p.style) ++ more) =
      Fragment.emitAll (p.write (body.render p.style p.unit p.depth)) more := by
  induction body generalizing p more with
  | nil => rfl
  | text t rest ih =>
    refine (Fragment.emitAll_cons (Token.emit_text p t) _).trans ((ih (hp.write _) more).trans ?_)
    rw [Printer.write_write, render, ← hp.indentation]
    rfl
  | expression e rest ih =>
    refine (Fragment.emitAll_cons (Token.emit_expression p e) _).trans
      ((ih (hp.write _) more).trans ?_)
    rw [Printer.write_write, render, ← hp.indentation]
    rfl
  | block h children rest ihc ih =>
    -- the children are written by a printer one level deeper, which the end of the block gives back
    have hline := hp.write (p.indentation ++ (h.text ++ p.style.headingLineEnd))
    have hchildren := ihc hline.opened (Token.closing.fragment p.style ::
      (rest.tokens.map (Token.fragment p.style) ++ more))
    rw [Printer.style_opened, Printer.unit_opened, Printer.depth_opened] at hchildren
    rw [tokens, List.map_cons, List.map_append, List.map_cons, List.cons_append, List.append_assoc,
      List.cons_append, Fragment.emitAll_cons (Token.emit_opening hp h)]
    refine hchildren.trans ((Fragment.emitAll_cons (Token.emit_closing hline _) _).trans
      ((ih (hline.write _) more).trans ?_))
    rw [Printer.write_write, Printer.write_write, render, ← hp.indentation]
    simp only [List.append_assoc]
    rfl

/-- A page body is printed without carriage returns. -/
theorem cr_not_mem_print (style : BlockStyle) (body : Body afterText) :
    '\r' ∉ body.print style := by
  have hend : '\r' ∉ style.headingEnd ∧ '\r' ∉ style.endTag := by cases style <;> decide
  induction body with
  | nil => exact List.not_mem_nil
  | text t rest ih => simp [print, t.unbroken, ih]
  | expression e rest ih => simp [print, e.oneLine, ih]
  | block h children rest ihc ih => simp [print, h.oneLine, hend, ihc, ih]

/-- Scanning a written body gives a page with the fragments of its parts. -/
theorem run_print (style : BlockStyle) (body : Body afterText) (disk : Disk) (crossing : Bool)
    (name baseDir : Text) (page : Page) (hp : page.fragments = []) :
    ∃ scan fragments,
      (Scan.start ((Input.empty crossing).openText name (body.print style) baseDir) page).run
        Page.visitor disk = .ok scan ∧ scan.state = { page with fragments } ∧
      fragments.map Fragment.erase = body.tokens.map (Token.fragment style) := by
  have hvalid : ∀ c ∈ body.tokens.map (Token.construct style), c.Valid := by
    rw [List.forall_mem_map]
    exact fun t _ => t.valid_construct style
  have hapart : areApart Construct.isText (body.tokens.map (Token.construct style)) = true := by
    rw [areApart_map (Token.isText_construct style)]
    exact body.areApart_tokens.1
  obtain ⟨cuts, hreads, hevents⟩ := Construct.reads_printAll hvalid hapart (Or.inl rfl)
  rw [← print_eq, ← Text.unifyBreaks_eq_self (body.cr_not_mem_print style)] at hreads
  have htakes : ∀ c ∈ cuts, Page.visitor.Takes disk Page.Gains c.event := fun c hc => by
    have hmem : c.event ∈ cuts.map Cut.event := List.mem_map_of_mem hc
    rw [hevents] at hmem
    obtain ⟨f, hf⟩ := Token.fragment?_of_mem_events hmem
    exact Page.visitor_takes hf disk
  obtain ⟨scan, hrun, hsteps⟩ := Scan.run_of_reads hreads
    (Scan.alone_start crossing name (body.print style) none baseDir .utf8 page) rfl rfl htakes
  rw [hevents] at hsteps
  obtain ⟨fragments, hlast, hmap⟩ := Page.steps_gains hsteps
  refine ⟨scan, fragments, hrun, hlast, ?_⟩
  rw [hmap, show (Scan.start _ page).state.fragments = [] from hp]
  exact Token.filterMap_events style body.tokens

/-- The module of a page with the fragments of a body is the text before the body, the body as it is
laid out, and the end of the module. -/
theorem generate_eq {page : Page} {head : Text} (body : Body afterText)
    (hmap : page.fragments.map Fragment.erase =
      body.tokens.map (Token.fragment page.settings.style))
    (hhead : page.writeService (page.writeClass
        ((Printer.start page.settings.style page.settings.spaces).writeLines page.headLines)) =
      (Printer.body page.settings.style page.settings.spaces).write head) :
    page.generate.1 = .ok (head ++ body.render page.settings.style
      (Printer.body page.settings.style page.settings.spaces).unit 2 ++ "\n##footer\n") := by
  have hready := (Printer.ready_body page.settings.style page.settings.spaces).write head
  have hemit := body.emitAll_tokens hready []
  rw [List.append_nil, Printer.write_write] at hemit
  refine (Page.generate_of_emitAll hmap ?_ ?_ hhead hemit).trans ?_
  · rw [areApart_map (Token.isText_fragment page.settings.style)]
    exact body.areApart_tokens.1
  · rw [List.forall_mem_map]
    exact fun t _ => t.fragment_spec page.settings.style
  · rw [Printer.text_write]
    rfl

end Body

/-- The indentation of one level. -/
def Options.unit (o : Options) : Text :=
  match o.style with
  | .tabs => ['\t']
  | .spaces | .braces => List.replicate o.spaces ' '

/-- Compiling a written body succeeds, and below the line that binds the formatter the module is the
body as it is laid out inside the method, and the end of the module. -/
theorem compileText_print (o : Options) (name : Text) :
    ∃ head, ∀ (disk : Disk) (body : Body false),
      (compileText disk o name (body.print o.style)).result =
        .ok ⟨Compilation.className o name,
          head ++ (o.unit ++ o.unit ++ "_formatter = str\n") ++
            (body.render o.style o.unit 2 ++ "\n##footer\n"), []⟩ := by
  obtain ⟨head, hhead⟩ := (Page.start o (Compilation.className o name) name).exists_preamble
  refine ⟨head, fun disk body => ?_⟩
  obtain ⟨scan, fragments, hrun, hstate, hmap⟩ := body.run_print o.style disk o.crossing name
    (o.baseDir?.getD ['.']) (Page.start o (Compilation.className o name) name) rfl
  have hmargin : (Printer.body o.style o.spaces).indentation = o.unit ++ o.unit := by
    rw [(Printer.ready_body o.style o.spaces).indentation]
    exact congrArg (o.unit ++ ·) (List.append_nil o.unit)
  have hgenerate : scan.state.generate.1 =
      .ok (head ++ (o.unit ++ o.unit ++ "_formatter = str\n") ++
        (body.render o.style o.unit 2 ++ "\n##footer\n")) := by
    rw [hstate, ← hmargin, ← List.append_assoc _ _ "\n##footer\n".toList]
    exact body.generate_eq hmap hhead
  rw [compileText, Compilation.ofInput, hrun]
  change (scan.state.generate.1.map fun source =>
    CompiledModule.mk scan.state.className source scan.state.notices) = _
  rw [hgenerate, hstate]
  rfl

/-- A loop around a condition, and text before and after it. -/
def Body.loop : Body false :=
  .text ⟨"<p>", by decide +kernel, by decide +kernel, by decide +kernel⟩
    (.block ⟨⟨"for a in b", by decide +kernel, by decide +kernel, by decide +kernel,
        by decide +kernel, by decide +kernel⟩, by decide +kernel⟩
      (.block ⟨⟨"if a", by decide +kernel, by decide +kernel, by decide +kernel, by decide +kernel,
          by decide +kernel⟩, by decide +kernel⟩
        (.expression ⟨"a", by decide +kernel, by decide +kernel, by decide +kernel,
          by decide +kernel, by decide +kernel⟩ .nil) .nil)
      (.text ⟨"\"", by decide +kernel, by decide +kernel, by decide +kernel⟩ .nil))

/-- With braces, and with an indentation of two columns. -/
theorem compileText_loop :
    ∃ head, (compileText .empty { style := .braces, spaces := 2 } "page"
        "<p><% for a in b:\x7b %><% if a:\x7b %><%= a %><% \x7d %><% \x7d %>\"").result =
      .ok ⟨"page", head ++ ("  " ++ "  " ++ "_formatter = str\n") ++
        ("    res.write(\"\"\"<p>\"\"\")\n    for a in b:\n      if a:\n" ++
          "        res.write(_formatter(a))\n\n\n    res.write(\"\"\"\\\"\"\"\")\n" ++
          "\n##footer\n"), []⟩ := by
  have hprint : Body.loop.print .braces =
      "<p><% for a in b:\x7b %><% if a:\x7b %><%= a %><% \x7d %><% \x7d %>\"".toList := by
    decide +kernel
  have hrender : Body.loop.render .braces "  " 2 =
      ("    res.write(\"\"\"<p>\"\"\")\n    for a in b:\n      if a:\n" ++
        "        res.write(_formatter(a))\n\n\n    res.write(\"\"\"\\\"\"\"\")\n" : Text) := by
    decide +kernel
  have hunit : Options.unit { style := .braces, spaces := 2 } = "  ".toList := by decide +kernel
  have hname : Compilation.className { style := .braces, spaces := 2 } "page" = "page".toList := by
    decide +kernel
  obtain ⟨head, h⟩ := compileText_print { style := .braces, spaces := 2 } "page"
  have hresult := h .empty Body.loop
  rw [hprint, hunit, hrender, hname] at hresult
  exact ⟨head, hresult⟩

end ServerPages
