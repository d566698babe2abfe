import ServerPages.Page.Module
import ServerPages.Proofs.Code.Printer

/-!
# The frame of the page body

Whatever the settings of a page say, the parts of the module before the page body open two levels
and close every other level that they open. The last line before the page body names the formatter,
and the floor is set so that the page body cannot close the two levels.
-/

namespace ServerPages

/-- Where the page body begins, with nothing written: in a method of a class. -/
def Printer.body (style : BlockStyle) (spaces : Nat) : Printer :=
  (start style spaces).indent.indent.setFloor

theorem Printer.ready_body (style : BlockStyle) (spaces : Nat) : (body style spaces).Ready :=
  ⟨rfl, Nat.succ_pos 1, Nat.le_refl 2⟩

namespace Page

open Printer

variable {p q : Printer}

/-- A method closes the level that it opens. -/
theorem appends_writeMethod (h : p.Appends q) (hf : p.floor ≤ p.depth) (head : Text)
    (body : List Text) : p.Appends (writeMethod q head body) :=
  ((h.writeLine head).writeInner hf body).newline

/-- The base classes close the levels that they open. -/
theorem appends_writeBases (h : p.Appends q) (hf : p.floor ≤ p.depth) (bases : List Text) :
    p.Appends (bases.foldl writeBase q) := by
  induction bases generalizing q with
  | nil => exact h
  | cons base bases ih => exact ih ((((h.writeLine _).writeLine _).writeInner hf _).writeLine _)

/-- The method that wakes a page closes the levels that it opens. -/
theorem appends_writeAwake (h : p.Appends q) (hf : p.floor ≤ p.depth) :
    p.Appends (writeAwake q) := by
  have hcall : ∀ r : Printer, r.floor ≤ r.depth → r.Appends ((r.indent.writeLine
      "if hasattr(baseclass, \"awake\"):").writeInner
        ["baseclass.awake(self, trans)", "break"]).dedent := fun r hr =>
    (((Appends.refl r.indent).writeLine _).writeInner (Nat.le_succ_of_le hr) _).dedent hr
  have hhead := h.writeLine "def awake(self, trans):"
  have hloop := (Appends.refl (q.writeLine "def awake(self, trans):").indent).writeLine
    "for baseclass in self.__class__.__bases__:"
  have hmethod := hhead.floor_le hf
  have hbody := hloop.trans (hcall _ (hloop.floor_le (Nat.le_succ_of_le hmethod)))
  exact (hhead.trans ((hbody.writeLine "self.initPSP()").dedent hmethod)).newline

/-- The class opens one level, and its standard methods close theirs. -/
theorem appends_writeClass (page : Page) (hf : p.floor ≤ p.depth) :
    p.indent.Appends (page.writeClass p) := by
  have hbases := ((Appends.refl p).newline.writeLine "import types").writeLine "_baseClasses = []"
  have hhead := (appends_writeBases hbases hf page.settings.baseClasses).newline.writeLine
    ("class " ++ page.className ++ "(" ++ page.baseList ++ "):")
  have hi := Nat.le_succ_of_le hf
  have hawake : ∀ q, p.indent.Appends q →
      p.indent.Appends (if page.definesAwake then q else writeAwake q) := fun q hq => by
    split
    · exact hq
    · exact appends_writeAwake hq hi
  refine appends_writeMethod (appends_writeMethod (hawake _ ?_) hi _ _) hi _ _
  exact appends_writeMethod (appends_writeMethod hhead.indent hi _ _) hi _ _

/-- The methods that serve a page open one level, and the last line before the page body binds the
formatter. -/
theorem writeService_eq (page : Page) (hf : p.floor ≤ p.depth) :
    ∃ t, page.writeService p = (p.indent.write (t ++ (p.indent.indentation ++
      ("_formatter = " ++ page.settings.formatter ++ ['\n'])))).setFloor := by
  have hmethod := (appends_writeMethod (Appends.refl p).newline hf
    ("def " ++ page.settings.method ++ "(self, transaction=None):")
    ["\"\"\"I take a WebKit.Transaction object.\"\"\"",
      "trans = transaction if transaction is not None else self._transaction",
      "res = trans.response()", "req = trans.request()",
      "self._" ++ page.settings.method ++ "(res, req, trans)"]).writeLine
    ("def _" ++ page.settings.method ++ "(self, res, req=None, trans=None):")
  have hdoc := hmethod.indent.writeLine
    "\"\"\"I take a file-like object. I am useful for unit testing.\"\"\""
  obtain ⟨t, ht⟩ := hdoc.exists_writeLine_eq
    (show ("_formatter = " ++ page.settings.formatter : Text) ≠ [] by simp)
  exact ⟨t, congrArg setFloor ht⟩

/-- Everything before the page body leaves the printer at the beginning of the body, below the line
that binds the formatter. -/
theorem exists_preamble (page : Page) :
    ∃ head, page.writeService (page.writeClass
        ((Printer.start page.settings.style page.settings.spaces).writeLines page.headLines)) =
      (Printer.body page.settings.style page.settings.spaces).write (head ++
        ((Printer.body page.settings.style page.settings.spaces).indentation ++
          ("_formatter = " ++ page.settings.formatter ++ ['\n']))) := by
  have hlines := (Appends.refl (Printer.start page.settings.style page.settings.spaces)).writeLines
    page.headLines
  have hclass := hlines.indent.trans (page.appends_writeClass (hlines.floor_le (Nat.le_refl 0)))
  obtain ⟨second, hsecond⟩ := page.writeService_eq (hclass.floor_le (Nat.zero_le 1))
  obtain ⟨first, hfirst⟩ := hclass
  refine ⟨first ++ second, ?_⟩
  rw [hsecond, hfirst, indent_write, write_write, List.append_assoc first]
  rfl

/-- The end of the module stands below everything, without an indentation. -/
theorem text_writeFooter (p : Printer) : (writeFooter p).text = p.text ++ "\n##footer\n" := by
  have hindent : (p.closeAll.setUserIndent []).newline.indentation = [] := rfl
  rw [writeFooter, writeLine_of_ne_nil _ (by simp), hindent, text_write, newline, text_write,
    List.append_assoc]
  rfl

end Page

end ServerPages
