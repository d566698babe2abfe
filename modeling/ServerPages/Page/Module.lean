import ServerPages.Page.Basic

/-!
# The generated module

A page becomes a module in a fixed order: the head with its imports, the module region, the class
with its standard methods, the class region, the methods of the page, the method that answers a
request, and in it the page body. Before that, neighbouring texts are merged, and blank text between
scripts is dropped if the page wants it.
-/

namespace ServerPages.Page

/-- Write a method and an empty line. -/
def writeMethod (p : Printer) (head : Text) (body : List Text) : Printer :=
  ((p.writeLine head).writeInner body).newline

/-- The head of the module. -/
def headLines (page : Page) : List Text :=
  let bases := page.settings.baseClasses.filter fun base =>
    !base.contains '.' && !page.settings.importedSymbols.contains base
  let title : List Text := ["# Generated automatically by PSP compiler", []]
  let standard : List Text := ["import WebKit", "from WebKit import Page"]
  let origin : Text := "__orig_file__ = \"" ++ page.sourceName.quoteShort ++ "\""
  title ++ page.settings.imports.map Import.line ++ standard ++
    bases.map (fun base => (Import.module base).line) ++ [origin]

/-- Find one base class, which may be given by its module. -/
def writeBase (p : Printer) (base : Text) : Printer :=
  let name := (base.splitOn '.').getLast?.getD base
  (((p.writeLine ("_base = " ++ base)).writeLine
    "if isinstance(_base, types.ModuleType):").writeInner
    ["_base = getattr(_base, \"" ++ name.quoteShort ++ "\")"]).writeLine
    "_baseClasses.append(_base)"

/-- The base classes of the class, by their numbers. -/
def baseList (page : Page) : Text :=
  Text.join ", " ((List.range page.settings.baseClasses.length).map fun i =>
    "_baseClasses[" ++ Text.ofNat i ++ "]")

/-- The method that wakes an instance, for pages without their own. -/
def writeAwake (p : Printer) : Printer :=
  let p := (p.writeLine "def awake(self, trans):").indent
  let p := (p.writeLine "for baseclass in self.__class__.__bases__:").indent
  let p := p.writeLine "if hasattr(baseclass, \"awake\"):"
  let p := (p.writeInner ["baseclass.awake(self, trans)", "break"]).dedent
  (p.writeLine "self.initPSP()").dedent.newline

/-- The head of the class and its standard methods. The class stays open. -/
def writeClass (page : Page) (p : Printer) : Printer :=
  let p := (p.newline.writeLine "import types").writeLine "_baseClasses = []"
  let p := (page.settings.baseClasses.foldl writeBase p).newline
  let p := (p.writeLine ("class " ++ page.className ++ "(" ++ page.baseList ++ "):")).indent
  let p := writeMethod p "def canBeThreaded(self):"
    [if page.settings.threadSafe then "return 1" else "return 0"]
  let p := writeMethod p "def canBeReused(self):"
    [if page.settings.instanceSafe then "return 1" else "return 0"]
  let p := if page.definesAwake then p else writeAwake p
  let p := writeMethod p "def __includeFile(self, filename):" ["self.write(open(filename).read())"]
  writeMethod p "def initPSP(self):" ["pass"]

/-- The method that answers a request and the one that writes the page. The latter stays open, and
is the floor of the page body. -/
def writeService (page : Page) (p : Printer) : Printer :=
  let method := page.settings.method
  let p := writeMethod p.newline ("def " ++ method ++ "(self, transaction=None):")
    ["\"\"\"I take a WebKit.Transaction object.\"\"\"",
      "trans = transaction if transaction is not None else self._transaction",
      "res = trans.response()", "req = trans.request()",
      "self._" ++ method ++ "(res, req, trans)"]
  let p := (p.writeLine ("def _" ++ method ++ "(self, res, req=None, trans=None):")).indent
  let p := p.writeLines ["\"\"\"I take a file-like object. I am useful for unit testing.\"\"\"",
    "_formatter = " ++ page.settings.formatter]
  p.setFloor

/-- The end of the module. -/
def writeFooter (p : Printer) : Printer :=
  (p.closeAll.setUserIndent []).newline.writeLine "##footer"

/-- Write the fragments of one region. -/
def emitRegion (page : Page) (region : Region) (p : Printer) : Except Failure Printer :=
  Fragment.emitAll p (page.fragments.filter fun f => f.region = region)

/-- Merge neighbouring texts, and drop blank text between scripts if the page wants it. -/
def tidy (page : Page) : Page :=
  let merged := Fragment.mergeTexts page.fragments
  { page with fragments := if page.settings.gobble then Fragment.gobble merged else merged }

/-- The printer after everything that precedes the page body. -/
def emitFrame (page : Page) : Except Failure Printer := do
  let p := Printer.start page.settings.style page.settings.spaces
  let p ← page.emitRegion .module (p.writeLines page.headLines)
  let p ← page.emitRegion .classBody (page.writeClass p)
  let p ← page.emitRegion .methods p
  .ok (page.writeService p)

/-- The text of the module after the page body and the end of the module. -/
def emitBody (page : Page) (p : Printer) : Except Failure Text :=
  (page.emitRegion .service p).map fun p => (writeFooter p).text

/-- The text of the module, and what has become of the page. The page is tidied just before its body
is written, and stays tidied when the body fails. -/
def generate (page : Page) : Except Failure Text × Page :=
  match page.emitFrame with
  | .error failure => (.error failure, page)
  | .ok p => (page.tidy.emitBody p, page.tidy)

/-- What generating the module leaves in the log. -/
def generationRecords (page : Page) : List LogRecord :=
  let merged := page.fragments.length - (Fragment.mergeTexts page.fragments).length
  let region (r : Region) : Text := "Emitting " ++ r.word ++ " phase"
  [("Emitting header of " ++ page.className : Text), region .module, "Emitting class declaration",
    region .classBody, region .methods, "Emitting " ++ page.settings.method,
    "Merged " ++ Text.ofNat merged ++ " literal generators", region .service].map
    fun text => ⟨.trace, text⟩

end ServerPages.Page
