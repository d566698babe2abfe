import ServerPages.Markup.Scan
import ServerPages.Page.Fragment
import ServerPages.Page.Settings

/-!
# Pages

A page collects what a template says: page directives change its settings, and every other element
that leaves a trace becomes a fragment of the module.
-/

namespace ServerPages

/-- What is known about a page. -/
structure Page where
  /-- The name of the generated class. -/
  className : Text
  /-- The template, as the module names it. -/
  sourceName : Text
  /-- The properties of the page. -/
  settings : Settings
  /-- The fragments of the module, in template order. -/
  fragments : List Fragment
  /-- Whether the page has its own method for being woken. -/
  definesAwake : Bool
  /-- What the author is warned about. -/
  notices : List Notice
  deriving DecidableEq, Repr

namespace Page

/-- A page before its template is read. -/
def start (o : Options) (className sourceName : Text) : Page :=
  ⟨className, sourceName, .ofOptions o, [], false, []⟩

/-- The value of an attribute that a tag cannot do without. -/
def required (e : Element) (tag name : Text) : Except Fault Text :=
  match e.attributes.get? name with
  | some value => .ok value
  | none => .error (.missingAttribute tag name)

/-- Whether a file is to be inserted when the page is compiled. -/
def isStatic (e : Element) : Bool :=
  (e.attributes.get? "static").any fun value =>
    ([("true" : Text), "yes", "1"]).contains value.trim.toLower

/-- The fragment that inserts a file. -/
def insertion (disk : Disk) (stack : Stack) (e : Element) : Except Fault Fragment :=
  match required e "psp:insert" "file" with
  | .error fault => .error fault
  | .ok path =>
    let resolved := stack.resolve path
    if isStatic e then
      match disk.read resolved with
      | .ok octets => .ok (.insertText (Encoding.utf8.decode octets))
      | .error error => .error (.resource path (.unreadable resolved error))
    else if disk.isFile resolved then .ok (.insertFile resolved)
    else .error (.resource path (.missing resolved))

/-- The fragment of an element, if it leaves a trace. -/
def fragment? (disk : Disk) (stack : Stack) (e : Element) : Except Fault (Option Fragment) :=
  match e.kind with
  | .comment | .directive _ => .ok none
  | .plainText => .ok (if e.text = [] then none else some (.text e.text))
  | .expression => .ok (some (.expression e.text))
  | .endBlock _ => .ok (some .endBlock)
  | .script => .ok (some (.script e.text (some e.start.span)))
  | .moduleCode => .ok (some (.moduleCode e.text))
  | .classCode => .ok (some (.classCode e.text))
  | .methodHead =>
    (required e "psp:method" "name").map fun name =>
      some (.methodHead name.trim (e.attributes.get? "params"))
  | .methodBody => .ok (some (.methodBody e.text))
  | .urlInclude => (required e "psp:include" "path").map fun path => some (.urlInclude path)
  | .fileInsert => (insertion disk stack e).map some

/-- Add a fragment. -/
def add (page : Page) (f : Fragment) (notices : List Notice) : Page :=
  let wakes :=
    match f with
    | .methodHead name _ => name = "awake"
    | _ => false
  { page with
    fragments := page.fragments ++ [f]
    definesAwake := page.definesAwake || wakes
    notices := page.notices ++ notices }

/-- Follow a directive. A page directive takes effect up to its first attribute that does not fit;
the file of an include directive is opened by the scan. -/
def direct (page : Page) (name : Text) (e : Element) : Page × Option Fault :=
  if name = "page" then
    let (settings, fault?) := page.settings.applyAll e.attributes.entries
    ({ page with settings }, fault?)
  else if name = "include" then
    match required e "include" "file" with
    | .ok _ => (page, none)
    | .error fault => (page, some fault)
  else (page, some (.unknownDirective name))

/-- Take an element into the page. -/
def accept (disk : Disk) (stack : Stack) (e : Element) (page : Page) : Page × Option Fault :=
  match e.kind with
  | .directive name => page.direct name e
  | _ =>
    match fragment? disk stack e with
    | .error fault => (page, some fault)
    | .ok none => (page, none)
    | .ok (some f) => (page.add f e.notices, none)

/-- Pages take the elements of a scan, which reads included files. -/
def visitor : Visitor Page := ⟨accept, true⟩

end Page

end ServerPages
