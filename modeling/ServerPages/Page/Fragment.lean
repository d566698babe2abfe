import ServerPages.Code.Script

/-!
# Fragments of the module

What a template contributes to the generated module is a list of fragments in template order. Each
belongs to a region of the module, and the regions are written one after the other.
-/

namespace ServerPages

/-- The regions of the module. -/
inductive Region where
  | module
  | classBody
  | methods
  | service
  deriving DecidableEq, Repr

/-- The word for a region. -/
def Region.word : Region → Text
  | module => "File"
  | classBody => "Class"
  | methods => "Declarations"
  | service => "Service"

/-- A fragment of the module. -/
inductive Fragment where
  /-- Text that the page writes. -/
  | text (chars : Text)
  /-- An expression whose value the page writes. -/
  | expression (code : Text)
  /-- Statements of the page body. -/
  | script (code : Text) (span? : Option Span)
  /-- The end of a block. -/
  | endBlock
  /-- Statements of the module. -/
  | moduleCode (code : Text)
  /-- Statements of the class. -/
  | classCode (code : Text)
  /-- The head of a method. -/
  | methodHead (name : Text) (params? : Option Text)
  /-- The body of a method. -/
  | methodBody (body : Text)
  /-- The response of another page, obtained when the page is served. -/
  | urlInclude (path : Text)
  /-- The text of a file, obtained when the page is compiled. -/
  | insertText (content : Text)
  /-- The text of a file, obtained when the page is served. -/
  | insertFile (path : Text)
  deriving DecidableEq, Repr

namespace Fragment

/-- The region of a fragment. -/
def region : Fragment → Region
  | moduleCode _ => .module
  | classCode _ => .classBody
  | methodHead .. | methodBody _ => .methods
  | _ => .service

/-- Text from the template. -/
def isText : Fragment → Bool
  | text _ => true
  | _ => false

/-- A place where a block can begin or end. -/
def isBoundary : Fragment → Bool
  | script .. | endBlock => true
  | _ => false

/-- Text from the template that is blank and not empty. -/
def isBlankText : Fragment → Bool
  | text chars => !chars.isEmpty && chars.isBlank
  | _ => false

/-- Text that follows text is one text with it. -/
def merge? : Fragment → Fragment → Option Fragment
  | text chars, text more => some (text (chars ++ more))
  | _, _ => none

/-- Every run of neighbouring texts becomes one text. -/
def mergeTexts : List Fragment → List Fragment
  | [] => []
  | f :: rest =>
    match mergeTexts rest with
    | [] => [f]
    | g :: more =>
      match f.merge? g with
      | some merged => merged :: more
      | none => f :: g :: more

/-- Without the blank texts between two places where blocks can begin or end, the first of them
following a given fragment. -/
def gobbleAfter (before? : Option Fragment) : List Fragment → List Fragment
  | [] => []
  | f :: rest =>
    if f.isBlankText && before?.any isBoundary && rest.head?.any isBoundary then
      gobbleAfter (some f) rest
    else f :: gobbleAfter (some f) rest

/-- Without the blank texts between two places where blocks can begin or end. -/
def gobble (fragments : List Fragment) : List Fragment := gobbleAfter none fragments

/-- A statement that writes text to the response. -/
def writeText (p : Printer) (chars : Text) : Printer :=
  p.writeIndent.write ("res.write(\"\"\"" ++ chars.quoteLong ++ "\"\"\")\n")

/-- The head of a method, with its parameters if there are any. -/
def methodLine (name : Text) (params? : Option Text) : Text :=
  let params : Text := (params?.getD []).trim
  let others : Text := if params = [] then [] else ", " ++ params
  "def " ++ name ++ "(self" ++ others ++ "):"

/-- The statements of a method. A method without any has one that does nothing. -/
def methodLines (body : Text) : List Text :=
  let lines := Script.codeLines body
  if lines.all Text.isBlank then ["pass"] else lines

/-- Write a fragment. What was written before a failure stays. -/
def emit (f : Fragment) (p : Printer) : Option Failure × Printer :=
  match f with
  | text chars => (none, writeText p chars)
  | expression code =>
    (none, p.writeLine ("res.write(_formatter(" ++ code.unescapeClose.trim ++ "))"))
  | script code span? =>
    let (fault?, p) := Script.write p code
    (fault?.map fun fault => ⟨fault, span?⟩, p)
  | endBlock => (none, p.closeBlock.setUserIndent [])
  | moduleCode code =>
    (none, (p.newline.writeLine "# File level user code").writeLines (Script.codeLines code))
  | classCode code =>
    (none, (p.writeLine "# Class level user code").newline.writeLines (Script.codeLines code))
  | methodHead name params? =>
    let p := p.writeLine (methodLine name params?)
    (none, if name = "awake" then p.writeInner ["self.initPSP()"] else p)
  | methodBody body => (none, (p.writeInner (methodLines body)).newline)
  | urlInclude path =>
    (none, p.writeLines ["__pspincludepath = \"" ++ path.quoteShort ++ "\"",
      "self.transaction().application().includeURL(self.transaction(), __pspincludepath)"])
  | insertText content => (none, writeText p content)
  | insertFile path => (none, p.writeLine ("self.__includeFile(\"" ++ path.quoteShort ++ "\")"))

/-- Write fragments up to the first that fails. -/
def emitAll (p : Printer) : List Fragment → Except Failure Printer
  | [] => .ok p
  | f :: rest =>
    match f.emit p with
    | (none, p) => emitAll p rest
    | (some failure, _) => .error failure

end Fragment

end ServerPages
