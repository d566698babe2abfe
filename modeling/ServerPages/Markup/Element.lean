import ServerPages.Input.Basic
import ServerPages.Markup.Attributes
import ServerPages.Notice

/-!
# Elements of a template

A template is a sequence of elements: tags of several kinds, and plain text between them.
-/

namespace ServerPages

/-- The kinds of elements. -/
inductive ElementKind where
  /-- A comment, which leaves no trace. -/
  | comment
  /-- An expression whose value is written. -/
  | expression
  /-- A directive with its name. -/
  | directive (name : Text)
  /-- The end of a block, perhaps with a needless marker. -/
  | endBlock (marked : Bool)
  /-- Statements of the page body. -/
  | script
  /-- Statements of the module. -/
  | moduleCode
  /-- Statements of the class. -/
  | classCode
  /-- The head of a method. -/
  | methodHead
  /-- The body of a method. -/
  | methodBody
  /-- The response of another page. -/
  | urlInclude
  /-- The contents of a file. -/
  | fileInsert
  /-- Text that is written as it is. -/
  | plainText
  deriving DecidableEq, Repr

/-- The word for a kind. -/
def ElementKind.word : ElementKind → Text
  | comment => "Comment"
  | expression => "Expression"
  | directive _ => "Directive"
  | endBlock _ => "EndBlock"
  | script => "Script"
  | moduleCode => "ScriptFile"
  | classCode => "ScriptClass"
  | methodHead => "Method"
  | methodBody => "MethodEnd"
  | urlInclude => "Include"
  | fileInsert => "Insert"
  | plainText => "CharData"

/-- A kind with its details, as the log shows it. -/
def ElementKind.shown : ElementKind → Text
  | directive name => "Directive \x7b name: \"" ++ name ++ "\" \x7d"
  | endBlock marked =>
    "EndBlock \x7b trailing_marker: " ++ (if marked then "true" else "false") ++ " \x7d"
  | kind => kind.word

/-- One element. -/
structure Element where
  /-- Its kind. -/
  kind : ElementKind
  /-- Its text, as far as the kind has one. -/
  text : Text
  /-- Its attributes, as far as the kind has them. -/
  attributes : Attributes
  /-- Where its text begins. -/
  start : Stack
  /-- Where its text ends. -/
  stop : Stack
  deriving DecidableEq, Repr

namespace Element

/-- What an author is warned about in an element. -/
def notices (e : Element) : List Notice :=
  match e.kind with
  | .endBlock true => [⟨.trailingEndMarker, some e.start.span⟩]
  | _ => []

/-- The file that an include directive asks for. -/
def inclusion? (e : Element) : Option Inclusion :=
  if e.kind = .directive "include" then
    (e.attributes.get? "file").map fun path => ⟨path, e.attributes.get? "encoding"⟩
  else none

end Element

end ServerPages
