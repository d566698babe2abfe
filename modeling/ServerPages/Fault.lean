import ServerPages.Position
import ServerPages.Disk.Basic

/-!
# Faults and failures

A fault is what can go wrong while a page is compiled. A failure is a fault together with the place
in the template where it was met, as far as that is known.
-/

namespace ServerPages

/-- How deep files may be nested, the root template included. -/
def maxDepth : Nat := 64

/-- Why a file that a template names cannot be used. -/
inductive Refusal where
  | unknownEncoding (label : Text)
  | tooDeep
  /-- Reading the file at the resolved path failed. -/
  | unreadable (resolved : Text) (error : OsError)
  | includesItself
  /-- No file at the resolved path. -/
  | missing (resolved : Text)
  | stated (words : Text)
  deriving DecidableEq, Repr

/-- The words in which a refusal is reported. -/
def Refusal.message : Refusal → Text
  | unknownEncoding label => "unknown encoding `" ++ label ++ "`"
  | tooDeep => "includes are nested more than " ++ .ofNat maxDepth ++ " levels deep"
  | unreadable _ error => error.message
  | includesItself => "file includes itself"
  | missing _ => "file does not exist"
  | stated words => words

/-- What can go wrong while a page is compiled. -/
inductive Fault where
  /-- An element is not closed. -/
  | unclosed (expected : Text)
  /-- More characters were asked for than are left. -/
  | endOfInput
  /-- Neither a directive nor a page setting has this name. -/
  | unknownDirective (name : Text)
  /-- A page setting has a value it does not take. -/
  | invalidSetting (name value : Text)
  /-- The file ends inside an attribute list. -/
  | unterminatedAttribute
  /-- An attribute name is not followed by an equals sign. -/
  | missingValue (name : Text)
  /-- A script ends inside a string. -/
  | unterminatedQuote (quote : Text)
  /-- A tag lacks an attribute that it needs. -/
  | missingAttribute (tag name : Text)
  /-- A file that the template names cannot be used. -/
  | resource (path : Text) (why : Refusal)
  deriving DecidableEq, Repr

/-- The words in which a fault is reported. -/
def Fault.message : Fault → Text
  | unclosed expected => "reached end of input while looking for `" ++ expected ++ "`"
  | endOfInput => "unexpected end of input"
  | unknownDirective name => "unknown directive `" ++ name ++ "`"
  | invalidSetting name value =>
    "invalid value `" ++ value ++ "` for page directive `" ++ name ++ "`"
  | unterminatedAttribute => "unterminated tag attribute"
  | missingValue name => "attribute `" ++ name ++ "` has no value"
  | unterminatedQuote quote => "script block ends inside a " ++ quote ++ " string"
  | missingAttribute tag name => "`" ++ tag ++ "` requires a `" ++ name ++ "` attribute"
  | resource path why => "cannot read `" ++ path ++ "`: " ++ why.message

/-- A fault and the place where it was met. -/
structure Failure where
  /-- What went wrong. -/
  fault : Fault
  /-- Where it was met, as far as that is known. -/
  span? : Option Span
  deriving DecidableEq, Repr

namespace Failure

/-- The same failure, placed at a span unless it already has a place. -/
def orAt (f : Failure) (span : Span) : Failure := { f with span? := f.span?.or (some span) }

/-- The place, if known, and the words of the fault. -/
def message (f : Failure) : Text :=
  match f.span? with
  | some span => span.text ++ ": " ++ f.fault.message
  | none => f.fault.message

end Failure

end ServerPages
