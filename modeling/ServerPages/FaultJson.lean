import ServerPages.Fault
import ServerPages.Json

/-!
# The JSON form of failures

A failure is an object with the kind of its fault and its place, which may be missing. A fault
without details is its word alone, any other an object with its details under its word.
-/

namespace ServerPages

namespace Fault

/-- The word for the kind of a fault. -/
def word : Fault → Text
  | unclosed _ => "MalformedConstruct"
  | endOfInput => "UnexpectedEndOfInput"
  | unknownDirective _ => "UnknownDirective"
  | invalidSetting .. => "InvalidDirectiveValue"
  | unterminatedAttribute => "UnterminatedAttribute"
  | missingValue _ => "MissingAttributeValue"
  | unterminatedQuote _ => "UnterminatedQuote"
  | missingAttribute .. => "MissingRequiredAttribute"
  | resource .. => "ResourceError"

/-- The details of a fault, by their names. -/
def details : Fault → List (Text × Text)
  | unclosed expected => [("expected", expected)]
  | endOfInput => []
  | unknownDirective name => [("name", name)]
  | invalidSetting name value => [("name", name), ("value", value)]
  | unterminatedAttribute => []
  | missingValue name => [("name", name)]
  | unterminatedQuote quote => [("quote", quote)]
  | missingAttribute tag name => [("tag", tag), ("attribute", name)]
  | resource path why => [("path", path), ("message", why.message)]

/-- A fault with one of each kind's details, by the word for its kind. -/
def samples : List Fault :=
  [unclosed [], endOfInput, unknownDirective [], invalidSetting [] [], unterminatedAttribute,
    missingValue [], unterminatedQuote [], missingAttribute [] [], resource [] (.stated [])]

/-- The same kind of fault with other details, in the order of their names. -/
def withDetails? : Fault → List Text → Option Fault
  | unclosed _, [expected] => some (unclosed expected)
  | endOfInput, [] => some endOfInput
  | unknownDirective _, [name] => some (unknownDirective name)
  | invalidSetting .., [name, value] => some (invalidSetting name value)
  | unterminatedAttribute, [] => some unterminatedAttribute
  | missingValue _, [name] => some (missingValue name)
  | unterminatedQuote _, [quote] => some (unterminatedQuote quote)
  | missingAttribute .., [tag, name] => some (missingAttribute tag name)
  | resource .., [path, words] => some (resource path (.stated words))
  | _, _ => none

/-- The details under the word for a kind. -/
def readDetails? (sample : Fault) : Json → Option (List Text)
  | .null => if sample.details = [] then some [] else none
  | .object fields =>
    if sample.details = [] then none
    else sample.details.mapM fun (name, _) => (fields.lookup name).bind Json.toText?
  | _ => none

/-- A fault from its word and its details. -/
def ofJson? (value : Json) : Option Fault := do
  let (word, details) ← value.variant?
  let sample ← samples.find? fun sample => sample.word = word
  sample.withDetails? (← sample.readDetails? details)

end Fault

/-- A position from its fields. -/
def Position.ofJson? (value : Json) : Option Position :=
  match value.fields? ["file_name", "line", "bol", "cnum"] with
  | some [file, line, lineStart, offset] => do
    some ⟨← file.toText?, ← line.toNat?, ← lineStart.toNat?, ← offset.toNat?⟩
  | _ => none

/-- A span from its fields. -/
def Span.ofJson? (value : Json) : Option Span :=
  match value.fields? ["loc_start", "loc_end"] with
  | some [start, stop] => do some ⟨← Position.ofJson? start, ← Position.ofJson? stop⟩
  | _ => none

/-- A failure from its fields. -/
def Failure.ofJson? (value : Json) : Option Failure :=
  match value.fields? ["kind", "location"] with
  | some [kind, place] => do some ⟨← Fault.ofJson? kind, ← place.optional? Span.ofJson?⟩
  | _ => none

end ServerPages
