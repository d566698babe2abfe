import ServerPages.Json
import ServerPages.Options.Basic

/-!
# The JSON form of options

Options are shown as an object with one field on each line, and read back from such an object. The
class name and the base directory may be missing.
-/

namespace ServerPages.Options

/-- The names of the fields, in the order in which they are shown. -/
def fieldNames : List Text :=
  ["class_name", "base_dir", "delimiters_cross_includes", "default_indent_style",
    "default_indent_spaces", "gobble_whitespace"]

/-- A text that may be missing. -/
def optionalText (t? : Option Text) : Json := (t?.map Json.string).getD .null

/-- The fields of options. -/
def fieldValues (o : Options) : List Json :=
  [optionalText o.className?, optionalText o.baseDir?, .bool o.crossing, .string o.style.name,
    .number o.spaces 0, .bool o.gobble]

/-- Options as an object. -/
def toJson (o : Options) : Json := .object (fieldNames.zip o.fieldValues)

/-- A block style, by its name. -/
def readStyle? (value : Json) : Option BlockStyle :=
  match value.variant? with
  | some (name, .null) => BlockStyle.ofExactName? name
  | _ => none

/-- Options from an object, or from an array of all fields. -/
def ofJson? (value : Json) : Option Options :=
  match value.fields? fieldNames with
  | some [className, baseDir, crossing, style, spaces, gobble] => do
    let className? ← className.optional? Json.toText?
    let baseDir? ← baseDir.optional? Json.toText?
    let crossing ← crossing.toBool?
    let style ← readStyle? style
    let spaces ← spaces.toNat?
    let gobble ← gobble.toBool?
    some { className?, baseDir?, crossing, style, spaces, gobble }
  | _ => none

/-- A single value on its line. -/
def scalarText : Json → Text
  | .bool true => "true"
  | .bool false => "false"
  | .number (.ofNat n) _ => .ofNat n
  | .string t => Json.quote t
  | _ => "null"

/-- Options as text, with one field on each line. -/
def pretty (o : Options) : Text :=
  let lines := (fieldNames.zip o.fieldValues).map fun (name, value) =>
    "  " ++ Json.quote name ++ ": " ++ scalarText value
  "\x7b\n" ++ Text.join ",\n" lines ++ "\n\x7d"

end ServerPages.Options
