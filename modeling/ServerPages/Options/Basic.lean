import ServerPages.Text.Basic

/-!
# Options

Options hold for every page that is compiled with them. A page may override the block style, the
indentation width and the treatment of blank text for itself.
-/

namespace ServerPages

/-- How blocks are written in scripts and laid out in the module. -/
inductive BlockStyle where
  | tabs
  | spaces
  | braces
  deriving DecidableEq, Repr

namespace BlockStyle

/-- The name of a style. -/
def name : BlockStyle → Text
  | tabs => "tabs"
  | spaces => "spaces"
  | braces => "braces"

/-- The style of a name in small letters. -/
def ofExactName? (name : Text) : Option BlockStyle :=
  [tabs, spaces, braces].find? fun style => style.name = name

/-- The style of a name in any mixture of capitals and small letters. -/
def ofName? (name : Text) : Option BlockStyle := ofExactName? name.toLower

/-- The complaint about a name that no style has. -/
def unknownMessage (name : Text) : Text := "unknown indent style: " ++ name.toLower

end BlockStyle

/-- What the caller decides about compiling. -/
structure Options where
  /-- The class to generate; otherwise it is named after the template. -/
  className? : Option Text := none
  /-- Where the relative paths of the root template start; otherwise beside the template. -/
  baseDir? : Option Text := none
  /-- Whether an element may begin in an included file and end in the including one. -/
  crossing : Bool := false
  /-- The block style of pages that choose none. -/
  style : BlockStyle := .tabs
  /-- The indentation width of pages that choose none. -/
  spaces : Nat := 4
  /-- Whether blank text between scripts is dropped in pages that do not say. -/
  gobble : Bool := true
  deriving DecidableEq, Repr

end ServerPages
