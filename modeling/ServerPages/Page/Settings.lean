import ServerPages.Fault
import ServerPages.Options.Basic
import ServerPages.Text.Blank

/-!
# Page settings

A page directive sets properties of the whole page through its attributes. Where a page says
nothing, the options or fixed defaults hold.
-/

namespace ServerPages

/-- An import at the head of the module. -/
inductive Import where
  /-- A module as a whole. -/
  | module (name : Text)
  /-- One symbol of a module. -/
  | symbol (origin name : Text)
  deriving DecidableEq, Repr

namespace Import

/-- The statement of an import. -/
def line : Import → Text
  | module name => "import " ++ name
  | symbol origin name => "from " ++ origin ++ " import " ++ name

/-- The symbol that an import brings in by name. -/
def symbol? : Import → Option Text
  | module _ => none
  | symbol _ name => some name

/-- An item of an import list: a module, or a module and a symbol with a colon between them. What
follows a second colon is ignored. -/
def ofItem (item : Text) : Import :=
  match item.splitOn ':' with
  | origin :: name :: _ => symbol origin.trim name.trim
  | _ => module item

end Import

/-- The properties of a page. -/
structure Settings where
  /-- The imports, in order. -/
  imports : List Import := []
  /-- The base classes of the generated class, in order. -/
  baseClasses : List Text := ["WebKit.Page"]
  /-- The method that answers a request. -/
  method : Text := "writeHTML"
  /-- Whether one instance may serve several threads. -/
  threadSafe : Bool := false
  /-- Whether an instance may be used again. -/
  instanceSafe : Bool := true
  /-- The block style of scripts and module. -/
  style : BlockStyle
  /-- The indentation width. -/
  spaces : Nat
  /-- Whether blank text between scripts is dropped. -/
  gobble : Bool
  /-- The function that turns the value of an expression into text. -/
  formatter : Text := "str"
  deriving DecidableEq, Repr

/-- The attributes of a page directive. -/
inductive Setting where
  | imports
  | baseClasses
  | method
  | threadSafe
  | instanceSafe
  | style
  | spaces
  | gobble
  | formatter
  deriving DecidableEq, Repr

/-- The names of the attributes; two of them have two names. -/
def Setting.names : List (Text × Setting) :=
  [("imports", imports), ("import", imports), ("extends", baseClasses), ("BaseClass", baseClasses),
    ("method", method), ("isThreadSafe", threadSafe), ("isInstanceSafe", instanceSafe),
    ("indentType", style), ("indentSpaces", spaces), ("gobbleWhitespace", gobble),
    ("formatter", formatter)]

namespace Settings

/-- The settings of a page without directives. -/
def ofOptions (o : Options) : Settings :=
  { style := o.style, spaces := o.spaces, gobble := o.gobble }

/-- The symbols that are imported by name. -/
def importedSymbols (s : Settings) : List Text := s.imports.filterMap Import.symbol?

/-- The items of a list with commas, without blanks around them and without empty items. -/
def items (value : Text) : List Text :=
  ((value.splitOn ',').map Text.trim).filter fun item => !item.isEmpty

/-- Whether a value is the word `no` in any mixture of capitals and small letters. -/
def saysNo (value : Text) : Bool := value.trim.toLower = "no"

/-- An indentation width: a positive number of at most 64 bits. -/
def width? (value : Text) : Option Nat :=
  value.trim.toNat?.filter fun n => 0 < n && n < UInt64.size

/-- Set one property. A value that does not fit changes nothing. -/
def set (s : Settings) (setting : Setting) (value : Text) : Option Settings :=
  match setting with
  | .imports => some { s with imports := s.imports ++ (items value).map Import.ofItem }
  | .baseClasses => some { s with baseClasses := items value }
  | .method => some { s with method := value.trim }
  | .threadSafe => some { s with threadSafe := !saysNo value }
  | .instanceSafe => some { s with instanceSafe := !saysNo value }
  | .style => (BlockStyle.ofName? value.trim).map fun style => { s with style }
  | .spaces => (width? value).map fun spaces => { s with spaces }
  | .gobble => some { s with gobble := !(saysNo value || value.trim = "0") }
  | .formatter => some { s with formatter := value.trim }

/-- Apply one attribute of a page directive. -/
def apply (s : Settings) (name value : Text) : Except Fault Settings :=
  match Setting.names.lookup name with
  | none => .error (.unknownDirective name)
  | some setting =>
    match s.set setting value with
    | some s => .ok s
    | none => .error (.invalidSetting name value)

/-- Apply the attributes of a page directive in order, up to the first that does not fit. -/
def applyAll (s : Settings) : List (Text × Text) → Settings × Option Fault
  | [] => (s, none)
  | (name, value) :: rest =>
    match s.apply name value with
    | .ok s => s.applyAll rest
    | .error fault => (s, some fault)

end Settings

end ServerPages
