import ServerPages.Text.Basic

/-!
# JSON values

Options and failures have a JSON form. Numbers are kept as decimals, so that `2` and `2.0` differ. A
record may be written as an object, or as an array of its fields in order.
-/

namespace ServerPages

/-- A JSON value. -/
inductive Json where
  | null
  | bool (b : Bool)
  /-- The digits with their sign, and how many of them follow the decimal point. -/
  | number (digits : Int) (places : Nat)
  | string (t : Text)
  | array (items : List Json)
  | object (fields : List (Text × Json))

namespace Json

/-- A number that fits into 64 bits. -/
def toNat? : Json → Option Nat
  | number (.ofNat n) 0 => if n < UInt64.size then some n else none
  | _ => none

/-- A truth value. -/
def toBool? : Json → Option Bool
  | bool b => some b
  | _ => none

/-- A text. -/
def toText? : Json → Option Text
  | string t => some t
  | _ => none

/-- The fields of a record, given by their names. A field that an object lacks is `null`. -/
def fields? (names : List Text) : Json → Option (List Json)
  | object fields => some (names.map fun name => (fields.lookup name).getD null)
  | array items => if items.length = names.length then some items else none
  | _ => none

/-- A value that may be `null`. -/
def optional? {α : Type} (read : Json → Option α) : Json → Option (Option α)
  | null => some none
  | value => (read value).map some

/-- An alternative: its name, alone or as the only field of an object, and what comes with it. -/
def variant? : Json → Option (Text × Json)
  | string name => some (name, null)
  | object [(name, value)] => some (name, value)
  | _ => none

/-- A digit of a number in base sixteen. -/
def hexDigit (n : Nat) : Char := if n < 10 then Char.ofNat (48 + n) else Char.ofNat (87 + n)

/-- A character inside a JSON string. -/
def quoteChar (c : Char) : Text :=
  match c with
  | '"' => ['\\', '"']
  | '\\' => ['\\', '\\']
  | '\n' => ['\\', 'n']
  | '\r' => ['\\', 'r']
  | '\t' => ['\\', 't']
  | '\x08' => ['\\', 'b']
  | '\x0c' => ['\\', 'f']
  | c =>
    if c.toNat < 0x20 then
      ['\\', 'u', '0', '0', hexDigit (c.toNat / 16), hexDigit (c.toNat % 16)]
    else [c]

/-- A JSON string. -/
def quote (t : Text) : Text := '"' :: t.flatMap quoteChar ++ ['"']

end Json

end ServerPages
