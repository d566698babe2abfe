/-!
# Text

A text is the list of its characters. Offsets into a text count the bytes of its UTF-8 form, so
they are a measure on characters and not an index.
-/

namespace ServerPages

/-- A text, as the list of its characters. -/
abbrev Text := List Char

/-- A string literal may stand wherever a text is expected. -/
instance : Coe String Text := ⟨String.toList⟩

namespace Text

/-- The number of bytes of the UTF-8 form. -/
def byteLength (t : Text) : Nat := t.foldl (fun n c => n + c.utf8Size) 0

/-- The longest beginning of a text that fits into a number of bytes. -/
def takeBytes : Nat → Text → Text
  | _, [] => []
  | n, c :: rest => if c.utf8Size ≤ n then c :: takeBytes (n - c.utf8Size) rest else []

/-- The beginning of a text with exactly the given number of bytes, if a character ends there. -/
def takeBytes? (n : Nat) (t : Text) : Option Text :=
  let head := takeBytes n t
  if head.byteLength = n then some head else none

/-- What follows a literal with which the text begins. -/
def after? : Text → Text → Option Text
  | [], t => some t
  | _ :: _, [] => none
  | a :: literal, c :: rest => if a = c then after? literal rest else none

/-- The text before the first occurrence of a literal and the text after it. -/
def splitFirst? (literal : Text) : Text → Option (Text × Text)
  | [] => (after? literal []).map fun after => ([], after)
  | c :: rest =>
    match after? literal (c :: rest) with
    | some after => some ([], after)
    | none => (splitFirst? literal rest).map fun (before, after) => (c :: before, after)

/-- Put a character in front of the first of some pieces, starting a piece if there is none. -/
def consFirst (c : Char) : List Text → List Text
  | [] => [[c]]
  | piece :: pieces => (c :: piece) :: pieces

/-- The pieces of a text between the occurrences of a separator. -/
def splitOn (separator : Char) : Text → List Text
  | [] => [[]]
  | c :: rest =>
    if c = separator then [] :: splitOn separator rest else consFirst c (splitOn separator rest)

/-- The pieces written one after the other with a separator between neighbours. -/
def join (separator : Text) : List Text → Text
  | [] => []
  | [piece] => piece
  | piece :: next :: pieces => piece ++ separator ++ join separator (next :: pieces)

/-- ASCII capitals become small letters; every other character stays. -/
def toLower (t : Text) : Text := t.map Char.toLower

/-- Decimal digits of a number. -/
def ofNat (n : Nat) : Text := Nat.toDigits 10 n

/-- The number written by decimal digits alone, at least one. -/
def digitsToNat? (t : Text) : Option Nat :=
  if t ≠ [] && t.all Char.isDigit then
    some (t.foldl (fun n c => 10 * n + (c.toNat - '0'.toNat)) 0)
  else none

/-- The number written by decimal digits, which a plus sign may precede. -/
def toNat? : Text → Option Nat
  | '+' :: digits => digitsToNat? digits
  | digits => digitsToNat? digits

@[simp] theorem byteLength_nil : byteLength [] = 0 := rfl

private theorem foldl_utf8Size (n : Nat) (t : Text) :
    t.foldl (fun n c => n + c.utf8Size) n = n + byteLength t := by
  induction t generalizing n with
  | nil => rfl
  | cons c t ih => rw [byteLength, List.foldl_cons, List.foldl_cons, ih, ih (0 + c.utf8Size)]; omega

@[simp] theorem byteLength_cons (c : Char) (t : Text) :
    byteLength (c :: t) = c.utf8Size + byteLength t := by
  rw [byteLength, List.foldl_cons, foldl_utf8Size, Nat.zero_add]

@[simp] theorem byteLength_append (t u : Text) :
    byteLength (t ++ u) = byteLength t + byteLength u := by
  rw [byteLength, List.foldl_append, foldl_utf8Size]
  rfl

/-- A literal is found at the beginning exactly when the text is the literal and the rest. -/
theorem after?_eq_some_iff {literal t rest : Text} :
    after? literal t = some rest ↔ t = literal ++ rest := by
  fun_induction after? literal t with
  | case1 t => simp
  | case2 a literal => simp
  | case3 literal c t ih => simp [ih]
  | case4 a literal c t hne => simpa using fun h => absurd h.symm hne

/-- What precedes the first occurrence, the literal and what follows make up the text. -/
theorem eq_append_of_splitFirst? {literal t before after : Text}
    (h : splitFirst? literal t = some (before, after)) : t = before ++ literal ++ after := by
  fun_induction splitFirst? literal t generalizing before with
  | case1 =>
    obtain ⟨rest, hr, he⟩ := Option.map_eq_some_iff.mp h
    cases he
    simpa using after?_eq_some_iff.mp hr
  | case2 c rest found hf =>
    cases h
    simpa using after?_eq_some_iff.mp hf
  | case3 c rest hn ih =>
    obtain ⟨⟨b, a⟩, hb, he⟩ := Option.map_eq_some_iff.mp h
    cases he
    simp [ih hb]

end Text

end ServerPages
