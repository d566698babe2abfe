import ServerPages.Fault
import ServerPages.Path

/-!
# The stack of files being read

A template is read through a stack of files: the root template at the bottom, above it the file that
it includes, and so on. Of each file only the unread text is kept in its place; what has been read
is the rest of the content. A stack is a plain value, so keeping one marks a place in the input, and
going back to it restores that place exactly. When the file on top is used up, reading goes on in
the file below it; the root template is never taken off.
-/

namespace ServerPages

/-- A file that has been opened. -/
structure Source where
  /-- Its number in order of opening, from zero. -/
  id : Nat
  /-- The name that messages show. -/
  name : Text
  /-- Its text, with unified line breaks. -/
  content : Text
  /-- The canonical name of a file that was read from disk. -/
  canonical? : Option Text
  deriving DecidableEq, Repr

/-- A file together with the text that is still to be read. -/
structure Reading where
  /-- The file. -/
  source : Source
  /-- What is left of its content. -/
  unread : Text
  /-- The directory for its relative paths. -/
  baseDir : Text
  /-- The encoding of the file. -/
  encoding : Encoding
  deriving DecidableEq, Repr

namespace Reading

/-- The byte offset that has been reached. -/
def cursor (r : Reading) : Nat := r.source.content.byteLength - r.unread.byteLength

/-- The place that has been reached. -/
def span (r : Reading) : Span :=
  .point (.ofOffset r.source.name r.source.content r.cursor)

/-- The text up to a byte offset, if a character ends there and it has not been passed. -/
def textUpTo (r : Reading) (offset : Nat) : Text :=
  if r.cursor ≤ offset then (Text.takeBytes? (offset - r.cursor) r.unread).getD [] else []

end Reading

/-- The files being read, the innermost first. -/
abbrev Stack := List Reading

namespace Stack

/-- The unread text of the innermost file. -/
def unread : Stack → Text
  | [] => []
  | r :: _ => r.unread

/-- The same files with other unread text in the innermost one. -/
def setUnread (t : Text) : Stack → Stack
  | [] => []
  | r :: below => { r with unread := t } :: below

/-- The number of the innermost file. -/
def sourceId? (s : Stack) : Option Nat := s.head?.map (·.source.id)

/-- The byte offset that has been reached in the innermost file. -/
def cursor : Stack → Nat
  | [] => 0
  | r :: _ => r.cursor

/-- The directory for relative paths. -/
def baseDir? (s : Stack) : Option Text := s.head?.map (·.baseDir)

/-- The encoding of the innermost file. -/
def encoding : Stack → Encoding
  | [] => .utf8
  | r :: _ => r.encoding

/-- The place that has been reached. -/
def span : Stack → Span
  | [] => .point .nowhere
  | r :: _ => r.span

/-- A fault at the place that has been reached, which is unknown without a file. -/
def failure (s : Stack) (fault : Fault) : Failure :=
  ⟨fault, if s = [] then none else some s.span⟩

/-- A path as seen from the innermost file. -/
def resolve (s : Stack) (path : Text) : Text :=
  match s with
  | [] => path
  | r :: _ => Path.join r.baseDir path

/-- The stack without its innermost file, unless that is the root template. -/
def pop? : Stack → Option Stack
  | _ :: r :: below => some (r :: below)
  | _ => none

/-- The stack without the files on top that are used up. The root template stays. -/
def settle : Stack → Stack
  | [] => []
  | [r] => [r]
  | r :: next :: below => if r.unread = [] then settle (next :: below) else r :: next :: below

/-- Whether anything is left to read in any file. -/
def hasMore (s : Stack) : Bool := s.settle.unread ≠ []

/-- The stack after a literal with which the innermost file goes on. -/
def accept? (literal : Text) (s : Stack) : Option Stack :=
  match s with
  | [] => none
  | r :: below => (Text.after? literal r.unread).map fun t => { r with unread := t } :: below

/-- Whether the innermost file goes on with a literal. -/
def startsWith (s : Stack) (literal : Text) : Bool := literal.isPrefixOf s.unread

/-- Read a number of characters, through the ends of files. With too few characters left, only the
root template stays, at its end. -/
def advance (count : Nat) : Stack → Except Failure Unit × Stack
  | [] => (if count = 0 then .ok () else .error (failure [] .endOfInput), [])
  | [r] =>
    if count ≤ r.unread.length then (.ok (), [{ r with unread := r.unread.drop count }])
    else
      let atEnd := [{ r with unread := [] }]
      (.error (failure atEnd .endOfInput), atEnd)
  | r :: next :: below =>
    if count ≤ r.unread.length then
      (.ok (), { r with unread := r.unread.drop count } :: next :: below)
    else advance (count - r.unread.length) (next :: below)

/-- The next character of the innermost file. -/
def peek? (s : Stack) : Option Char := s.unread.head?

/-- Read one character, through the ends of files. -/
def next? (s : Stack) : Option Char × Stack :=
  match s.settle with
  | [] => (none, [])
  | r :: below =>
    match r.unread with
    | [] => (none, r :: below)
    | c :: rest => (some c, { r with unread := rest } :: below)

/-- The stack after the tag spaces with which the innermost file goes on. -/
def skipSpaces (s : Stack) : Stack := s.setUnread s.unread.skipSpaces

/-- The number of tag spaces with which the innermost file goes on. -/
def countSpaces (s : Stack) : Nat := (s.unread.takeWhile isTagSpace).length

/-- Find a literal. The result is the stack just before it; reading goes on just after it. When the
innermost file does not hold the literal, the search goes on in the file below only if elements may
cross the ends of files. -/
def findLiteral (crossing : Bool) (literal : Text) : Stack → Option Stack × Stack
  | [] => (if literal = [] then some [] else none, [])
  | [r] =>
    match Text.splitFirst? literal r.unread with
    | some (_, after) =>
      (some [{ r with unread := literal ++ after }], [{ r with unread := after }])
    | none => (none, [{ r with unread := [] }])
  | r :: next :: below =>
    match Text.splitFirst? literal r.unread with
    | some (_, after) =>
      (some ({ r with unread := literal ++ after } :: next :: below),
        { r with unread := after } :: next :: below)
    | none =>
      if crossing then findLiteral crossing literal (next :: below)
      else (none, { r with unread := [] } :: next :: below)

/-- Read up to a literal and past it. A literal that is not found is missed at the place where the
search began. -/
def skipUntil (crossing : Bool) (literal : Text) (s : Stack) : Except Failure Stack × Stack :=
  match findLiteral crossing literal s with
  | (some before, after) => (.ok before, after)
  | (none, after) => (.error ⟨.unclosed literal, some s.span⟩, after)

/-- Plain text: at least one character, then all up to the next `<` of the innermost file. -/
def plainText (s : Stack) : Text :=
  match s.unread with
  | [] => []
  | c :: rest => c :: rest.takeWhile (· ≠ '<')

/-- The stack after the plain text. -/
def skipPlainText (s : Stack) : Stack :=
  match s.unread with
  | [] => s
  | _ :: rest => s.setUnread (rest.dropWhile (· ≠ '<'))

/-- The text between two places: what was left of the files that have been taken off since, and
then the text of the file that both places share, up to the second one. -/
def textTo (start stop : Stack) : Text :=
  let shared := Nat.min start.length stop.length
  let popped := start.take (start.length - shared)
  match start.drop (start.length - shared), stop.drop (stop.length - shared) with
  | r :: _, last :: _ => popped.flatMap Reading.unread ++ r.textUpTo last.cursor
  | _, _ => []

end Stack

end ServerPages
