import ServerPages.Text.Basic

/-!
# Positions and spans

A position names a byte offset of a file together with the line it lies on. Lines are counted from
one; columns are byte distances from the beginning of the line. A span reaches from one position to
another, and most spans are a single point.
-/

namespace ServerPages

/-- A byte offset of a file and its line. -/
structure Position where
  /-- The name of the file. -/
  file : Text
  /-- The number of the line, from one. -/
  line : Nat
  /-- The offset at which the line begins. -/
  lineStart : Nat
  /-- The offset itself. -/
  offset : Nat
  deriving DecidableEq, Repr

namespace Position

/-- The beginning of a file. -/
def fileStart (file : Text) : Position := ⟨file, 1, 0, 0⟩

/-- The position where no file is being read. -/
def nowhere : Position := ⟨[], 0, 0, 0⟩

/-- The position of an offset; an offset beyond the end counts as the end. -/
def ofOffset (file text : Text) (offset : Nat) : Position :=
  let before := text.takeBytes offset
  let column := Text.byteLength (before.reverse.takeWhile (· ≠ '\n'))
  { file
    line := before.count '\n' + 1
    lineStart := before.byteLength - column
    offset := Nat.min offset text.byteLength }

/-- The byte distance from the beginning of the line. -/
def column (p : Position) : Nat := p.offset - p.lineStart

/-- The column as it is shown, counted from one. -/
def shownColumn (p : Position) : Nat := p.column + 1

end Position

/-- A stretch of template text. -/
structure Span where
  /-- Where it begins. -/
  start : Position
  /-- Where it ends. -/
  stop : Position
  deriving DecidableEq, Repr

namespace Span

/-- The empty span at a position. -/
def point (p : Position) : Span := ⟨p, p⟩

/-- From the beginning of one span to the end of another. -/
def merge (first last : Span) : Span := ⟨first.start, last.stop⟩

/-- A span is shown by its start alone unless it ends later in the same file. -/
def text (s : Span) : Text :=
  let start := s.start.file ++ ":" ++ .ofNat s.start.line ++ ":" ++ .ofNat s.start.shownColumn
  if s.start.file ≠ s.stop.file ∨ s.stop.offset ≤ s.start.offset then start
  else if s.start.line = s.stop.line then start ++ "-" ++ .ofNat s.stop.column
  else start ++ "-" ++ .ofNat s.stop.line ++ ":" ++ .ofNat s.stop.column

end Span

end ServerPages
