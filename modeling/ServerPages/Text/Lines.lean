import ServerPages.Text.Basic

/-!
# Lines

A line ends at a line feed, at a carriage return, or at the pair of both. Texts are cut into
lines, or have their line breaks unified to line feeds.
-/

namespace ServerPages

/-- The three ways to end a line. -/
inductive LineBreak where
  | lf
  | crlf
  | cr
  deriving DecidableEq, Repr

/-- The characters of a line break. -/
def LineBreak.text : LineBreak → Text
  | lf => ['\n']
  | crlf => ['\r', '\n']
  | cr => ['\r']

namespace Text

/-- Every line break becomes one line feed. -/
def unifyBreaks : Text → Text
  | [] => []
  | '\r' :: '\n' :: rest => '\n' :: unifyBreaks rest
  | '\r' :: rest => '\n' :: unifyBreaks rest
  | c :: rest => c :: unifyBreaks rest

/-- The lines of a text; a line break at the very end starts no further line. -/
def lines : Text → List Text
  | [] => []
  | '\r' :: '\n' :: rest => [] :: lines rest
  | '\r' :: rest => [] :: lines rest
  | '\n' :: rest => [] :: lines rest
  | c :: rest => consFirst c (lines rest)

/-- The segments between line breaks; a line break at the very end is followed by an empty one. -/
def segments : Text → List Text
  | [] => [[]]
  | '\r' :: '\n' :: rest => [] :: segments rest
  | '\r' :: rest => [] :: segments rest
  | '\n' :: rest => [] :: segments rest
  | c :: rest => consFirst c (segments rest)

/-- The first line, the break that ends it and the text that follows, if there is a break. -/
def firstBreak? : Text → Option (Text × LineBreak × Text)
  | [] => none
  | '\r' :: '\n' :: rest => some ([], .crlf, rest)
  | '\r' :: rest => some ([], .cr, rest)
  | '\n' :: rest => some ([], .lf, rest)
  | c :: rest => (firstBreak? rest).map fun (line, found) => (c :: line, found)

end Text

end ServerPages
