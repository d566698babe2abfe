import ServerPages.Text.Basic

/-!
# Blank characters

Blank characters are those with the Unicode property `White_Space`. Trimming, blank lines and
leading indentation are all measured with this one class.
-/

namespace ServerPages

/-- The ranges of code points with the property `White_Space`, in increasing order. -/
def blankRanges : List (Nat × Nat) :=
  [(0x0009, 0x000d), (0x0020, 0x0020), (0x0085, 0x0085), (0x00a0, 0x00a0), (0x1680, 0x1680),
    (0x2000, 0x200a), (0x2028, 0x2029), (0x202f, 0x202f), (0x205f, 0x205f), (0x3000, 0x3000)]

/-- Membership in the property `White_Space`. -/
def isBlank (c : Char) : Bool :=
  blankRanges.any fun (first, last) => first ≤ c.toNat && c.toNat ≤ last

/-- The characters that may stand between the parts of a tag. -/
def isTagSpace (c : Char) : Bool := c = ' ' || c = '\n' || c = '\t' || c = '\r'

namespace Text

/-- Without the blank characters at the beginning. -/
def trimStart (t : Text) : Text := t.dropWhile isBlank

/-- Without the blank characters at the end. -/
def trimEnd (t : Text) : Text := (t.reverse.dropWhile isBlank).reverse

/-- Without the blank characters at both ends. -/
def trim (t : Text) : Text := t.trimStart.trimEnd

/-- The blank characters at the beginning. -/
def leadingBlanks (t : Text) : Text := t.takeWhile isBlank

/-- No character other than blank ones. -/
def isBlank (t : Text) : Bool := t.all ServerPages.isBlank

/-- Without the tag spaces at the beginning. -/
def skipSpaces (t : Text) : Text := t.dropWhile isTagSpace

end Text

end ServerPages
