import ServerPages.Text.Blank

/-!
# Encodings

Files are sequences of octets. A template names the encoding of a file by a label; octets that are
no UTF-8 are replaced by U+FFFD, one for each longest beginning of a character that breaks off.
-/

namespace ServerPages

/-- The octets of a file. -/
abbrev Octets := List UInt8

/-- The encodings in which a file can be read. -/
inductive Encoding where
  | utf8
  | latin1
  deriving DecidableEq, Repr

namespace Encoding

/-- The labels of the encodings, in small letters and with hyphens. -/
def labels : List (Text × Encoding) :=
  [("utf-8", utf8), ("utf8", utf8), ("ascii", utf8), ("us-ascii", utf8), ("latin-1", latin1),
    ("latin1", latin1), ("iso-8859-1", latin1), ("iso8859-1", latin1), ("l1", latin1)]

/-- Blanks around a label, capitals, and underscores for hyphens make no difference. -/
def ofLabel? (label : Text) : Option Encoding :=
  labels.lookup (label.trim.toLower.map fun c => if c = '_' then '-' else c)

/-- The part of a character that has been read: its code so far, the number of octets still owed,
and the bounds of the next one. -/
structure Partial where
  /-- The bits read so far. -/
  code : Nat
  /-- Octets that must follow. -/
  owed : Nat
  /-- The least octet that may follow. -/
  least : Nat
  /-- The greatest octet that may follow. -/
  greatest : Nat
  deriving DecidableEq, Repr

/-- Stands for octets that are no character. -/
def replacement : Char := '�'

/-- Read an octet where a character begins. The bounds exclude overlong forms, surrogates and
codes beyond U+10FFFF. -/
def beginCharacter (octet : Nat) : Text × Option Partial :=
  if octet < 0x80 then ([Char.ofNat octet], none)
  else if 0xc2 ≤ octet ∧ octet ≤ 0xdf then ([], some ⟨octet - 0xc0, 1, 0x80, 0xbf⟩)
  else if octet = 0xe0 then ([], some ⟨0, 2, 0xa0, 0xbf⟩)
  else if octet = 0xed then ([], some ⟨0xd, 2, 0x80, 0x9f⟩)
  else if 0xe1 ≤ octet ∧ octet ≤ 0xef then ([], some ⟨octet - 0xe0, 2, 0x80, 0xbf⟩)
  else if octet = 0xf0 then ([], some ⟨0, 3, 0x90, 0xbf⟩)
  else if 0xf1 ≤ octet ∧ octet ≤ 0xf3 then ([], some ⟨octet - 0xf0, 3, 0x80, 0xbf⟩)
  else if octet = 0xf4 then ([], some ⟨4, 3, 0x80, 0x8f⟩)
  else ([replacement], none)

/-- Read one octet: the characters it completes, and the part of one that it leaves. -/
def readOctet (before : Option Partial) (octet : Nat) : Text × Option Partial :=
  match before with
  | none => beginCharacter octet
  | some part =>
    if part.least ≤ octet ∧ octet ≤ part.greatest then
      let code := 64 * part.code + (octet - 0x80)
      if part.owed = 1 then ([Char.ofNat code], none)
      else ([], some ⟨code, part.owed - 1, 0x80, 0xbf⟩)
    else
      let (found, after) := beginCharacter octet
      (replacement :: found, after)

/-- Read octets as UTF-8 after a part of a character; a part at the end is replaced too. -/
def readUtf8 (before : Option Partial) : Octets → Text
  | [] => if before.isSome then [replacement] else []
  | octet :: rest =>
    let (found, after) := readOctet before octet.toNat
    found ++ readUtf8 after rest

/-- The text of a sequence of octets. -/
def decode : Encoding → Octets → Text
  | utf8, octets => readUtf8 none octets
  | latin1, octets => octets.map fun octet => Char.ofNat octet.toNat

/-- The UTF-8 octets of a text. -/
def encode (t : Text) : Octets := (String.ofList t).toUTF8.toList

end Encoding

end ServerPages
