import ServerPages.Code.Printer
import ServerPages.Fault
import ServerPages.Text.Blank

/-!
# Brace syntax

With brace syntax a block is written between `:{` and `}`, and its layout does not matter. Lines are
laid out one by one as lines that are indented. Strings and the braces of literals are kept, also
over several lines: only a brace after a colon outside of both opens a block.
-/

namespace ServerPages

/-- The quotes that delimit a string. -/
inductive Quote where
  | single
  | double
  | tripleSingle
  | tripleDouble
  deriving DecidableEq, Repr

namespace Quote

/-- The characters of a quote. -/
def text : Quote → Text
  | single => ['\'']
  | double => ['"']
  | tripleSingle => ['\'', '\'', '\'']
  | tripleDouble => ['"', '"', '"']

/-- The string that opens here, the longer quote first, and the text after its quote. -/
def open? : Text → Option (Quote × Text)
  | '\'' :: '\'' :: '\'' :: rest => some (tripleSingle, rest)
  | '"' :: '"' :: '"' :: rest => some (tripleDouble, rest)
  | '\'' :: rest => some (single, rest)
  | '"' :: rest => some (double, rest)
  | _ => none

/-- The text through the closing quote, and the text after it. A backslash takes the next character
with it. -/
def close? (quote : Quote) : Text → Option (Text × Text)
  | [] => none
  | '\\' :: c :: rest =>
    (quote.close? rest).map fun (through, after) => ('\\' :: c :: through, after)
  | c :: rest =>
    match Text.after? quote.text (c :: rest) with
    | some after => some (quote.text, after)
    | none => (quote.close? rest).map fun (through, after) => (c :: through, after)

theorem length_open?_lt {t rest : Text} {quote : Quote} (h : open? t = some (quote, rest)) :
    rest.length < t.length := by
  unfold open? at h
  split at h <;> cases h <;> simp only [List.length_cons] <;> omega

theorem length_close?_lt {quote : Quote} {t through after : Text}
    (h : quote.close? t = some (through, after)) : after.length < t.length := by
  fun_induction close? quote t generalizing through with
  | case1 => cases h
  | case2 c rest ih =>
    obtain ⟨⟨b, a⟩, hb, he⟩ := Option.map_eq_some_iff.mp h
    obtain ⟨-, rfl⟩ := Prod.mk.inj he
    exact Nat.lt_trans (ih hb) (by simp only [List.length_cons]; omega)
  | case3 c rest _ after' ha =>
    cases h
    rw [Text.after?_eq_some_iff.mp ha, List.length_append]
    cases quote <;> simp [text]
  | case4 c rest _ _ ih =>
    obtain ⟨⟨b, a⟩, hb, he⟩ := Option.map_eq_some_iff.mp h
    obtain ⟨-, rfl⟩ := Prod.mk.inj he
    exact Nat.lt_trans (ih hb) (by simp only [List.length_cons]; omega)

end Quote

/-- What is carried from one line to the next. -/
structure BraceSyntax where
  /-- The string in which the line ended. -/
  quote? : Option Quote
  /-- The number of open braces of literals. -/
  level : Nat
  deriving DecidableEq, Repr

namespace BraceSyntax

/-- Outside of strings and literals. -/
def start : BraceSyntax := ⟨none, 0⟩

/-- After a colon: the rest of the line behind the brace of a block. -/
def blockTail? (rest : Text) : Option Text :=
  match rest.trimStart with
  | '\x7b' :: more =>
    if (Text.trimStart more).contains '\n' then none else some (Text.trimStart more)
  | _ => none

/-- Indent a line when its first text is written. -/
def beginLine (p : Printer) (started : Bool) : Printer := if started then p else p.writeIndent

theorem length_trimStart_le (t : Text) : t.trimStart.length ≤ t.length :=
  (List.dropWhile_sublist _).length_le

theorem length_blockTail?_le {rest tail : Text} (h : blockTail? rest = some tail) :
    tail.length ≤ rest.length := by
  unfold blockTail? at h
  split at h
  · rename_i more hm
    split at h
    · cases h
    · cases h
      have h1 := length_trimStart_le more
      have h2 := length_trimStart_le rest
      rw [hm, List.length_cons] at h2
      omega
  · cases h

/-- Lay out the rest of a line. The flag tells whether text of the current output line has been
written. -/
def layOut (b : BraceSyntax) (started : Bool) (p : Printer) (rest : Text) :
    BraceSyntax × Printer :=
  match rest with
  | [] => (b, p)
  | c :: more =>
    match b.quote? with
    | some quote =>
      match _h : quote.close? (c :: more) with
      | some (through, after) => layOut { b with quote? := none } started (p.write through) after
      | none => (b, p.write (c :: more))
    | none =>
      let begun := beginLine p started
      if c = '#' then (b, begun.write (c :: more))
      else if c = '\x7b' then layOut { b with level := b.level + 1 } true (begun.write [c]) more
      else if c = '\x7d' then
        if 0 < b.level then layOut { b with level := b.level - 1 } true (begun.write [c]) more
        else if started ∧ Text.trimStart more ≠ [] then
          layOut b false p.dedent.newline (Text.trimStart more)
        else layOut b started p.dedent (Text.trimStart more)
      else if c = ':' then
        match _h : if b.level = 0 then blockTail? more else none with
        | none => layOut b true (begun.write [c]) more
        | some [] => (b, (begun.write [c]).indent)
        | some ('#' :: comment) => (b, (begun.write [c]).indent.write (' ' :: '#' :: comment))
        | some tail => layOut b false (begun.write [c]).indent.newline tail
      else
        match _h : Quote.open? (c :: more) with
        | some (quote, after) =>
          layOut { b with quote? := some quote } true (begun.write quote.text) after
        | none => layOut b true (begun.write [c]) more
termination_by rest.length
decreasing_by
  · exact Quote.length_close?_lt _h
  · exact Nat.lt_succ_self _
  · exact Nat.lt_succ_self _
  · exact Nat.lt_succ_of_le (length_trimStart_le more)
  · exact Nat.lt_succ_of_le (length_trimStart_le more)
  · exact Nat.lt_succ_self _
  · split at _h
    · exact Nat.lt_succ_of_le (length_blockTail?_le _h)
    · cases _h
  · exact Quote.length_open?_lt _h
  · exact Nat.lt_succ_self _

/-- Lay out a line. A line that goes on inside a string is not indented. -/
def line (b : BraceSyntax) (p : Printer) (l : Text) : BraceSyntax × Printer :=
  let started := b.quote?.isSome && !l.isEmpty
  let (b, p) := b.layOut started p (if started then l else l.trimStart)
  (b, p.newline)

/-- Lay out lines one by one. -/
def lines (b : BraceSyntax) (p : Printer) : List Text → BraceSyntax × Printer
  | [] => (b, p)
  | l :: rest =>
    let (b, p) := b.line p l
    lines b p rest

/-- A script may not end inside a string. -/
def endFault? (b : BraceSyntax) : Option Fault :=
  b.quote?.map fun quote => .unterminatedQuote quote.text

end BraceSyntax

end ServerPages
