import Mathlib.Logic.Function.Basic
import ServerPages.Text.Quoted

/-!
# String literals

The texts that a module writes stand in string literals. A literal is read from its opening marker
to the first marker that no backslash takes away; a backslash and the character behind it stand for
one character, and a line does not break inside a short literal. Every text is read back from the
literal that is written for it, whatever follows, so no text can end its literal by itself.
-/

namespace ServerPages

/-- The kinds of string literals in a module. -/
inductive LiteralKind where
  /-- Between tripled quotes. -/
  | long
  /-- Between single quotes, on one line. -/
  | short
  deriving DecidableEq, Repr

namespace LiteralKind

/-- What stands at both ends of a literal. -/
def marker : LiteralKind → Text
  | long => "\"\"\""
  | short => "\""

/-- The character for which a backslash and another character stand. -/
def escaped? : LiteralKind → Char → Option Char
  | _, '\\' => some '\\'
  | _, '"' => some '"'
  | short, 'n' => some '\n'
  | short, 'r' => some '\r'
  | short, 't' => some '\t'
  | _, _ => none

/-- A character that a literal cannot hold as it is. -/
def refuses : LiteralKind → Char → Bool
  | long, _ => false
  | short, c => c = '\n' || c = '\r'

/-- Put a character in front of the text of a literal. -/
def consText (c : Char) (found : Text × Text) : Text × Text := (c :: found.1, found.2)

/-- The text of a literal behind its opening marker, and what follows its closing marker. There is
none if the literal is not closed, or holds an unknown escape or a character that it refuses. -/
def read (kind : LiteralKind) : Text → Option (Text × Text)
  | [] => none
  | ['\\'] => none
  | '\\' :: c :: rest => (kind.escaped? c).bind fun d => (kind.read rest).map (consText d)
  | c :: rest =>
    match Text.after? kind.marker (c :: rest) with
    | some after => some ([], after)
    | none => if kind.refuses c then none else (kind.read rest).map (consText c)

/-- The two ways to write a character inside a literal. -/
inductive Writes (kind : LiteralKind) (c : Char) : Text → Prop
  /-- A character that means nothing else stands for itself. -/
  | plain : c ≠ '\\' → c ≠ '"' → kind.refuses c = false → Writes kind c [c]
  /-- A character that a backslash can name. -/
  | escape {d : Char} : kind.escaped? d = some c → Writes kind c ['\\', d]

variable {kind : LiteralKind}

/-- In a long literal a backslash takes the next character as it is. -/
theorem eq_of_escaped?_long {c d : Char} (h : long.escaped? c = some d) : d = c := by
  unfold escaped? at h
  split at h <;> grind

/-- Every literal is closed by quotes. -/
theorem after?_marker_eq_none {c : Char} (hc : c ≠ '"') (rest : Text) :
    Text.after? kind.marker (c :: rest) = none := by
  cases kind <;> exact if_neg hc.symm

/-- An ordinary character of a literal stands for itself. -/
theorem read_cons {c : Char} (hslash : c ≠ '\\') (hquote : c ≠ '"')
    (hc : kind.refuses c = false) (rest : Text) :
    kind.read (c :: rest) = (kind.read rest).map (consText c) := by
  rw [read]
  · rw [after?_marker_eq_none hquote]
    simp [hc]
  · exact fun he _ => absurd he hslash
  · exact fun _ _ he _ => absurd he hslash

theorem read_marker (rest : Text) : kind.read (kind.marker ++ rest) = some ([], rest) := by
  cases kind <;> rfl

/-- A character is read as it is written. -/
theorem Writes.read_append {c : Char} {w : Text} (h : kind.Writes c w) (rest : Text) :
    kind.read (w ++ rest) = (kind.read rest).map (consText c) := by
  cases h with
  | plain hslash hquote hc => exact read_cons hslash hquote hc rest
  | escape hd =>
    change kind.read ('\\' :: _ :: rest) = _
    rw [read, hd]
    rfl

/-- A text is read as it is written, up to the first marker behind it. -/
theorem read_flatMap {write : Char → Text} (h : ∀ c, kind.Writes c (write c)) (t rest : Text) :
    kind.read (t.flatMap write ++ (kind.marker ++ rest)) = some (t, rest) := by
  induction t with
  | nil => exact read_marker rest
  | cons c t ih =>
    rw [List.flatMap_cons, List.append_assoc, (h c).read_append, ih]
    rfl

/-- What is read back has been written from one text only. -/
theorem injective_flatMap {write : Char → Text} (h : ∀ c, kind.Writes c (write c)) :
    Function.Injective fun t : Text => t.flatMap write := by
  intro t u he
  have ht := read_flatMap h t []
  rw [show t.flatMap write = u.flatMap write from he, read_flatMap h u []] at ht
  exact (Prod.mk.inj (Option.some.inj ht)).1.symm

/-- Long literals write every character. -/
theorem writes_quoteLongChar (c : Char) : long.Writes c (Text.quoteLongChar c) := by
  fun_cases Text.quoteLongChar c with
  | case1 => exact .escape rfl
  | case2 => exact .escape rfl
  | case3 c hslash hquote => exact .plain hslash hquote rfl

/-- Short literals write every character. -/
theorem writes_quoteShortChar (c : Char) : short.Writes c (Text.quoteShortChar c) := by
  fun_cases Text.quoteShortChar c with
  | case1 => exact .escape rfl
  | case2 => exact .escape rfl
  | case3 => exact .escape rfl
  | case4 => exact .escape rfl
  | case5 => exact .escape rfl
  | case6 c hslash hquote hlf hcr htab =>
    refine .plain hslash hquote ?_
    rw [refuses, decide_eq_false hlf, decide_eq_false hcr]
    rfl

end LiteralKind

namespace Text

/-- A text with another text in place of each occurrence of a character. -/
def replaceChar (t : Text) (old : Char) (new : Text) : Text :=
  t.flatMap fun c => if c = old then new else [c]

/-- The inside of a long literal is written in two passes: the backslashes of the second one are not
doubled, since those of the text have been doubled before. -/
theorem quoteLong_eq_replaceChar (t : Text) :
    t.quoteLong = (t.replaceChar '\\' "\\\\").replaceChar '"' "\\\"" := by
  rw [quoteLong, replaceChar, replaceChar, List.flatMap_assoc]
  congr 1
  funext c
  fun_cases quoteLongChar c with
  | case1 => rfl
  | case2 => rfl
  | case3 c hslash hquote =>
    rw [if_neg hslash, List.flatMap_singleton, if_neg hquote]

/-- No line breaks inside a short literal. -/
theorem break_not_mem_quoteShort (t : Text) : '\n' ∉ t.quoteShort ∧ '\r' ∉ t.quoteShort := by
  have hchar : ∀ c, '\n' ∉ quoteShortChar c ∧ '\r' ∉ quoteShortChar c := by
    intro c
    fun_cases quoteShortChar c with
    | case6 c hslash hquote hlf hcr htab => simp [Ne.symm hlf, Ne.symm hcr]
    | _ => decide
  constructor
  · intro hm
    obtain ⟨c, -, hc⟩ := List.mem_flatMap.mp hm
    exact (hchar c).1 hc
  · intro hm
    obtain ⟨c, -, hc⟩ := List.mem_flatMap.mp hm
    exact (hchar c).2 hc

/-- Texts are read back from long and from short literals, each up to the closing marker that was
written behind it and whatever follows that marker; a short literal holds no line break. So a text
can be told from its quoted form of either kind. -/
theorem literals_read_back :
    (∀ t rest : Text,
      t.quoteLong = (t.replaceChar '\\' "\\\\").replaceChar '"' "\\\"" ∧
      LiteralKind.long.read (t.quoteLong ++ ("\"\"\"" ++ rest)) = some (t, rest)) ∧
    (∀ t rest : Text,
      ('\n' ∉ t.quoteShort ∧ '\r' ∉ t.quoteShort) ∧
      LiteralKind.short.read (t.quoteShort ++ ("\"" ++ rest)) = some (t, rest)) ∧
    Function.Injective quoteLong ∧ Function.Injective quoteShort := by
  refine ⟨fun t rest => ⟨quoteLong_eq_replaceChar t, ?_⟩,
    fun t rest => ⟨break_not_mem_quoteShort t, ?_⟩, ?_, ?_⟩
  · exact LiteralKind.read_flatMap LiteralKind.writes_quoteLongChar t rest
  · exact LiteralKind.read_flatMap LiteralKind.writes_quoteShortChar t rest
  · exact LiteralKind.injective_flatMap LiteralKind.writes_quoteLongChar
  · exact LiteralKind.injective_flatMap LiteralKind.writes_quoteShortChar

end Text

end ServerPages
