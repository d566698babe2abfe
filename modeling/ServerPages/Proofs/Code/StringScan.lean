import ServerPages.Proofs.Code.Layout
import ServerPages.Proofs.Text.Breaks

/-!
# Strings in code

Whether code ends inside a string is found by one scan from left to right over the whole text, with
a character or two of memory. Brace syntax goes through code line by line and in larger steps, and
carries only the open string from one line to the next; it comes to the same end.
-/

namespace ServerPages

/-- Where a scan of code is. -/
inductive ScanPlace where
  /-- Outside of strings and comments. -/
  | outside
  /-- In a comment. -/
  | comment
  /-- In a string that its quote closes. -/
  | inside (quote : Quote)
  deriving DecidableEq, Repr

namespace ScanPlace

/-- The string at a place. -/
def quote? : ScanPlace → Option Quote
  | outside | comment => none
  | inside quote => some quote

/-- The place in a string, or outside of all. -/
def ofQuote? : Option Quote → ScanPlace
  | none => outside
  | some quote => inside quote

@[simp] theorem quote?_ofQuote? (quote? : Option Quote) : (ofQuote? quote?).quote? = quote? := by
  cases quote? <;> rfl

end ScanPlace

/-- A scan of code. -/
structure StringScan where
  /-- Where it is. -/
  place : ScanPlace
  /-- How many of the next characters are taken already, by a quote or a backslash. -/
  taken : Nat
  deriving DecidableEq, Repr

namespace StringScan

/-- Before the first character. -/
def start : StringScan := ⟨.outside, 0⟩

/-- Go over a character. Quotes are told by the text that follows, the longer ones first. -/
def read (x : StringScan) (c : Char) (rest : Text) : StringScan :=
  if 0 < x.taken then ⟨x.place, x.taken - 1⟩
  else
    match x.place with
    | .outside =>
      if c = '#' then ⟨.comment, 0⟩
      else
        match Quote.first? (c :: rest) with
        | some quote => ⟨.inside quote, quote.text.length - 1⟩
        | none => ⟨.outside, 0⟩
    | .comment => if c = '\n' then ⟨.outside, 0⟩ else ⟨.comment, 0⟩
    | .inside quote =>
      if c = '\\' then ⟨.inside quote, 1⟩
      else if quote.text.isPrefixOf (c :: rest) then ⟨.outside, quote.text.length - 1⟩
      else ⟨.inside quote, 0⟩

/-- Go over a text. -/
def run (x : StringScan) : Text → StringScan
  | [] => x
  | c :: rest => (x.read c rest).run rest

/-- Nothing of a text can be part of a quote with which the text before it ends, if it does not
begin with one. -/
theorem run_append (x : StringScan) (t : Text) {u : Text} (hu : Quote.open? u = none) :
    x.run (t ++ u) = (x.run t).run u := by
  induction t generalizing x with
  | nil => rfl
  | cons c t ih =>
    have hread : x.read c (t ++ u) = x.read c t := by
      simp only [read, ← List.cons_append, Quote.isPrefixOf_append hu, Quote.first?_append hu]
    rw [List.cons_append, run, hread, ih]
    rfl

/-- A line feed ends a comment. It closes no string and opens none. -/
theorem read_newline (place : ScanPlace) (rest : Text) :
    read ⟨place, 0⟩ '\n' rest = ⟨.ofQuote? place.quote?, 0⟩ := by
  cases place with
  | outside =>
    have hopen : Quote.first? ('\n' :: rest) = none := Quote.first?_of_open?_none rfl
    simp [read, hopen, ScanPlace.quote?, ScanPlace.ofQuote?]
  | comment => rfl
  | inside quote =>
    have hclose : quote.text.isPrefixOf ('\n' :: rest) = false := by cases quote <;> rfl
    simp [read, hclose, ScanPlace.quote?, ScanPlace.ofQuote?]

/-- A line break does not end a string. -/
theorem quote?_read_newline (x : StringScan) (rest : Text) :
    (x.read '\n' rest).place.quote? = x.place.quote? := by
  obtain ⟨place, taken⟩ := x
  cases taken with
  | zero => rw [read_newline, ScanPlace.quote?_ofQuote?]
  | succ taken => rfl

end StringScan

/-- A quote begins with a quotation mark. -/
theorem Quote.head_of_isPrefixOf {quote : Quote} {c : Char} {rest : Text}
    (h : quote.text.isPrefixOf (c :: rest) = true) : c = '"' ∨ c = '\'' := by
  obtain ⟨first, more, htext, hfirst, -⟩ := quote.exists_text_eq
  obtain ⟨tail, htail⟩ := List.isPrefixOf_iff_prefix.mp h
  rw [htext, List.cons_append] at htail
  rwa [← (List.cons.inj htail).1]

/-- A quote with which a text begins ends in the first line. -/
theorem Quote.length_le_of_isPrefixOf {quote : Quote} {c : Char} {rest : Text}
    (h : quote.text.isPrefixOf (c :: rest) = true) :
    quote.text.length - 1 ≤ (rest.takeWhile (· ≠ '\n')).length := by
  obtain ⟨first, more, htext, -, hlength, hmore⟩ := quote.exists_text_eq
  obtain ⟨tail, htail⟩ := List.isPrefixOf_iff_prefix.mp h
  rw [htext, List.cons_append] at htail
  obtain ⟨-, rfl⟩ := List.cons.inj htail
  have hall : ∀ d ∈ more, decide (d ≠ '\n') = true := by
    intro d hd
    exact decide_eq_true fun he => hmore (he ▸ hd)
  rw [← hlength, List.takeWhile_append_of_pos hall, List.length_append]
  exact Nat.le_add_right _ _

namespace CodeContext

/-- A context in front of a text tells what a scan knows there. Comments are outside of strings, a
backslash takes characters in strings only, and a quote that has been begun is completed in its
line. -/
inductive Mirrors : Text → CodeContext → StringScan → Prop
  | plain {t : Text} (quote? : Option Quote) {owed : Nat} (level : Nat) (afterColon : Bool)
      (h : owed ≤ (t.takeWhile (· ≠ '\n')).length) :
      Mirrors t { quote?, owed, level, afterColon } ⟨.ofQuote? quote?, owed⟩
  | escaped {t : Text} (quote : Quote) (level : Nat) (afterColon : Bool) :
      Mirrors t { quote? := some quote, escaped := true, level, afterColon } ⟨.inside quote, 1⟩
  | comment {t : Text} (level : Nat) (afterColon : Bool) :
      Mirrors t { comment := true, level, afterColon } ⟨.comment, 0⟩

variable {x : CodeContext} {y : StringScan} {c : Char} {rest t : Text}

/-- The context and the scan agree about the string. -/
theorem Mirrors.quote?_eq (h : Mirrors t x y) : x.quote? = y.place.quote? := by
  cases h with
  | plain quote? => exact (ScanPlace.quote?_ofQuote? quote?).symm
  | escaped quote => rfl
  | comment => rfl

/-- Behind a line feed only the string is remembered. -/
theorem Mirrors.read_newline (h : Mirrors ('\n' :: rest) x y) :
    Mirrors rest (x.read '\n' rest).2 (y.read '\n' rest) := by
  have hread : (x.read '\n' rest).2 = x.carried.context false := by simp [read]
  have hscan : y.read '\n' rest = ⟨.ofQuote? x.quote?, 0⟩ := by
    cases h with
    | plain quote? level afterColon howed =>
      obtain rfl := Nat.le_zero.mp howed
      rw [StringScan.read_newline, ScanPlace.quote?_ofQuote?]
    | escaped quote => rfl
    | comment => rfl
  rw [hread, hscan]
  exact .plain x.quote? x.level false (Nat.zero_le _)

/-- In a string. -/
theorem mirrors_read_inside (quote : Quote) (level : Nat) (afterColon : Bool) (hc : c ≠ '\n') :
    Mirrors rest (read { quote? := some quote, level, afterColon } c rest).2
      (StringScan.read ⟨.inside quote, 0⟩ c rest) := by
  by_cases hslash : c = '\\'
  · subst hslash
    exact .escaped quote level afterColon
  · by_cases hclose : quote.text.isPrefixOf (c :: rest) = true
    · simp only [read, StringScan.read, hc, hslash, hclose]
      exact .plain none level afterColon (Quote.length_le_of_isPrefixOf hclose)
    · simp only [read, StringScan.read, hc, hslash, hclose]
      exact .plain (some quote) level afterColon (Nat.zero_le _)

/-- Outside of strings and comments. -/
theorem mirrors_read_outside (level : Nat) (afterColon : Bool) (hc : c ≠ '\n') :
    Mirrors rest (read { level, afterColon } c rest).2 (StringScan.read ⟨.outside, 0⟩ c rest) := by
  by_cases hhash : c = '#'
  · subst hhash
    exact .comment level false
  · cases hfirst : Quote.first? (c :: rest) with
    | some quote =>
      have hprefix : quote.text.isPrefixOf (c :: rest) = true :=
        List.find?_some (p := fun quote : Quote => quote.text.isPrefixOf (c :: rest)) hfirst
      have hmark : c = '"' ∨ c = '\'' := Quote.head_of_isPrefixOf hprefix
      have hread : (read { level, afterColon } c rest).2 =
          { quote? := some quote, owed := quote.text.length - 1, level } := by
        rcases hmark with rfl | rfl <;> simp [read, hfirst]
      simp only [hread, StringScan.read, hhash, hfirst]
      exact .plain (some quote) level false (Quote.length_le_of_isPrefixOf hprefix)
    | none =>
      -- The braces of blocks and literals only change the level.
      have hread : ∃ level' afterColon', (read { level, afterColon } c rest).2 =
          { level := level', afterColon := afterColon' } := by
        simp only [read, if_neg hc, Bool.false_eq_true, if_false, Nat.lt_irrefl, if_neg hhash,
          hfirst]
        split
        · split <;> exact ⟨_, _, rfl⟩
        · split
          · split <;> exact ⟨_, _, rfl⟩
          · exact ⟨_, _, rfl⟩
      obtain ⟨level', afterColon', hread⟩ := hread
      simp only [hread, StringScan.read, hhash, hfirst]
      exact .plain none level' afterColon' (Nat.zero_le _)

/-- A character leaves a context and a scan that tell the same. -/
theorem Mirrors.read (h : Mirrors (c :: rest) x y) :
    Mirrors rest (x.read c rest).2 (y.read c rest) := by
  by_cases hc : c = '\n'
  · subst hc
    exact h.read_newline
  · cases h with
    | plain quote? level afterColon howed =>
      rename_i owed
      cases owed with
      | succ owed =>
        have hline : owed ≤ (rest.takeWhile (· ≠ '\n')).length := by
          rw [List.takeWhile_cons, if_pos (decide_eq_true hc), List.length_cons] at howed
          exact Nat.le_of_succ_le_succ howed
        simp only [CodeContext.read, StringScan.read, hc]
        exact .plain quote? level afterColon hline
      | zero =>
        cases quote? with
        | none => exact mirrors_read_outside level afterColon hc
        | some quote => exact mirrors_read_inside quote level afterColon hc
    | escaped quote level afterColon =>
      simp only [CodeContext.read, StringScan.read, hc]
      exact .plain (some quote) level afterColon (Nat.zero_le _)
    | comment level afterColon =>
      simp only [CodeContext.read, StringScan.read, hc]
      exact .comment level afterColon

/-- The context and the scan agree behind a text if they agree in front of it. -/
theorem Mirrors.mark (h : Mirrors t x y) : Mirrors [] (x.mark t).2 (y.run t) := by
  induction t generalizing x y with
  | nil => exact h
  | cons c t ih => exact ih h.read

end CodeContext

namespace Text

/-- The string in which code ends. -/
def openQuote? (t : Text) : Option Quote := (StringScan.start.run t).place.quote?

theorem openQuote?_append_newline (t : Text) : openQuote? (t ++ ['\n']) = openQuote? t := by
  rw [openQuote?, StringScan.run_append _ _ rfl]
  exact StringScan.quote?_read_newline _ []

/-- Lines are ended, or only separated from each other. -/
theorem unlines_eq_join {ls : List Text} (h : ls ≠ []) :
    unlines ls = join ['\n'] ls ++ ['\n'] := by
  induction ls with
  | nil => exact absurd rfl h
  | cons l ls ih =>
    cases ls with
    | nil => exact List.append_nil _
    | cons next ls =>
      rw [unlines_cons, ih (List.cons_ne_nil next ls), join, List.append_assoc, List.append_assoc]
      rfl

/-- The last line of a text need not be ended. -/
theorem openQuote?_unlines (ls : List Text) :
    openQuote? (unlines ls) = openQuote? (join ['\n'] ls) := by
  cases ls with
  | nil => rfl
  | cons l ls => rw [unlines_eq_join (List.cons_ne_nil l ls), openQuote?_append_newline]

/-- The lines of a text, each of them ended, are the text with unified line breaks, up to the end of
its last line. -/
theorem unlines_lines (t : Text) :
    unlines t.lines = t.unifyBreaks ∨ unlines t.lines = t.unifyBreaks ++ ['\n'] := by
  fun_induction lines t with
  | case1 => exact .inl rfl
  | case2 rest ih => exact ih.imp (congrArg ('\n' :: ·)) (congrArg ('\n' :: ·))
  | case3 rest hpair ih =>
    have hhead : rest.head? ≠ some '\n' :=
      fun hhead => (List.head?_eq_some_iff.mp hhead).elim hpair
    rw [unifyBreaks_cr hhead]
    exact ih.imp (congrArg ('\n' :: ·)) (congrArg ('\n' :: ·))
  | case4 rest ih =>
    rw [unifyBreaks_cons (by decide)]
    exact ih.imp (congrArg ('\n' :: ·)) (congrArg ('\n' :: ·))
  | case5 c rest hpair hr hn ih =>
    rw [unifyBreaks_cons hr]
    cases hlines : lines rest with
    | nil =>
      rw [hlines] at ih
      have hnil : unifyBreaks rest = [] := by
        rcases ih with hsame | hended
        · exact hsame.symm
        · exact absurd hended.symm (List.concat_ne_nil _ _)
      rw [hnil]
      exact .inr rfl
    | cons l ls =>
      rw [hlines, unlines_cons] at ih
      rw [consFirst, unlines_cons]
      exact ih.imp (congrArg (c :: ·)) (congrArg (c :: ·))

/-- Lines hold no line feeds. -/
theorem newline_not_mem_of_mem_lines (t : Text) : ∀ l ∈ t.lines, '\n' ∉ l := by
  fun_induction lines t with
  | case1 => exact List.forall_mem_nil _
  | case2 rest ih => exact List.forall_mem_cons.mpr ⟨List.not_mem_nil, ih⟩
  | case3 rest hpair ih => exact List.forall_mem_cons.mpr ⟨List.not_mem_nil, ih⟩
  | case4 rest ih => exact List.forall_mem_cons.mpr ⟨List.not_mem_nil, ih⟩
  | case5 c rest hpair hr hn ih =>
    have hc : '\n' ≠ c := fun he => hn he.symm
    cases hlines : lines rest with
    | nil => simpa [consFirst] using hc
    | cons l ls =>
      rw [hlines, List.forall_mem_cons] at ih
      rw [consFirst, List.forall_mem_cons]
      exact ⟨List.not_mem_cons_of_ne_of_not_mem hc ih.1, ih.2⟩

/-- A string is open behind the lines of a text if it is open behind the text. -/
theorem openQuote?_unlines_lines (t : Text) :
    openQuote? (unlines t.lines) = openQuote? t.unifyBreaks := by
  rcases unlines_lines t with hsame | hended
  · rw [hsame]
  · rw [hended, openQuote?_append_newline]

end Text

/-- Going through code line by line comes to the string in which the whole of it ends. -/
theorem BraceSyntax.quote?_lines {p : Printer} {ls : List Text} (hn : ∀ l ∈ ls, '\n' ∉ l) :
    (start.lines p ls).1.quote? = Text.openQuote? (Text.unlines ls) := by
  have hfollows := lines_follows (b := start) (p := p) hn
  rw [Follows] at hfollows
  rw [hfollows]
  have hstart : CodeContext.Mirrors (Text.unlines ls) (start.context false) StringScan.start :=
    .plain none 0 false (Nat.zero_le _)
  exact hstart.mark.quote?_eq

end ServerPages
