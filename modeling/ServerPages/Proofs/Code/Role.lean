import ServerPages.Proofs.Code.Heading

/-!
# The roles of characters in code

Every character of a script has a role: it is part of a string or a comment, it is the brace of a
block, or it is other code. The role is found by reading from left to right, one character after the
other. Brace syntax goes through strings and the gaps around braces in larger steps; each of them is
compared here with the roles of its characters.
-/

namespace ServerPages

/-- What a character of code is part of. -/
inductive Role where
  /-- Code outside of strings and comments, the braces of literals among it. -/
  | code
  /-- A string with its quotes. -/
  | string
  /-- A comment. -/
  | comment
  /-- The brace that opens a block. -/
  | opener
  /-- The brace that closes a block. -/
  | closer
  deriving DecidableEq, Repr

namespace Role

/-- The role of the braces of blocks. -/
def isBrace : Role → Bool
  | opener | closer => true
  | code | string | comment => false

/-- The roles of text that no layout changes. -/
def isVerbatim : Role → Bool
  | string | comment => true
  | code | opener | closer => false

/-- The roles of code that is neither a block by itself nor a comment. -/
def isPlain : Role → Bool
  | code | string => true
  | comment | opener | closer => false

/-- Strings and comments hold no braces of blocks. -/
theorem isBrace_of_isVerbatim {role : Role} (h : role.isVerbatim = true) :
    role.isBrace = false := by
  cases role with
  | string | comment => rfl
  | code | opener | closer => cases h

/-- Plain code holds no braces of blocks. -/
theorem isBrace_of_isPlain {role : Role} (h : role.isPlain = true) : role.isBrace = false := by
  cases role with
  | code | string => rfl
  | comment | opener | closer => cases h

end Role

namespace Quote

/-- The quotes, the longer ones first. -/
def all : List Quote := [tripleSingle, tripleDouble, single, double]

/-- The quote with which a text begins. -/
def first? (t : Text) : Option Quote := all.find? fun quote => quote.text.isPrefixOf t

end Quote

/-- What has been read of a script before a character. -/
structure CodeContext where
  /-- The string that is open. -/
  quote? : Option Quote := none
  /-- Whether a backslash in a string takes the character. -/
  escaped : Bool := false
  /-- The number of characters that still belong to a quote. -/
  owed : Nat := 0
  /-- Whether the rest of the line is a comment. -/
  comment : Bool := false
  /-- The number of open braces of literals. -/
  level : Nat := 0
  /-- Whether only blanks stand between the last colon and the character. -/
  afterColon : Bool := false
  deriving DecidableEq, Repr

/-- The context in which brace syntax reads on, behind a colon or not. -/
def BraceSyntax.context (b : BraceSyntax) (afterColon : Bool) : CodeContext :=
  { quote? := b.quote?, level := b.level, afterColon }

namespace CodeContext

/-- What is carried to the next line: an escape and a comment end with their line. -/
def carried (x : CodeContext) : BraceSyntax := ⟨x.quote?, x.level⟩

/-- The role of a character, which the text behind it may decide, and the context behind it. -/
def read (x : CodeContext) (c : Char) (rest : Text) : Role × CodeContext :=
  if c = '\n' then (if x.quote?.isSome then .string else .code, x.carried.context false)
  else if x.comment then (.comment, x)
  else if 0 < x.owed then (.string, { x with owed := x.owed - 1 })
  else
    match x.quote? with
    | some quote =>
      if x.escaped then (.string, { x with escaped := false })
      else if c = '\\' then (.string, { x with escaped := true })
      else if quote.text.isPrefixOf (c :: rest) then
        (.string, { x with quote? := none, owed := quote.text.length - 1 })
      else (.string, x)
    | none =>
      let next := { x with afterColon := false }
      if c = '#' then (.comment, { next with comment := true })
      else if c = '\x7b' then
        if x.level = 0 ∧ x.afterColon then (.opener, next)
        else (.code, { next with level := x.level + 1 })
      else if c = '\x7d' then
        if x.level = 0 then (.closer, next) else (.code, { next with level := x.level - 1 })
      else
        match Quote.first? (c :: rest) with
        | some quote => (.string, { next with quote? := some quote, owed := quote.text.length - 1 })
        | none => (.code, { next with afterColon := c = ':' || x.afterColon && isBlank c })

/-- A brace opens a block only behind a colon and outside of literals. -/
theorem of_read_eq_opener {x : CodeContext} {c : Char} {rest : Text}
    (h : (x.read c rest).1 = .opener) : c = '\x7b' ∧ x.level = 0 ∧ x.afterColon = true := by
  revert h
  fun_cases read x c rest <;> grind

/-- Outside of comments only their sign begins one. -/
theorem of_read_eq_comment {x : CodeContext} {c : Char} {rest : Text} (hx : x.comment = false)
    (h : (x.read c rest).1 = .comment) : c = '#' := by
  revert h
  fun_cases read x c rest <;> grind

/-- The characters of a text with their roles, and the context at its end. -/
def mark (x : CodeContext) : Text → List (Char × Role) × CodeContext
  | [] => ([], x)
  | c :: rest =>
    ((x.read c rest).2.mark rest).map ((c, (x.read c rest).1) :: ·) id

/-- The first character is marked, and then the rest in the context behind it. -/
theorem mark_cons {x next : CodeContext} {c : Char} {rest : Text} {role : Role}
    (h : x.read c rest = (role, next)) :
    x.mark (c :: rest) = (next.mark rest).map ((c, role) :: ·) id := by
  rw [mark, h]

/-- Every character is marked. -/
theorem map_fst_mark (x : CodeContext) (t : Text) : (x.mark t).1.map Prod.fst = t := by
  induction t generalizing x with
  | nil => rfl
  | cons c t ih =>
    rw [mark, Prod.map_fst, List.map_cons, ih]

end CodeContext

namespace Quote

theorem text_ne_nil (quote : Quote) : quote.text ≠ [] := by
  cases quote <;> exact nofun

/-- The first character of a quote, and the number of the others. -/
theorem exists_text_eq (quote : Quote) :
    ∃ c more, quote.text = c :: more ∧ (c = '"' ∨ c = '\'') ∧
      more.length = quote.text.length - 1 ∧ '\n' ∉ more := by
  cases quote <;> exact ⟨_, _, rfl, by decide, rfl, by decide⟩

/-- Where no string opens, there is no quotation mark. -/
theorem ne_of_open?_eq_none {c : Char} {t : Text} (h : open? (c :: t) = none) :
    c ≠ '"' ∧ c ≠ '\'' := by
  constructor
  · rintro rfl
    unfold open? at h
    split at h <;> simp_all
  · rintro rfl
    unfold open? at h
    split at h <;> simp_all

/-- A quote does not reach into a text that does not open a string. -/
theorem isPrefixOf_append {u : Text} (hu : open? u = none) (quote : Quote) (t : Text) :
    quote.text.isPrefixOf (t ++ u) = quote.text.isPrefixOf t := by
  have hquotes : ∀ c ∈ quote.text, c = '"' ∨ c = '\'' := by
    cases quote <;> simp [text]
  generalize quote.text = literal at hquotes
  induction literal generalizing t with
  | nil => simp
  | cons a literal ih =>
    rw [List.forall_mem_cons] at hquotes
    cases t with
    | nil =>
      cases u with
      | nil => rfl
      | cons c u =>
        have hne : a ≠ c := by
          rintro rfl
          obtain ⟨hd, hs⟩ := ne_of_open?_eq_none hu
          exact hquotes.1.elim hd hs
        simp [List.isPrefixOf, hne]
    | cons c t => rw [List.cons_append, List.isPrefixOf, List.isPrefixOf, ih t hquotes.2]

theorem first?_append {u : Text} (hu : open? u = none) (t : Text) :
    first? (t ++ u) = first? t := by
  simp only [first?, isPrefixOf_append hu]

/-- A literal is no prefix of a text that does not begin with it. -/
private theorem isPrefixOf_eq_false {literal t : Text} (h : ∀ rest, t = literal ++ rest → False) :
    literal.isPrefixOf t = false := by
  rw [Bool.eq_false_iff]
  intro hp
  obtain ⟨rest, hr⟩ := List.isPrefixOf_iff_prefix.mp hp
  exact h rest hr.symm

/-- The string that opens is the one of the first quote that fits. -/
theorem open?_eq (t : Text) :
    open? t = (first? t).map fun quote => (quote, t.drop quote.text.length) := by
  unfold open?
  split
  · rfl
  · rfl
  · rename_i more hne
    have hmore : List.isPrefixOf ['\'', '\''] more = false := isPrefixOf_eq_false hne
    simp [first?, all, text, List.isPrefixOf, hmore]
  · rename_i more hne
    have hmore : List.isPrefixOf ['"', '"'] more = false := isPrefixOf_eq_false hne
    simp [first?, all, text, List.isPrefixOf, hmore]
  · rename_i hsingle hdouble
    cases t with
    | nil => rfl
    | cons c more =>
      have hs : '\'' ≠ c := fun he => hsingle more (by rw [he])
      have hd : '"' ≠ c := fun he => hdouble more (by rw [he])
      simp [first?, all, text, List.isPrefixOf, hs, hd]

/-- A string opens with the first quote that fits. -/
theorem first?_of_open? {t rest : Text} {quote : Quote} (h : open? t = some (quote, rest)) :
    first? t = some quote ∧ t = quote.text ++ rest := by
  rw [open?_eq] at h
  obtain ⟨found, hf, he⟩ := Option.map_eq_some_iff.mp h
  obtain ⟨rfl, rfl⟩ := Prod.mk.inj he
  have hp : found.text.isPrefixOf t = true :=
    List.find?_some (p := fun quote : Quote => quote.text.isPrefixOf t) hf
  exact ⟨hf, List.prefix_iff_eq_append.mp (List.isPrefixOf_iff_prefix.mp hp) |>.symm⟩

/-- Closing a string cuts the text in two. -/
theorem eq_append_of_close? {quote : Quote} {t through rest : Text}
    (h : quote.close? t = some (through, rest)) : t = through ++ rest := by
  fun_induction close? quote t generalizing through with
  | case1 => cases h
  | case2 c t ih =>
    obtain ⟨⟨through', rest'⟩, hclose, he⟩ := Option.map_eq_some_iff.mp h
    obtain ⟨rfl, rfl⟩ := Prod.mk.inj he
    rw [ih hclose]
    rfl
  | case3 c t _ after ha =>
    obtain ⟨rfl, rfl⟩ := Prod.mk.inj (Option.some.inj h)
    exact Text.after?_eq_some_iff.mp ha
  | case4 c t _ _ ih =>
    obtain ⟨⟨through', rest'⟩, hclose, he⟩ := Option.map_eq_some_iff.mp h
    obtain ⟨rfl, rfl⟩ := Prod.mk.inj he
    rw [ih hclose]
    rfl

theorem first?_of_open?_none {t : Text} (h : open? t = none) : first? t = none := by
  rwa [open?_eq, Option.map_eq_none_iff] at h

end Quote

namespace CodeContext

/-- A text can be marked in two parts, if no quote reaches over the cut. -/
theorem mark_append (x : CodeContext) (t : Text) {u : Text} (hu : Quote.open? u = none) :
    x.mark (t ++ u) = ((x.mark t).2.mark u).map ((x.mark t).1 ++ ·) id := by
  induction t generalizing x with
  | nil => rfl
  | cons c t ih =>
    have hread : x.read c (t ++ u) = x.read c t := by
      simp only [read, ← List.cons_append, Quote.isPrefixOf_append hu, Quote.first?_append hu]
    rw [List.cons_append, mark, hread, ih]
    rfl

/-- The characters of a quote belong to its string. -/
theorem mark_owed {x : CodeContext} (hx : x.comment = false) {t : Text} (ht : '\n' ∉ t)
    (rest : Text) :
    ({ x with owed := t.length } : CodeContext).mark (t ++ rest) =
      (({ x with owed := 0 } : CodeContext).mark rest).map (t.map (·, .string) ++ ·) id := by
  induction t with
  | nil => rfl
  | cons c t ih =>
    rw [List.mem_cons, not_or] at ht
    have hread : ({ x with owed := (c :: t).length } : CodeContext).read c (t ++ rest) =
        (.string, { x with owed := t.length }) := by simp [read, hx, Ne.symm ht.1]
    rw [List.cons_append, mark_cons hread, ih ht.2]
    rfl

/-- The rest of a line is a comment. -/
theorem mark_comment {x : CodeContext} (hx : x.comment = true) {t : Text} (ht : '\n' ∉ t) :
    x.mark t = Prod.map (t.map (·, .comment) ++ ·) id ([], x) := by
  induction t with
  | nil => rfl
  | cons c t ih =>
    rw [List.mem_cons, not_or] at ht
    have hread : x.read c t = (.comment, x) := by simp [read, hx, Ne.symm ht.1]
    rw [mark_cons hread, ih ht.2]
    rfl

variable {b : BraceSyntax}

/-- A quote that opens a string belongs to it. -/
theorem mark_open (hb : b.quote? = none) {t rest : Text} {quote : Quote}
    (h : Quote.open? t = some (quote, rest)) (afterColon : Bool) :
    (b.context afterColon).mark t =
      ((({ b with quote? := some quote } : BraceSyntax).context false).mark rest).map
        (quote.text.map (·, .string) ++ ·) id := by
  obtain ⟨hfirst, ht⟩ := Quote.first?_of_open? h
  obtain ⟨c, more, hq, hc, hlength, hmore⟩ := quote.exists_text_eq
  rw [hq, List.cons_append] at ht
  subst ht
  have hread : (b.context afterColon).read c (more ++ rest) =
      (.string, { quote? := some quote, owed := more.length, level := b.level }) := by
    rcases hc with rfl | rfl <;> simp [read, BraceSyntax.context, hb, hfirst, hlength]
  have howed := mark_owed (x := { quote? := some quote, level := b.level }) rfl hmore rest
  rw [mark_cons hread, howed, hq]
  rfl

/-- The contexts inside a string. -/
theorem read_string {quote : Quote} {c : Char} {t : Text} (level : Nat) (hc : c ≠ '\n')
    (hslash : c ≠ '\\') (hp : ¬ quote.text <+: c :: t) :
    ((⟨some quote, level⟩ : BraceSyntax).context false).read c t =
      (.string, (⟨some quote, level⟩ : BraceSyntax).context false) := by
  have hfalse : quote.text.isPrefixOf (c :: t) = false := by
    rw [Bool.eq_false_iff]
    exact fun h => hp (List.isPrefixOf_iff_prefix.mp h)
  simp [read, BraceSyntax.context, hc, hslash, hfalse]

/-- A backslash in a string takes the next character with it. -/
theorem mark_escape (quote : Quote) (level : Nat) {c : Char} (hc : c ≠ '\n') (t : Text) :
    ((⟨some quote, level⟩ : BraceSyntax).context false).mark ('\\' :: c :: t) =
      (((⟨some quote, level⟩ : BraceSyntax).context false).mark t).map
        ([('\\', .string), (c, .string)] ++ ·) id := by
  have hslash : ((⟨some quote, level⟩ : BraceSyntax).context false).read '\\' (c :: t) =
      (.string, { quote? := some quote, escaped := true, level }) := rfl
  have hescaped : ({ quote? := some quote, escaped := true, level } : CodeContext).read c t =
      (.string, (⟨some quote, level⟩ : BraceSyntax).context false) := by
    simp [read, BraceSyntax.context, hc]
  rw [mark_cons hslash, mark_cons hescaped]
  rfl

/-- A string is marked through its closing quote. -/
theorem mark_close {quote : Quote} (level : Nat) {t through rest : Text} (ht : '\n' ∉ t)
    (h : quote.close? t = some (through, rest)) :
    ((⟨some quote, level⟩ : BraceSyntax).context false).mark t =
      (((⟨none, level⟩ : BraceSyntax).context false).mark rest).map
        (through.map (·, .string) ++ ·) id := by
  fun_induction Quote.close? quote t generalizing through with
  | case1 => cases h
  | case2 c t ih =>
    obtain ⟨⟨through', rest'⟩, hclose, he⟩ := Option.map_eq_some_iff.mp h
    obtain ⟨rfl, rfl⟩ := Prod.mk.inj he
    simp only [List.mem_cons, not_or] at ht
    rw [mark_escape quote level (Ne.symm ht.2.1), ih ht.2.2 hclose]
    rfl
  | case3 c t _ after ha =>
    obtain ⟨rfl, rfl⟩ := Prod.mk.inj (Option.some.inj h)
    obtain ⟨d, more, hq, hd, hlength, hmore⟩ := quote.exists_text_eq
    have htext := Text.after?_eq_some_iff.mp ha
    have hp : quote.text.isPrefixOf (c :: t) = true :=
      List.isPrefixOf_iff_prefix.mpr ⟨after, htext.symm⟩
    rw [hq, List.cons_append] at htext
    obtain ⟨rfl, rfl⟩ := List.cons.inj htext
    have hread : ((⟨some quote, level⟩ : BraceSyntax).context false).read c (more ++ after) =
        (.string, { owed := more.length, level }) := by
      rcases hd with rfl | rfl <;> simp [read, BraceSyntax.context, hp, hlength]
    rw [mark_cons hread, mark_owed (x := { level }) rfl hmore, hq]
    rfl
  | case4 c t hne ha ih =>
    obtain ⟨⟨through', rest'⟩, hclose, he⟩ := Option.map_eq_some_iff.mp h
    obtain ⟨rfl, rfl⟩ := Prod.mk.inj he
    simp only [List.mem_cons, not_or] at ht
    have hslash : c ≠ '\\' := by
      rintro rfl
      cases t with
      | nil => cases hclose
      | cons d t => exact hne d t rfl rfl
    rw [mark_cons (read_string level (Ne.symm ht.1) hslash (Text.after?_eq_none_iff.mp ha)),
      ih ht.2 hclose]
    rfl

/-- A line that does not close its string belongs to it. -/
theorem mark_unclosed {quote : Quote} (level : Nat) {t : Text} (ht : '\n' ∉ t)
    (h : quote.close? t = none) :
    ∃ last : CodeContext, last.carried = ⟨some quote, level⟩ ∧
      ((⟨some quote, level⟩ : BraceSyntax).context false).mark t =
        Prod.map (t.map (·, .string) ++ ·) id ([], last) := by
  fun_induction Quote.close? quote t with
  | case1 => exact ⟨_, rfl, rfl⟩
  | case2 c t ih =>
    simp only [List.mem_cons, not_or] at ht
    obtain ⟨last, hlast, hmark⟩ := ih ht.2.2 (Option.map_eq_none_iff.mp h)
    rw [mark_escape quote level (Ne.symm ht.2.1), hmark]
    exact ⟨last, hlast, rfl⟩
  | case3 => cases h
  | case4 c t hne ha ih =>
    simp only [List.mem_cons, not_or] at ht
    by_cases hslash : c = '\\'
    · subst hslash
      cases t with
      | nil => exact ⟨_, rfl, rfl⟩
      | cons d t => exact (hne d t rfl rfl).elim
    · obtain ⟨last, hlast, hmark⟩ := ih ht.2 (Option.map_eq_none_iff.mp h)
      rw [mark_cons (read_string level (Ne.symm ht.1) hslash (Text.after?_eq_none_iff.mp ha)),
        hmark]
      exact ⟨last, hlast, rfl⟩

/-- A character of code that is neither a brace nor a line break. -/
theorem read_code (hb : b.quote? = none) {c : Char} {t : Text} (hn : c ≠ '\n') (hc : c ≠ '#')
    (ho : c ≠ '\x7b') (hd : c ≠ '\x7d') (hq : Quote.first? (c :: t) = none) (afterColon : Bool) :
    (b.context afterColon).read c t =
      (.code, b.context (c = ':' || afterColon && isBlank c)) := by
  simp [read, BraceSyntax.context, hb, hn, hc, ho, hd, hq]

/-- A number sign outside of strings begins a comment. -/
theorem read_hash (hb : b.quote? = none) (afterColon : Bool) (t : Text) :
    (b.context afterColon).read '#' t = (.comment, { b.context false with comment := true }) := by
  simp [read, BraceSyntax.context, hb]

/-- A brace opens a block behind a colon, unless a literal is open. Elsewhere it opens a literal. -/
theorem read_openBrace (hb : b.quote? = none) (afterColon : Bool) (t : Text) :
    (b.context afterColon).read '\x7b' t =
      if b.level = 0 ∧ afterColon = true then (.opener, b.context false)
      else (.code, ({ b with level := b.level + 1 } : BraceSyntax).context false) := by
  simp [read, BraceSyntax.context, hb]

/-- A brace closes a block unless a literal is open. -/
theorem read_closeBrace (hb : b.quote? = none) (afterColon : Bool) (t : Text) :
    (b.context afterColon).read '\x7d' t =
      if b.level = 0 then (.closer, b.context false)
      else (.code, ({ b with level := b.level - 1 } : BraceSyntax).context false) := by
  simp [read, BraceSyntax.context, hb]

/-- A colon may be followed by the brace of a block. -/
theorem read_colon (hb : b.quote? = none) (afterColon : Bool) (t : Text) :
    (b.context afterColon).read ':' t = (.code, b.context true) :=
  read_code hb (by decide) (by decide) (by decide) (by decide)
    (Quote.first?_of_open?_none (Quote.open?_eq_none (by decide) (by decide) t)) afterColon

/-- A blank is code, and a colon in front of it still counts behind it. -/
theorem read_blank (hb : b.quote? = none) {c : Char} (hn : c ≠ '\n') (hc : isBlank c = true)
    (afterColon : Bool) (t : Text) :
    (b.context afterColon).read c t = (.code, b.context afterColon) := by
  have hmarks : (BraceSyntax.marks.all fun d => !isBlank d) = true := by decide
  have hne : ∀ d ∈ BraceSyntax.marks, c ≠ d := by
    rintro d hd rfl
    have hmark := List.all_eq_true.mp hmarks c hd
    simp [hc] at hmark
  have hq : Quote.first? (c :: t) = none :=
    Quote.first?_of_open?_none (Quote.open?_eq_none (hne '"' (by decide)) (hne '\'' (by decide)) t)
  rw [read_code hb hn (hne '#' (by decide)) (hne '\x7b' (by decide)) (hne '\x7d' (by decide)) hq]
  simp [hc, hne ':' (by decide)]

/-- Blanks outside of strings are code and change nothing. -/
theorem mark_blanks (hb : b.quote? = none) {gap : Text} (hn : '\n' ∉ gap)
    (hg : Text.isBlank gap = true) (afterColon : Bool) (rest : Text) :
    (b.context afterColon).mark (gap ++ rest) =
      ((b.context afterColon).mark rest).map (gap.map (·, .code) ++ ·) id := by
  induction gap with
  | nil => rfl
  | cons c gap ih =>
    rw [List.mem_cons, not_or] at hn
    obtain ⟨hc, hgap⟩ := Text.isBlank_cons.mp hg
    rw [List.cons_append, mark_cons (read_blank hb (Ne.symm hn.1) hc afterColon _),
      ih hn.2 hgap]
    rfl

/-- The blanks at the beginning of a line are code and change nothing. -/
theorem mark_trimStart (hb : b.quote? = none) {t : Text} (hn : '\n' ∉ t) (afterColon : Bool) :
    (b.context afterColon).mark t =
      ((b.context afterColon).mark t.trimStart).map (t.leadingBlanks.map (·, .code) ++ ·) id := by
  rw [← mark_blanks hb (Text.not_mem_leadingBlanks hn) t.isBlank_leadingBlanks,
    t.leadingBlanks_append_trimStart]

end CodeContext

end ServerPages
