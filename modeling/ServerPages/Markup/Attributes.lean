import ServerPages.Text.Blank
import ServerPages.Fault

/-!
# Attribute lists

The attributes of a tag follow its name up to the end of the tag, which is one of `>`, `/>`, `%>`
and `--%>`. A value stands between quotes, where a backslash takes the next character as it is, or
is bare and runs up to the next delimiter. Reading an attribute list works on the unread text of one
file: it gives back what is left of that text, also when the list is faulty.
-/

namespace ServerPages

/-- Names with their values, in order of first appearance. -/
structure Attributes where
  /-- The names are distinct. -/
  entries : List (Text × Text)
  deriving DecidableEq, Repr

namespace Attributes

/-- No attributes. -/
def empty : Attributes := ⟨[]⟩

/-- Bind a name. A name that is bound already keeps its place and takes the new value. -/
def insert (a : Attributes) (name value : Text) : Attributes :=
  if a.entries.any (·.1 = name) then
    ⟨a.entries.map fun (key, old) => (key, if key = name then value else old)⟩
  else ⟨a.entries ++ [(name, value)]⟩

/-- The attributes bound by a list of pairs, the last value of each name winning. -/
def ofList (pairs : List (Text × Text)) : Attributes :=
  pairs.foldl (fun a (name, value) => a.insert name value) empty

/-- The value of a name. -/
def get? (a : Attributes) (name : Text) : Option Text := a.entries.lookup name

/-- Whether a name is bound. -/
def contains (a : Attributes) (name : Text) : Bool := (a.get? name).isSome

end Attributes

namespace AttributeList

/-- The ends of a tag. -/
def tagEnds : List Text := [">", "/>", "%>", "--%>"]

/-- Whether a tag ends where the text begins. -/
def atTagEnd (t : Text) : Bool := tagEnds.any (·.isPrefixOf t)

/-- Whether a bare name or value ends where the text begins. -/
def atDelimiter : Text → Bool
  | [] => true
  | '-' :: rest => List.isPrefixOf ['>'] rest || List.isPrefixOf ['-', '>'] rest
  | '%' :: rest => List.isPrefixOf ['>'] rest
  | c :: _ => isTagSpace c || c = '=' || c = '"' || c = '\'' || c = '/' || c = '>'

/-- The characters that a backslash can escape in a bare name or value. -/
def isBareEscape (c : Char) : Bool := c = '"' || c = '\'' || c = '>' || c = '%'

/-- Put a character in front of what was read. -/
def consRead (c : Char) (read : Text × Text) : Text × Text := (c :: read.1, read.2)

/-- A bare name or value and the text after it. A backslash before any character that it cannot
escape stands for itself. -/
def readBare : Text → Text × Text
  | [] => ([], [])
  | '\\' :: e :: more =>
    if isBareEscape e then consRead e (readBare more) else consRead '\\' (readBare (e :: more))
  | c :: rest =>
    if atDelimiter (c :: rest) then ([], c :: rest) else consRead c (readBare rest)

/-- The rest of a value that a quote opened, and the text after the closing quote. -/
def readQuoted (quote : Char) : Text → Option (Text × Text)
  | [] => none
  | ['\\'] => none
  | '\\' :: c :: rest => (readQuoted quote rest).map (consRead c)
  | c :: rest => if c = quote then some ([], rest) else (readQuoted quote rest).map (consRead c)

/-- A value, quoted or bare, and the text after it. -/
def readValue : Text → Option (Text × Text)
  | '"' :: rest => readQuoted '"' rest
  | '\'' :: rest => readQuoted '\'' rest
  | t => some (readBare t)

/-- One attribute and the text after it. A fault comes with the text at which it was met. -/
def readOne (t : Text) : Except (Fault × Text) ((Text × Text) × Text) :=
  let (name, rest) := readBare t
  match rest.skipSpaces with
  | '=' :: rest =>
    match readValue (Text.skipSpaces rest) with
    | some (value, rest) => .ok ((name, value), rest)
    | none => .error (.unterminatedAttribute, [])
  | [] => .error (.unterminatedAttribute, [])
  | rest => .error (.missingValue name, rest)

theorem length_skipSpaces_le (t : Text) : t.skipSpaces.length ≤ t.length :=
  (List.dropWhile_sublist _).length_le

theorem length_readBare_le (t : Text) : (readBare t).2.length ≤ t.length := by
  fun_induction readBare t with
  | case1 => simp
  | case2 e more _ ih => simp only [consRead, List.length_cons]; omega
  | case3 e more _ ih => simp only [consRead, List.length_cons] at ih ⊢; omega
  | case4 => simp
  | case5 c rest _ _ ih => simp only [consRead, List.length_cons]; omega

theorem length_readQuoted_le {quote : Char} {t value rest : Text}
    (h : readQuoted quote t = some (value, rest)) : rest.length ≤ t.length := by
  fun_induction readQuoted quote t generalizing value with
  | case1 => cases h
  | case2 => cases h
  | case3 c more ih =>
    obtain ⟨⟨v, r⟩, hr, he⟩ := Option.map_eq_some_iff.mp h
    obtain ⟨-, rfl⟩ := Prod.mk.inj he
    exact Nat.le_trans (ih hr) (by simp only [List.length_cons]; omega)
  | case4 => cases h; simp
  | case5 c more _ _ _ ih =>
    obtain ⟨⟨v, r⟩, hr, he⟩ := Option.map_eq_some_iff.mp h
    obtain ⟨-, rfl⟩ := Prod.mk.inj he
    exact Nat.le_trans (ih hr) (by simp only [List.length_cons]; omega)

theorem length_readValue_le {t value rest : Text} (h : readValue t = some (value, rest)) :
    rest.length ≤ t.length := by
  fun_cases readValue t with
  | case1 more => exact Nat.le_succ_of_le (length_readQuoted_le h)
  | case2 more => exact Nat.le_succ_of_le (length_readQuoted_le h)
  | case3 =>
    have := length_readBare_le t
    simp_all [readValue]

/-- An attribute takes at least its equals sign from the text. -/
theorem length_readOne_lt {t rest : Text} {pair : Text × Text}
    (h : readOne t = .ok (pair, rest)) : rest.length < t.length := by
  have hn := length_readBare_le t
  have hs := length_skipSpaces_le (readBare t).2
  simp only [readOne] at h
  split at h
  · rename_i more he
    split at h
    · rename_i value after hv
      cases h
      have hv := length_readValue_le hv
      have hm := length_skipSpaces_le more
      rw [he, List.length_cons] at hs
      omega
    · cases h
  · cases h
  · cases h

/-- The attributes up to the end of the tag, added to those already read, and the text at which
reading stopped. -/
def readFrom (found : Attributes) (t : Text) : Except Fault Attributes × Text :=
  if atTagEnd t.skipSpaces then (.ok found, t.skipSpaces)
  else if t.skipSpaces = [] then (.error .unterminatedAttribute, [])
  else
    match _h : readOne t.skipSpaces with
    | .ok ((name, value), rest) => readFrom (found.insert name value) rest
    | .error (fault, rest) => (.error fault, rest)
termination_by t.length
decreasing_by exact Nat.lt_of_lt_of_le (length_readOne_lt _h) (length_skipSpaces_le t)

theorem length_readOne_error_le {t rest : Text} {fault : Fault}
    (h : readOne t = .error (fault, rest)) : rest.length ≤ t.length := by
  have hn := length_readBare_le t
  have hs := length_skipSpaces_le (readBare t).2
  simp only [readOne] at h
  split at h
  · split at h
    · cases h
    · cases h
      exact Nat.zero_le _
  · cases h
    exact Nat.zero_le _
  · cases h
    exact Nat.le_trans hs hn

/-- Reading an attribute list never adds to the text. -/
theorem length_readFrom_le (found : Attributes) (t : Text) :
    (readFrom found t).2.length ≤ t.length := by
  have hs := length_skipSpaces_le t
  fun_induction readFrom found t with
  | case1 => exact hs
  | case2 => exact Nat.zero_le _
  | case3 found t _ _ name value rest hr ih =>
    have := length_readOne_lt hr
    have := ih (length_skipSpaces_le rest)
    omega
  | case4 found t _ _ fault rest hr => exact Nat.le_trans (length_readOne_error_le hr) hs

/-- The attributes up to the end of the tag, and the text at which reading stopped. -/
def read (t : Text) : Except Fault Attributes × Text := readFrom .empty t

end AttributeList

end ServerPages
