import Mathlib.Data.Prod.Lex
import Mathlib.Order.Monotone.Defs
import ServerPages.Proofs.Input.Address

/-!
# Positions identify offsets

The position of an offset counts the line feeds in front of it, and its column counts the bytes
behind the last of them. Both are read off the same text, cut behind its last line feed, so no two
offsets of a file share a position, and a greater offset has a later position. In the UTF-8 form of
the file a line begins at its start or behind the octet of a line feed, which occurs in the form of
no other character.
-/

namespace ServerPages

namespace Encoding

/-- The octet of a line feed. -/
def lineFeed : UInt8 := 0x0a

/-- The loop puts the octets from some place on behind those that it has found. -/
theorem toList_loop_eq_append (octets : ByteArray) (i : Nat) (found : List UInt8) :
    ByteArray.toList.loop octets i found = found.reverse ++ octets.data.toList.drop i := by
  fun_induction ByteArray.toList.loop octets i found with
  | case1 i found hi ih =>
    have hlt : i < octets.data.toList.length := hi
    rw [ih, List.drop_eq_getElem_cons hlt, List.reverse_cons, List.append_assoc]
    simp [ByteArray.get!, hi]
  | case2 i found hi =>
    have hle : octets.data.toList.length ≤ i := Nat.le_of_not_lt hi
    rw [List.drop_eq_nil_of_le hle, List.append_nil]

/-- A text is written character by character. -/
theorem encode_eq_flatMap (t : Text) : encode t = t.flatMap String.utf8EncodeChar := by
  rw [encode, ByteArray.toList, toList_loop_eq_append]
  exact List.toList_data_toByteArray

theorem encode_cons (c : Char) (t : Text) :
    encode (c :: t) = String.utf8EncodeChar c ++ encode t := by
  rw [encode_eq_flatMap, encode_eq_flatMap, List.flatMap_cons]

theorem encode_append (t u : Text) : encode (t ++ u) = encode t ++ encode u := by
  simp only [encode_eq_flatMap, List.flatMap_append]

/-- The length of a text in bytes is the number of octets that it is written with. -/
theorem length_encode (t : Text) : (encode t).length = t.byteLength := by
  induction t with
  | nil => rw [encode_eq_flatMap]; rfl
  | cons c t ih =>
    rw [encode_cons, List.length_append, ih, String.length_utf8EncodeChar, Text.byteLength_cons]

/-- An octet that is the line feed has its number. -/
theorem eq_ten_of_ofNat_eq {n : Nat} (hn : n < 256) (h : lineFeed = UInt8.ofNat n) : n = 10 := by
  have htoNat := congrArg UInt8.toNat h
  rw [UInt8.toNat_ofNat', Nat.mod_eq_of_lt hn] at htoNat
  exact htoNat.symm

/-- The octets of a character that has several of them are at least 128. -/
theorem lineFeed_ne_ofNat_add {n least : Nat} (hleast : 128 ≤ least) (hn : n + least < 256) :
    ¬ lineFeed = UInt8.ofNat (n + least) := by
  intro h
  have hten := eq_ten_of_ofNat_eq hn h
  omega

/-- The octet of a line feed occurs in the form of no other character. -/
theorem lineFeed_not_mem_utf8EncodeChar {c : Char} (hc : c ≠ '\n') :
    lineFeed ∉ String.utf8EncodeChar c := by
  fun_cases String.utf8EncodeChar c with
  | case1 v hv =>
    intro hmem
    have hten : c.val.toNat = 10 := eq_ten_of_ofNat_eq (by omega) (List.mem_singleton.mp hmem)
    exact hc (Char.ext (UInt32.toNat_inj.mp hten))
  | case2 v =>
    simp only [List.mem_cons, List.not_mem_nil, or_false, not_or]
    exact ⟨lineFeed_ne_ofNat_add (by decide) (by omega),
      lineFeed_ne_ofNat_add (by decide) (by omega)⟩
  | case3 v =>
    simp only [List.mem_cons, List.not_mem_nil, or_false, not_or]
    exact ⟨lineFeed_ne_ofNat_add (by decide) (by omega),
      lineFeed_ne_ofNat_add (by decide) (by omega), lineFeed_ne_ofNat_add (by decide) (by omega)⟩
  | case4 v =>
    simp only [List.mem_cons, List.not_mem_nil, or_false, not_or]
    exact ⟨lineFeed_ne_ofNat_add (by decide) (by omega),
      lineFeed_ne_ofNat_add (by decide) (by omega), lineFeed_ne_ofNat_add (by decide) (by omega),
      lineFeed_ne_ofNat_add (by decide) (by omega)⟩

/-- Line feeds, and they alone, are written with the octet of a line feed. -/
theorem count_encode (t : Text) : (encode t).count lineFeed = t.count '\n' := by
  induction t with
  | nil => rw [encode_eq_flatMap]; rfl
  | cons c t ih =>
    rw [encode_cons, List.count_append, ih]
    by_cases hc : c = '\n'
    · subst hc
      rw [List.count_cons_self, Nat.add_comm]
      rfl
    · rw [List.count_eq_zero.mpr (lineFeed_not_mem_utf8EncodeChar hc), Nat.zero_add,
        List.count_cons_of_ne hc]

end Encoding

namespace Text

/-- The beginning of a text up to its last line feed, which is the end of it. -/
def wholeLines (t : Text) : Text := (t.reverse.dropWhile (· ≠ '\n')).reverse

/-- What follows the last line feed of a text. -/
def lastLine (t : Text) : Text := (t.reverse.takeWhile (· ≠ '\n')).reverse

theorem wholeLines_append_lastLine (t : Text) : t.wholeLines ++ t.lastLine = t := by
  rw [wholeLines, lastLine, ← List.reverse_append, List.takeWhile_append_dropWhile,
    List.reverse_reverse]

/-- The last line holds no line feed. -/
theorem newline_not_mem_lastLine (t : Text) : '\n' ∉ t.lastLine := by
  intro hmem
  have hne := List.all_eq_true.mp List.all_takeWhile _ (List.mem_reverse.mp hmem)
  simp at hne

/-- Whole lines end in a line feed. -/
theorem wholeLines_eq_nil_or (t : Text) :
    t.wholeLines = [] ∨ ∃ front, t.wholeLines = front ++ ['\n'] := by
  rw [wholeLines]
  cases h : t.reverse.dropWhile (· ≠ '\n') with
  | nil => exact .inl rfl
  | cons c rest =>
    have hc := List.head?_dropWhile_not (fun c : Char => decide (c ≠ '\n')) t.reverse
    rw [h] at hc
    obtain rfl : c = '\n' := by simpa using hc
    exact .inr ⟨rest.reverse, List.reverse_cons⟩

/-- A line grows by what is added to it. -/
theorem lastLine_append {u : Text} (h : '\n' ∉ u) (t : Text) :
    lastLine (t ++ u) = t.lastLine ++ u := by
  have hall : ∀ c ∈ u.reverse, decide (c ≠ '\n') = true := by
    intro c hc
    rw [decide_eq_true_iff]
    rintro rfl
    exact h (List.mem_reverse.mp hc)
  rw [lastLine, List.reverse_append, List.takeWhile_append_of_pos hall, List.reverse_append,
    List.reverse_reverse, lastLine]

theorem count_wholeLines (t : Text) : t.wholeLines.count '\n' = t.count '\n' := by
  have hsplit := congrArg (List.count '\n') t.wholeLines_append_lastLine
  rwa [List.count_append, List.count_eq_zero.mpr t.newline_not_mem_lastLine] at hsplit

/-- The order of the characters does not matter for the length. -/
theorem byteLength_reverse (t : Text) : byteLength t.reverse = t.byteLength := by
  induction t with
  | nil => rfl
  | cons c t ih =>
    rw [List.reverse_cons, byteLength_append, ih, byteLength_cons, byteLength_cons, byteLength_nil,
      Nat.add_zero, Nat.add_comm]

/-- A text that is not longer is taken as a whole. -/
theorem takeBytes_of_byteLength_le {t : Text} {n : Nat} (h : t.byteLength ≤ n) :
    takeBytes n t = t := by
  induction t generalizing n with
  | nil => rfl
  | cons c t ih =>
    rw [byteLength_cons] at h
    rw [takeBytes, if_pos (by omega), ih (by omega)]

end Text

namespace Position

/-- The line and the column of a position, which are compared in this order. -/
def place (p : Position) : Nat ×ₗ Nat := toLex (p.line, p.column)

/-- What a position says about an offset of a file whose octets are given. -/
structure Marks (p : Position) (octets : Octets) (offset : Nat) : Prop where
  /-- It is a position of this offset. -/
  offset_eq : p.offset = offset
  /-- Its line begins at the offset or before. -/
  lineStart_le : p.lineStart ≤ p.offset
  /-- No line ends between the two. -/
  same_line : ∀ i, p.lineStart ≤ i → i < p.offset → octets[i]? ≠ some Encoding.lineFeed
  /-- A line begins there: at the beginning of the file or behind a line feed. -/
  begins_line : p.lineStart = 0 ∨ octets[p.lineStart - 1]? = some Encoding.lineFeed
  /-- The line feeds in front of the line are those of the lines before. -/
  line_eq : p.line - 1 = (octets.take p.lineStart).count Encoding.lineFeed

/-- A position on the line behind some whole lines. -/
theorem marks_of_cut (file : Text) {above line : Text} (rest : Text)
    (habove : above = [] ∨ ∃ front, above = front ++ ['\n']) (hline : '\n' ∉ line) :
    Marks ⟨file, above.count '\n' + 1, above.byteLength, (above ++ line).byteLength⟩
      (Encoding.encode (above ++ (line ++ rest))) (above ++ line).byteLength := by
  have hlength := Encoding.length_encode above
  simp only [Encoding.encode_append]
  constructor
  · rfl
  · simp only [Text.byteLength_append]
    exact Nat.le_add_right ..
  · intro i hfirst hlast hfeed
    simp only [Text.byteLength_append] at hfirst hlast
    -- The octet belongs to the line, which has no line feed.
    have hinside : i - above.byteLength < (Encoding.encode line).length := by
      rw [Encoding.length_encode]
      omega
    rw [List.getElem?_append_right (by omega), hlength, List.getElem?_append_left hinside] at hfeed
    have hcount := Encoding.count_encode line
    rw [List.count_eq_zero.mpr hline, List.count_eq_zero] at hcount
    exact hcount (List.mem_of_getElem? hfeed)
  · rcases habove with rfl | ⟨front, rfl⟩
    · exact .inl rfl
    · right
      have hfeed : Encoding.encode ['\n'] = [Encoding.lineFeed] := by
        rw [Encoding.encode_eq_flatMap]
        rfl
      rw [← hlength, Encoding.encode_append, hfeed, List.append_assoc, List.length_append,
        List.length_singleton, Nat.add_sub_cancel, List.getElem?_append_right (Nat.le_refl _),
        Nat.sub_self]
      rfl
  · rw [Nat.add_sub_cancel, ← hlength, List.take_left, Encoding.count_encode]

section Cut

variable (file before rest : Text)

/-- The position behind the beginning of a text. -/
theorem ofOffset_byteLength :
    ofOffset file (before ++ rest) before.byteLength =
      ⟨file, before.wholeLines.count '\n' + 1, before.wholeLines.byteLength,
        before.byteLength⟩ := by
  have hsplit := congrArg Text.byteLength before.wholeLines_append_lastLine
  rw [Text.byteLength_append, Text.lastLine, Text.byteLength_reverse] at hsplit
  have hstart : before.byteLength - Text.byteLength (before.reverse.takeWhile (· ≠ '\n')) =
      before.wholeLines.byteLength := by omega
  have hle : before.byteLength ≤ (before ++ rest).byteLength := by
    rw [Text.byteLength_append]
    exact Nat.le_add_right ..
  simp only [ofOffset, Text.takeBytes_append, hstart, Nat.min_eq_left hle, Text.count_wholeLines]

/-- The column is the length of the last line in front. -/
theorem column_ofOffset_byteLength :
    (ofOffset file (before ++ rest) before.byteLength).column = before.lastLine.byteLength := by
  have hsplit := congrArg Text.byteLength before.wholeLines_append_lastLine
  rw [Text.byteLength_append] at hsplit
  rw [ofOffset_byteLength, column, ← hsplit, Nat.add_sub_cancel_left]

/-- The line number counts the line feeds in front. -/
theorem line_ofOffset_byteLength :
    (ofOffset file (before ++ rest) before.byteLength).line = before.count '\n' + 1 := by
  rw [ofOffset_byteLength, Text.count_wholeLines]

end Cut

/-- The position at which a character begins is right for the octets of the text. -/
theorem marks_ofOffset (file : Text) {text : Text} {offset : Nat} (h : text.IsBoundary offset) :
    (ofOffset file text offset).Marks (Encoding.encode text) offset := by
  obtain ⟨before, rest, rfl, rfl⟩ := h
  have hmarks := marks_of_cut file rest before.wholeLines_eq_nil_or before.newline_not_mem_lastLine
  rw [← List.append_assoc, before.wholeLines_append_lastLine] at hmarks
  rw [ofOffset_byteLength]
  exact hmarks

/-- A later offset has a later position: on a later line if a line ends between the two offsets, and
else further on the same line. -/
theorem place_lt_place (file : Text) {text : Text} {offset later : Nat}
    (h : text.IsBoundary offset) (hlater : text.IsBoundary later) (hlt : offset < later) :
    (ofOffset file text offset).place < (ofOffset file text later).place := by
  obtain ⟨before, rest, rfl, rfl⟩ := h
  obtain ⟨through, others, htext, rfl⟩ := hlater
  obtain ⟨between, rfl⟩ := Text.prefix_of_byteLength_le (List.prefix_append before rest)
    ⟨others, htext.symm⟩ (Nat.le_of_lt hlt)
  have hpos : 0 < Text.byteLength between := by
    rw [Text.byteLength_append] at hlt
    omega
  rw [place, place, Prod.Lex.toLex_lt_toLex, line_ofOffset_byteLength, column_ofOffset_byteLength,
    htext, line_ofOffset_byteLength, column_ofOffset_byteLength, List.count_append]
  by_cases hbreak : '\n' ∈ between
  · left
    have hcount := List.count_pos_iff.mpr hbreak
    change before.count '\n' + 1 < _
    omega
  · right
    rw [Text.lastLine_append hbreak, Text.byteLength_append, List.count_eq_zero.mpr hbreak]
    exact ⟨rfl, Nat.lt_add_of_pos_right hpos⟩

/-- Beyond the end of a text, the position is that of its end. -/
theorem ofOffset_of_byteLength_le (file : Text) {text : Text} {offset : Nat}
    (h : text.byteLength ≤ offset) :
    ofOffset file text offset = ofOffset file text text.byteLength := by
  simp only [ofOffset, Text.takeBytes_of_byteLength_le h,
    Text.takeBytes_of_byteLength_le (Nat.le_refl _), Nat.min_eq_right h, Nat.min_self]

/-- Line and column grow with the offset, so that no two offsets are shown at the same position. The
position of an offset names the line on which it lies, and beyond the end it is that of the end. -/
theorem ofOffset_identifies (file text : Text) :
    StrictMonoOn (fun offset => (ofOffset file text offset).place) {o | text.IsBoundary o} ∧
      Set.InjOn (fun offset =>
        ((ofOffset file text offset).line, (ofOffset file text offset).shownColumn))
        {o | text.IsBoundary o} ∧
      (∀ offset, text.IsBoundary offset →
        (ofOffset file text offset).Marks (Encoding.encode text) offset) ∧
      ∀ offset, text.byteLength ≤ offset →
        ofOffset file text offset = ofOffset file text text.byteLength := by
  have hmono : StrictMonoOn (fun offset => (ofOffset file text offset).place)
      {o | text.IsBoundary o} :=
    fun _ h _ hlater hlt => place_lt_place file h hlater hlt
  refine ⟨hmono, ?_, fun offset => marks_ofOffset file,
    fun offset => ofOffset_of_byteLength_le file⟩
  intro offset h other hother hshown
  obtain ⟨hline, hcolumn⟩ := Prod.mk.inj hshown
  apply hmono.injOn h hother
  exact congrArg toLex (Prod.ext hline (Nat.succ.inj hcolumn))

/-- Before and behind the line feed that ends the first line, at an empty line, and beyond the end
of a text without a final line feed. -/
theorem ofOffset_identifies_at_line_feeds :
    let text : Text := "é\n\nx"
    text.IsBoundary 2 ∧ text.IsBoundary 3 ∧ text.IsBoundary 4 ∧
      ofOffset [] text 2 = ⟨[], 1, 0, 2⟩ ∧ ofOffset [] text 3 = ⟨[], 2, 3, 3⟩ ∧
      (ofOffset [] text 2).place < (ofOffset [] text 3).place ∧
      ((ofOffset [] text 3).line, (ofOffset [] text 3).shownColumn) ≠
        ((ofOffset [] text 4).line, (ofOffset [] text 4).shownColumn) ∧
      (ofOffset [] text 4).Marks (Encoding.encode text) 4 ∧
      text.byteLength ≤ 9 ∧ ofOffset [] text 9 = ofOffset [] text 5 := by
  intro text
  obtain ⟨hmono, hinj, hmarks, hbeyond⟩ := ofOffset_identifies [] text
  have htwo : text.IsBoundary 2 := ⟨['é'], ['\n', '\n', 'x'], by decide, by decide⟩
  have hthree : text.IsBoundary 3 := ⟨['é', '\n'], ['\n', 'x'], by decide, by decide⟩
  have hfour : text.IsBoundary 4 := ⟨['é', '\n', '\n'], ['x'], by decide, by decide⟩
  refine ⟨htwo, hthree, hfour, by decide, by decide, hmono htwo hthree (by decide),
    fun hshown => ?_, hmarks 4 hfour, by decide, hbeyond 9 (by decide)⟩
  exact absurd (hinj hthree hfour hshown) (by decide)

end Position

end ServerPages
