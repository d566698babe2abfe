import ServerPages.Page.Fragment
import ServerPages.Proofs.Code.Role

/-!
# Scripts that open a block

With blocks by indentation, a script is meant to open a block if its last statement ends in a colon.
Whether it does is decided on its last line that is not blank, from which everything behind the
first number sign is dropped. That is the line of the last statement, and the sign begins its
comment, unless the line is a comment alone or the sign stands in a string.
-/

namespace ServerPages

namespace CodeContext

/-- Only a comment takes the rest of a line. -/
theorem comment_of_read {x : CodeContext} {c : Char} {rest : Text} (hx : x.comment = false)
    (h : (x.read c rest).1 ≠ .comment) : (x.read c rest).2.comment = false := by
  revert h
  fun_cases read x c rest <;> grind [BraceSyntax.context]

/-- A number sign stands in a string, or begins a comment. -/
theorem role_of_read_hash {x : CodeContext} {rest : Text} (hx : x.comment = false) :
    (x.read '#' rest).1 = .string ∨ (x.read '#' rest).1 = .comment := by
  fun_cases read x '#' rest <;> grind

/-- If no number sign stands in a string, the first one begins the comment. -/
theorem map_fst_takeWhile_mark {x : CodeContext} (hx : x.comment = false) {t : Text}
    (h : ('#', Role.string) ∉ (x.mark t).1) :
    ((x.mark t).1.takeWhile fun m => m.2 ≠ .comment).map Prod.fst = t.takeWhile (· ≠ '#') := by
  induction t generalizing x with
  | nil => rfl
  | cons c t ih =>
    rcases hread : x.read c t with ⟨role, next⟩
    rw [mark_cons hread, Prod.map_fst] at h ⊢
    rw [List.mem_cons, not_or] at h
    by_cases hrole : role = .comment
    · have hc : c = '#' := of_read_eq_comment hx (by rw [hread, hrole])
      rw [List.takeWhile_cons_of_neg (by simp [hrole]), List.takeWhile_cons_of_neg (by simp [hc])]
      rfl
    · have hc : c ≠ '#' := by
        rintro rfl
        have hcases := @role_of_read_hash x t hx
        rw [hread] at hcases
        rcases hcases with rfl | rfl
        · exact h.1 rfl
        · exact hrole rfl
      have hnext : next.comment = false := by
        have hkept := @comment_of_read x c t hx
        rw [hread] at hkept
        exact hkept hrole
      rw [List.takeWhile_cons_of_pos (by simp [hrole]), List.takeWhile_cons_of_pos (by simp [hc]),
        List.map_cons, ih hnext h.2]

end CodeContext

namespace Script

/-- A line of code without its comment, nothing being open before it. -/
def statement (line : Text) : Text :=
  ((({} : CodeContext).mark line).1.takeWhile fun m => m.2 ≠ .comment).map Prod.fst

/-- The last line that holds more than blanks and a comment. -/
def lastStatement? (lines : List Text) : Option Text :=
  lines.reverse.find? fun line => !(statement line).isBlank

/-- Whether a line ends in a colon, apart from its comment and the blanks before it. -/
def endsInColon (line : Text) : Bool := (statement line).trimEnd.getLast? = some ':'

/-- The last line that is not blank. -/
def lastLine? (lines : List Text) : Option Text :=
  lines.reverse.find? fun line => !Text.isBlank line

/-- The code of a script as it is written with blocks by indentation. -/
def bodyText (code : Text) : Text := (dropSingleSpace (Margin.remove code)).unescapeClose

/-- The lines of a script as they are written with blocks by indentation. -/
def bodyLines (code : Text) : List Text := (handOn (bodyText code).lines).1

/-- A line that is no comment alone, and with no number sign in its strings. -/
def IsPlainEnd (line : Text) : Prop :=
  (statement line).isBlank = false ∧ ('#', Role.string) ∉ (({} : CodeContext).mark line).1

/-- The statement of a line is what is left of it without a comment. -/
theorem statement_sublist (line : Text) : (statement line).Sublist line := by
  have h := (List.takeWhile_sublist (fun m : Char × Role => decide (m.2 ≠ .comment))
    (l := (({} : CodeContext).mark line).1)).map Prod.fst
  rwa [CodeContext.map_fst_mark] at h

theorem isBlank_of_statement {line : Text} (h : line.isBlank = true) :
    (statement line).isBlank = true :=
  List.all_eq_true.mpr fun c hc => List.all_eq_true.mp h c ((statement_sublist line).subset hc)

/-- Where the last line is plain, the last statement is found on it. -/
theorem lastStatement?_eq_lastLine? {lines : List Text}
    (h : ∀ line ∈ lastLine? lines, IsPlainEnd line) : lastStatement? lines = lastLine? lines := by
  rw [lastLine?] at h
  rw [lastStatement?, lastLine?]
  generalize lines.reverse = backwards at h ⊢
  induction backwards with
  | nil => rfl
  | cons line others ih =>
    by_cases hb : line.isBlank = true
    · rw [List.find?_cons_of_neg (by simp [hb])] at h
      rw [List.find?_cons_of_neg (by simp [isBlank_of_statement hb]),
        List.find?_cons_of_neg (by simp [hb]), ih h]
    · rw [List.find?_cons_of_pos (by simpa using hb)] at h
      rw [List.find?_cons_of_pos (by simp [(h line rfl).1]),
        List.find?_cons_of_pos (by simpa using hb)]

/-- A block is opened by a colon at the end of the last line that is not blank, in front of the
first number sign. -/
theorem opensBlock_eq_any (lines : List Text) :
    opensBlock lines = (lastLine? lines).any fun last =>
      (Text.trimEnd (last.takeWhile (· ≠ '#'))).getLast? = some ':' := by
  unfold opensBlock
  split
  · rename_i last hlast
    rw [lastLine?, hlast, Option.any_some]
  · rename_i hlast
    rw [lastLine?, hlast, Option.any_none]

/-- Where the last line is plain, it is read as its last statement. -/
theorem opensBlock_eq {lines : List Text} (h : ∀ line ∈ lastLine? lines, IsPlainEnd line) :
    opensBlock lines = (lastStatement? lines).any endsInColon := by
  rw [lastStatement?_eq_lastLine? h, opensBlock_eq_any]
  cases hl : lastLine? lines with
  | none => rfl
  | some last =>
    have hstatement : statement last = last.takeWhile (· ≠ '#') :=
      CodeContext.map_fst_takeWhile_mark rfl (h last hl).2
    rw [Option.any_some, Option.any_some, endsInColon, hstatement]

/-- Handing on an indentation adds no characters to the lines. -/
theorem mem_of_mem_handOn {c : Char} {lines : List Text} :
    ∀ line ∈ (handOn lines).1, c ∈ line → ∃ other ∈ lines, c ∈ other := by
  unfold handOn
  split
  · simp
  · rename_i last before hlines
    have hmem : ∀ line, line ∈ last :: before → line ∈ lines := by
      intro line hl
      rwa [← hlines, List.mem_reverse] at hl
    split
    · intro line hl hc
      rcases List.mem_append.mp hl with hl | hl
      · exact ⟨line, hmem line (List.mem_cons_of_mem last (List.mem_reverse.mp hl)), hc⟩
      · rw [List.mem_singleton.mp hl] at hc
        exact ⟨last, hmem last List.mem_cons_self, List.dropLast_subset last hc⟩
    · exact fun line hl hc => ⟨line, hl, hc⟩

/-- A script that opens a block has a colon. -/
theorem colon_mem_of_opensBlock {code : Text} (h : opensBlock (bodyLines code) = true) :
    ':' ∈ bodyText code := by
  rw [opensBlock_eq_any, Option.any_eq_true] at h
  obtain ⟨last, hlast, hends⟩ := h
  have hcolon : ':' ∈ last := by
    have hm := List.mem_of_getLast? (of_decide_eq_true hends)
    exact (List.takeWhile_sublist _).subset ((Text.trimEnd_sublist _).subset hm)
  have hl : last ∈ bodyLines code := List.mem_reverse.mp (List.mem_of_find?_eq_some hlast)
  obtain ⟨line, hline, hc⟩ := mem_of_mem_handOn last hl hcolon
  exact Text.mem_of_mem_lines line hline hc

/-- A script that opens a block is not the one that closes a block. -/
theorem trim_ne_pass {code : Text} (h : opensBlock (bodyLines code) = true) :
    (bodyText code).trim ≠ "pass" := by
  intro hpass
  have hcolon := Text.mem_trim (by decide) (colon_mem_of_opensBlock h)
  rw [hpass] at hcolon
  exact absurd hcolon (by decide)

/-- The printer behind the lines of a script, before a block is opened or closed. -/
def afterLines (p : Printer) (code : Text) : Printer :=
  (p.setUserIndent []).writeLines (bodyLines code)

theorem depth_afterLines (p : Printer) (code : Text) : (afterLines p code).depth = p.depth :=
  ((Printer.Appends.refl (p.setUserIndent [])).writeLines (bodyLines code)).depth_eq

theorem blockCount_afterLines (p : Printer) (code : Text) :
    (afterLines p code).blockCount = p.blockCount :=
  ((Printer.Appends.refl (p.setUserIndent [])).writeLines (bodyLines code)).blockCount_eq

/-- A script writes its lines, and then it may open a block or close one. -/
theorem writeIndented_eq_afterLines (p : Printer) (code : Text) :
    writeIndented p code =
      (let q := if opensBlock (bodyLines code) then (afterLines p code).openBlock
        else afterLines p code
      if (bodyText code).trim = "pass" ∧ 0 < q.blockCount then q.closeBlock
        else q).setUserIndent (handOn (bodyText code).lines).2 := rfl

/-- A script that opens a block does so behind its lines. -/
theorem writeIndented_of_opensBlock (p : Printer) {code : Text}
    (h : opensBlock (bodyLines code) = true) :
    writeIndented p code =
      (afterLines p code).openBlock.setUserIndent (handOn (bodyText code).lines).2 := by
  have hq := writeIndented_eq_afterLines p code
  rw [h, if_pos rfl] at hq
  dsimp only at hq
  rwa [if_neg fun hp => trim_ne_pass h hp.1] at hq

/-- A script that opens no block closes at most one. -/
theorem exists_writeIndented_eq (p : Printer) {code : Text}
    (h : opensBlock (bodyLines code) = false) :
    ∃ q, (q = afterLines p code ∨ q = (afterLines p code).closeBlock) ∧
      writeIndented p code = q.setUserIndent (handOn (bodyText code).lines).2 := by
  have hq := writeIndented_eq_afterLines p code
  rw [h, if_neg Bool.false_ne_true] at hq
  refine ⟨_, ?_, hq⟩
  dsimp only
  split
  · exact .inr rfl
  · exact .inl rfl

/-- All that a script writes are its lines. -/
theorem written_writeIndented (p : Printer) (code : Text) :
    (writeIndented p code).written = (afterLines p code).written := by
  cases h : opensBlock (bodyLines code) with
  | true =>
    rw [writeIndented_of_opensBlock p h]
    rfl
  | false =>
    obtain ⟨q, rfl | rfl, hq⟩ := exists_writeIndented_eq p h
    · rw [hq]
      rfl
    · rw [hq]
      exact Printer.written_closeBlock (afterLines p code)

/-- A block is opened in the depth and in the count of blocks, or in neither. -/
theorem writeIndented_opens_iff (p : Printer) (code : Text) :
    ((writeIndented p code).depth = p.depth + 1 ↔ opensBlock (bodyLines code) = true) ∧
      ((writeIndented p code).blockCount = p.blockCount + 1 ↔
        opensBlock (bodyLines code) = true) := by
  have hdepth := depth_afterLines p code
  have hcount := blockCount_afterLines p code
  cases h : opensBlock (bodyLines code) with
  | true =>
    rw [writeIndented_of_opensBlock p h]
    rw [← hdepth, ← hcount]
    exact ⟨iff_of_true rfl rfl, iff_of_true rfl rfl⟩
  | false =>
    have hle : (writeIndented p code).depth ≤ p.depth ∧
        (writeIndented p code).blockCount ≤ p.blockCount := by
      rw [← hdepth, ← hcount]
      obtain ⟨q, rfl | rfl, hq⟩ := exists_writeIndented_eq p h
      · rw [hq]
        exact ⟨Nat.le_refl _, Nat.le_refl _⟩
      · rw [hq]
        exact ⟨Printer.depth_closeBlock_le (afterLines p code), Nat.sub_le _ _⟩
    have hne : ¬ false = true := Bool.false_ne_true
    exact ⟨iff_of_false (by omega) hne, iff_of_false (by omega) hne⟩

end Script

namespace Fragment

/-- With blocks by indentation, a script opens a block just if its last line that is not blank, cut
at its first number sign, ends in a colon. The last statement then ends in this colon, provided that
the line is no comment alone and has no number sign in a string. -/
theorem emit_script_opens_iff {p : Printer} (hstyle : p.style ≠ .braces) (code : Text)
    (span? : Option Span) :
    ∃ q, (script code span?).emit p = (none, q) ∧
      q.written = ((p.setUserIndent []).writeLines (Script.bodyLines code)).written ∧
      (q.depth = p.depth + 1 ↔ Script.opensBlock (Script.bodyLines code) = true) ∧
      (q.blockCount = p.blockCount + 1 ↔ Script.opensBlock (Script.bodyLines code) = true) ∧
      (Script.opensBlock (Script.bodyLines code) = true ↔
        ∃ line, Script.lastLine? (Script.bodyLines code) = some line ∧
          (Text.trimEnd (line.takeWhile (· ≠ '#'))).getLast? = some ':') ∧
      ((∀ line ∈ Script.lastLine? (Script.bodyLines code), Script.IsPlainEnd line) →
        (Script.opensBlock (Script.bodyLines code) = true ↔
          ∃ line, Script.lastStatement? (Script.bodyLines code) = some line ∧
            Script.endsInColon line = true)) := by
  have hwrite : Script.write p code = (none, Script.writeIndented p code) := if_neg hstyle
  obtain ⟨hdepth, hcount⟩ := Script.writeIndented_opens_iff p code
  refine ⟨Script.writeIndented p code, ?_, Script.written_writeIndented p code, hdepth, hcount,
    ?_, fun hend => ?_⟩
  · rw [emit, hwrite]
    rfl
  · simp only [Script.opensBlock_eq_any, Option.any_eq_true, decide_eq_true_eq]
  · rw [Script.opensBlock_eq hend, Option.any_eq_true]

/-- A colon that stands before a comment with a quote, and a last line with the dollar sign only. -/
theorem emit_script_opens_commented :
    Script.bodyLines "xs = [':']\nfor x in xs :\t# of '#'\n  $" =
        ["xs = [':']".toList, "for x in xs :\t# of '#'".toList, "  ".toList] ∧
      Script.IsPlainEnd "for x in xs :\t# of '#'" ∧
      ∃ q, (script "xs = [':']\nfor x in xs :\t# of '#'\n  $" none).emit (.start .tabs 4) =
        (none, q) ∧ q.depth = 1 ∧ q.blockCount = 1 := by
  have hlines : Script.bodyLines "xs = [':']\nfor x in xs :\t# of '#'\n  $" =
      ["xs = [':']".toList, "for x in xs :\t# of '#'".toList, "  ".toList] := by decide +kernel
  have hplain : Script.IsPlainEnd "for x in xs :\t# of '#'" :=
    ⟨by decide +kernel, by decide +kernel⟩
  have hend : ∀ line ∈ Script.lastLine?
      (Script.bodyLines "xs = [':']\nfor x in xs :\t# of '#'\n  $"), Script.IsPlainEnd line := by
    rw [hlines]
    rintro line ⟨⟩
    exact hplain
  obtain ⟨q, hq, -, hdepth, hcount, -, hmeets⟩ :=
    emit_script_opens_iff (p := .start .tabs 4) (by decide)
      "xs = [':']\nfor x in xs :\t# of '#'\n  $" none
  have hcolon : ∃ line, Script.lastStatement?
      ["xs = [':']".toList, "for x in xs :\t# of '#'".toList, "  ".toList] = some line ∧
        Script.endsInColon line = true :=
    ⟨"for x in xs :\t# of '#'".toList, by decide +kernel, by decide +kernel⟩
  have hopens := (hmeets hend).mpr (by rw [hlines]; exact hcolon)
  exact ⟨hlines, hplain, q, hq, hdepth.mpr hopens, hcount.mpr hopens⟩

/-- A number sign in a string hides the colon behind it, and so does a comment on a line of its
own. -/
theorem emit_script_misses_colon :
    (Script.lastStatement? (Script.bodyLines "if x == '#':")).any Script.endsInColon = true ∧
      ((script "if x == '#':" none).emit (.start .tabs 4)).2.depth = 0 ∧
      (Script.lastStatement? (Script.bodyLines "if x:\n# note")).any Script.endsInColon = true ∧
      ((script "if x:\n# note" none).emit (.start .tabs 4)).2.depth = 0 := by
  decide +kernel

end Fragment

end ServerPages
