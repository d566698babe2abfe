import Mathlib.Data.List.Chain
import ServerPages.Proofs.Text.Line

/-!
# Texts cut at their line breaks

A text is a first line and further lines, each behind the line break that separates it from the line
before. Every text can be cut in this way, and in one way only, because a carriage return and a line
feed that follow each other directly count as one break. What is read line by line is therefore
known from the cut.
-/

namespace ServerPages

/-- No line break stands in a text. -/
def Text.IsLine (t : Text) : Prop := '\n' ∉ t ∧ '\r' ∉ t

instance (t : Text) : Decidable t.IsLine := inferInstanceAs (Decidable (_ ∧ _))

/-- A text that is cut at its line breaks. -/
@[ext]
structure Lined where
  /-- The first line. -/
  first : Text
  /-- The further lines, each with the break in front of it. -/
  rest : List (LineBreak × Text)
  /-- The first line holds no break. -/
  first_isLine : first.IsLine
  /-- Nor does any other. -/
  rest_isLine : ∀ next ∈ rest, next.2.IsLine
  /-- A carriage return is not told apart from a line feed directly behind it. -/
  paired : rest.IsChain fun next after => ¬ (next.1 = .cr ∧ next.2 = [] ∧ after.1 = .lf)

namespace Text

/-- The characters of a line break no line, and the rest of a line is a line. -/
theorem IsLine.of_cons {c : Char} {t : Text} (h : IsLine (c :: t)) :
    c ≠ '\n' ∧ c ≠ '\r' ∧ t.IsLine := by
  obtain ⟨hn, hr⟩ := h
  rw [List.mem_cons, not_or] at hn hr
  exact ⟨Ne.symm hn.1, Ne.symm hr.1, hn.2, hr.2⟩

/-- A line may begin with any character that breaks no line. -/
theorem IsLine.cons {c : Char} {t : Text} (hn : c ≠ '\n') (hr : c ≠ '\r') (h : t.IsLine) :
    IsLine (c :: t) := by
  constructor
  · exact List.not_mem_cons_of_ne_of_not_mem hn.symm h.1
  · exact List.not_mem_cons_of_ne_of_not_mem hr.symm h.2

theorem IsLine.sublist {t u : Text} (h : u.IsLine) (hs : t.Sublist u) : t.IsLine :=
  ⟨fun hm => h.1 (hs.subset hm), fun hm => h.2 (hs.subset hm)⟩

/-- A character that breaks no line belongs to the first line. -/
theorem firstBreak?_cons {c : Char} (hn : c ≠ '\n') (hr : c ≠ '\r') (t : Text) :
    firstBreak? (c :: t) = (firstBreak? t).map fun (line, found) => (c :: line, found) := by
  rw [firstBreak?]
  · exact fun _ h _ => hr h
  · exact hr
  · exact hn

/-- A character that breaks no line belongs to the first segment. -/
theorem segments_cons {c : Char} (hn : c ≠ '\n') (hr : c ≠ '\r') (t : Text) :
    segments (c :: t) = consFirst c (segments t) := by
  rw [segments]
  · exact fun _ h _ => hr h
  · exact hr
  · exact hn

/-- A character that breaks no line belongs to the first line of a text. -/
theorem lines_cons {c : Char} (hn : c ≠ '\n') (hr : c ≠ '\r') (t : Text) :
    lines (c :: t) = consFirst c (lines t) := by
  rw [lines]
  · exact fun _ h _ => hr h
  · exact hr
  · exact hn

section Break

variable {line t : Text} {ending : LineBreak} (hline : line.IsLine)
  (hpair : ending = .cr → t.head? ≠ some '\n')

include hline hpair

/-- The first break is the one behind the first line. -/
theorem firstBreak?_append : firstBreak? (line ++ (ending.text ++ t)) = some (line, ending, t) := by
  induction line with
  | nil =>
    cases ending with
    | lf => rfl
    | crlf => rfl
    | cr =>
      change firstBreak? ('\r' :: t) = _
      rw [firstBreak?]
      rintro more rfl
      exact hpair rfl rfl
  | cons c line ih =>
    obtain ⟨hn, hr, hrest⟩ := hline.of_cons
    rw [List.cons_append, firstBreak?_cons hn hr, ih hrest]
    rfl

/-- What follows the first break is cut on its own. -/
theorem segments_append : segments (line ++ (ending.text ++ t)) = line :: segments t := by
  induction line with
  | nil =>
    cases ending with
    | lf => rfl
    | crlf => rfl
    | cr =>
      change segments ('\r' :: t) = _
      rw [segments]
      rintro more rfl
      exact hpair rfl rfl
  | cons c line ih =>
    obtain ⟨hn, hr, hrest⟩ := hline.of_cons
    rw [List.cons_append, segments_cons hn hr, ih hrest]
    rfl

/-- A line with its line break is the first line of a text. -/
theorem lines_append : lines (line ++ (ending.text ++ t)) = line :: lines t := by
  induction line with
  | nil =>
    cases ending with
    | lf => rfl
    | crlf => rfl
    | cr =>
      change lines ('\r' :: t) = _
      rw [lines]
      rintro more rfl
      exact hpair rfl rfl
  | cons c line ih =>
    obtain ⟨hn, hr, hrest⟩ := hline.of_cons
    rw [List.cons_append, lines_cons hn hr, ih hrest]
    rfl

end Break

/-- A line is a single segment. -/
theorem segments_line {line : Text} (h : line.IsLine) : segments line = [line] := by
  induction line with
  | nil => rfl
  | cons c line ih =>
    obtain ⟨hn, hr, hrest⟩ := h.of_cons
    rw [segments_cons hn hr, ih hrest]
    rfl

end Text

namespace Lined

/-- The text that is cut. -/
def text (l : Lined) : Text := l.first ++ l.rest.flatMap fun next => next.1.text ++ next.2

/-- The lines behind the first one. -/
def further (l : Lined) : List Text := l.rest.map Prod.snd

/-- The break behind the first line, if there is one. -/
def ending? (l : Lined) : Option LineBreak := l.rest.head?.map Prod.fst

/-- A single line. -/
def single (line : Text) (h : line.IsLine) : Lined :=
  ⟨line, [], h, fun _ hm => absurd hm List.not_mem_nil, List.isChain_nil⟩

/-- The first character of a cut text is a line feed only if the first line is empty and the first
break is a line feed. -/
theorem head?_text_eq_lf_iff (l : Lined) :
    l.text.head? = some '\n' ↔ l.first = [] ∧ l.ending? = some .lf := by
  obtain ⟨first, rest, hfirst, -, -⟩ := l
  cases first with
  | cons c first =>
    have hc := hfirst.of_cons.1
    simp [text, hc]
  | nil =>
    rcases rest with - | ⟨⟨ending, line⟩, rest⟩
    · simp [text, ending?]
    · cases ending <;> simp [text, ending?, LineBreak.text]

/-- A line above a cut text. -/
def above (line : Text) (h : line.IsLine) (ending : LineBreak) (l : Lined)
    (hpair : ending = .cr → l.text.head? ≠ some '\n') : Lined where
  first := line
  rest := (ending, l.first) :: l.rest
  first_isLine := h
  rest_isLine := List.forall_mem_cons.mpr ⟨l.first_isLine, l.rest_isLine⟩
  paired := by
    refine List.isChain_cons.mpr ⟨?_, l.paired⟩
    rintro after hafter ⟨hcr, hempty, hlf⟩
    apply hpair hcr
    rw [head?_text_eq_lf_iff, ending?, Option.mem_def.mp hafter]
    exact ⟨hempty, congrArg some hlf⟩

@[simp] theorem text_single (line : Text) (h : line.IsLine) : (single line h).text = line :=
  List.append_nil line

@[simp] theorem text_above (line : Text) (h : line.IsLine) (ending : LineBreak) (l : Lined)
    (hpair : ending = .cr → l.text.head? ≠ some '\n') :
    (above line h ending l hpair).text = line ++ (ending.text ++ l.text) := by
  simp [text, above]

/-- A cut text is a single line, or a line above a cut text. -/
@[elab_as_elim]
theorem induction {motive : Lined → Prop} (single : ∀ line h, motive (single line h))
    (above : ∀ line h ending l hpair, motive l → motive (above line h ending l hpair))
    (l : Lined) : motive l := by
  obtain ⟨first, rest, hfirst, hrest, hpaired⟩ := l
  induction rest generalizing first with
  | nil => exact single first hfirst
  | cons next rest ih =>
    obtain ⟨ending, line⟩ := next
    obtain ⟨hnext, hchain⟩ := List.isChain_cons.mp hpaired
    obtain ⟨hline, hlines⟩ := List.forall_mem_cons.mp hrest
    let l : Lined := ⟨line, rest, hline, hlines, hchain⟩
    have hpair : ending = .cr → l.text.head? ≠ some '\n' := by
      intro hcr hhead
      obtain ⟨hempty, hending⟩ := (head?_text_eq_lf_iff l).mp hhead
      obtain ⟨after, hafter, hlf⟩ := Option.map_eq_some_iff.mp hending
      exact hnext after hafter ⟨hcr, hempty, hlf⟩
    exact above first hfirst ending l hpair (ih line hline hlines hchain)

/-- The segments of a text are its lines. -/
theorem segments_text (l : Lined) : Text.segments l.text = l.first :: l.further := by
  induction l using induction with
  | single line h =>
    rw [text_single, Text.segments_line h]
    rfl
  | above line h ending l hpair ih =>
    rw [text_above, Text.segments_append h hpair, ih]
    rfl

/-- Every text can be cut at its line breaks. -/
theorem exists_text_eq (t : Text) : ∃ l : Lined, l.text = t := by
  have hnil : Text.IsLine [] := ⟨List.not_mem_nil, List.not_mem_nil⟩
  fun_induction Text.segments t with
  | case1 => exact ⟨single [] hnil, rfl⟩
  | case2 rest ih =>
    obtain ⟨l, rfl⟩ := ih
    exact ⟨above [] hnil .crlf l (fun h => by cases h), text_above ..⟩
  | case3 rest hrest ih =>
    obtain ⟨l, rfl⟩ := ih
    refine ⟨above [] hnil .cr l fun _ hhead => ?_, text_above ..⟩
    obtain ⟨more, hmore⟩ := List.head?_eq_some_iff.mp hhead
    exact hrest more hmore
  | case4 rest ih =>
    obtain ⟨l, rfl⟩ := ih
    exact ⟨above [] hnil .lf l (fun h => by cases h), text_above ..⟩
  | case5 c rest _ hr hn ih =>
    obtain ⟨l, rfl⟩ := ih
    exact ⟨⟨c :: l.first, l.rest, l.first_isLine.cons hn hr, l.rest_isLine, l.paired⟩, rfl⟩

/-- A text can be cut in one way only. -/
theorem text_injective {l l' : Lined} (h : l.text = l'.text) : l = l' := by
  induction l using induction generalizing l' with
  | single line hline =>
    cases l' using induction with
    | single line' hline' =>
      simp only [text_single] at h
      subst h
      rfl
    | above line' hline' ending l' hpair =>
      have hfirst := Text.firstBreak?_append hline' hpair
      rw [← text_above line' hline' ending l' hpair, ← h, text_single,
        Text.firstBreak?_eq_none hline.1 hline.2] at hfirst
      cases hfirst
  | above line hline ending l hpair ih =>
    have hfirst := Text.firstBreak?_append hline hpair
    rw [← text_above line hline ending l hpair, h] at hfirst
    cases l' using induction with
    | single line' hline' =>
      rw [text_single, Text.firstBreak?_eq_none hline'.1 hline'.2] at hfirst
      cases hfirst
    | above line' hline' ending' l' hpair' =>
      rw [text_above, Text.firstBreak?_append hline' hpair'] at hfirst
      obtain ⟨rfl, hrest⟩ := Prod.mk.inj (Option.some.inj hfirst)
      obtain ⟨rfl, htext⟩ := Prod.mk.inj hrest
      obtain rfl := ih htext.symm
      rfl

/-- Where a text has a line break, there is one behind its first line. -/
theorem exists_ending? {l : Lined} (h : ¬ l.text.IsLine) : ∃ ending, l.ending? = some ending := by
  cases l using induction with
  | single line hline => exact absurd hline (by rwa [text_single] at h)
  | above line hline ending below hpair => exact ⟨ending, rfl⟩

end Lined

end ServerPages
