import Mathlib.Data.List.SplitBy
import ServerPages.Proofs.Page.Tidy
import ServerPages.Proofs.Text.Line

/-!
# The normal form of texts

Merging makes one text of every run of neighbouring texts. Then blank texts between two scripts or
ends of blocks are dropped, all at once: whether a text is dropped is decided by its neighbours
before anything is dropped. Since these neighbours are no texts, they stay, and no text gets new
neighbours. One pass therefore leaves nothing that a further pass would drop, and nothing is lost
but blanks.
-/

namespace ServerPages.Fragment

/-- The characters of a text from the template. -/
def chars : Fragment → Text
  | text chars => chars
  | _ => []

/-- Whether two neighbours belong to one run of texts. -/
def bothTexts (f g : Fragment) : Bool := f.isText && g.isText

/-- One fragment in place of a run: a fragment that stands alone, or one text of all texts. -/
def whole : List Fragment → Fragment
  | [f] => f
  | run => text (run.flatMap chars)

/-- Whether the fragment at some place is a blank text, and both of its neighbours are scripts or
ends of blocks. -/
def isEnclosed (fragments : List Fragment) : Nat → Bool
  | 0 => false
  | i + 1 =>
    fragments[i]?.any isBoundary &&
      fragments[i + 1]?.any (fun f => f.isText && f.chars.isBlank) &&
      fragments[i + 2]?.any isBoundary

/-- A text is told by its characters. -/
theorem text_chars {f : Fragment} (h : f.isText = true) : text f.chars = f := by
  cases f with
  | text chars => rfl
  | _ => cases h

section Run

variable {f : Fragment} {run : List Fragment}
  (hrun : (f :: run).IsChain fun g next => bothTexts g next = true)

include hrun

/-- A run that begins with a text becomes a text. -/
theorem isText_whole : (whole (f :: run)).isText = f.isText := by
  cases run with
  | nil => rfl
  | cons g run =>
    have hboth := (List.isChain_cons_cons.mp hrun).1
    rw [bothTexts, Bool.and_eq_true] at hboth
    exact hboth.1.symm

/-- A run that begins with a text becomes the text of all its characters. -/
theorem whole_cons (hf : f.isText = true) :
    whole (f :: run) = text (f.chars ++ run.flatMap chars) := by
  cases run with
  | nil => rw [List.flatMap_nil, List.append_nil, text_chars hf, whole]
  | cons g run => rfl

/-- A run is merged on its own unless texts meet at its end. -/
theorem mergeTexts_run {rest : List Fragment}
    (hend : ((f :: run).getLast (List.cons_ne_nil f run)).isText = true →
      ∀ g ∈ (mergeTexts rest).head?, g.isText = false) :
    mergeTexts (f :: run ++ rest) = whole (f :: run) :: mergeTexts rest := by
  induction run generalizing f with
  | nil =>
    rcases mergeTexts_cons f rest with ⟨chars, more, tail, rfl, hrest, -⟩ | ⟨hmerged, -⟩
    · have hmore := hend rfl (text more) (by rw [hrest]; rfl)
      cases hmore
    · exact hmerged
  | cons g run ih =>
    obtain ⟨hboth, hchain⟩ := List.isChain_cons_cons.mp hrun
    rw [bothTexts, Bool.and_eq_true] at hboth
    have hrest := ih hchain hend
    rw [whole_cons hchain hboth.2] at hrest
    rw [List.cons_append, mergeTexts, hrest, whole_cons hrun hboth.1, ← text_chars hboth.1]
    rfl

end Run

/-- Runs between which no texts meet are merged one by one. -/
theorem mergeTexts_flatten {runs : List (List Fragment)} (hne : [] ∉ runs)
    (hruns : ∀ run ∈ runs, run.IsChain fun f g => bothTexts f g = true)
    (hapart : runs.IsChain fun run next =>
      ∃ hr hn, bothTexts (run.getLast hr) (next.head hn) = false) :
    mergeTexts runs.flatten = runs.map whole := by
  induction runs with
  | nil => rfl
  | cons run runs ih =>
    obtain ⟨hrun, hrest⟩ := List.forall_mem_cons.mp hruns
    obtain ⟨hnext, hchain⟩ := List.isChain_cons.mp hapart
    rw [List.mem_cons, not_or] at hne
    have hmerged := ih hne.2 hrest hchain
    obtain ⟨f, run, rfl⟩ := List.exists_cons_of_ne_nil (Ne.symm hne.1)
    rw [List.flatten_cons, List.map_cons, ← hmerged]
    apply mergeTexts_run hrun
    -- The next run begins with what it becomes.
    intro hlast g hg
    rw [hmerged, List.head?_map] at hg
    obtain ⟨next, hmem, rfl⟩ := Option.map_eq_some_iff.mp hg
    obtain ⟨hr, hn, hboth⟩ := hnext next hmem
    obtain ⟨first, more, rfl⟩ := List.exists_cons_of_ne_nil hn
    rw [isText_whole (hrest _ (List.mem_of_mem_head? hmem))]
    rw [bothTexts, hlast, Bool.true_and] at hboth
    exact hboth

/-- Merging puts one fragment in place of each run. -/
theorem mergeTexts_eq_map_whole (fragments : List Fragment) :
    mergeTexts fragments = (fragments.splitBy bothTexts).map whole := by
  have h := mergeTexts_flatten (List.nil_notMem_splitBy bothTexts fragments)
    (fun run hrun => List.isChain_of_mem_splitBy hrun)
    (List.isChain_getLast_head_splitBy bothTexts fragments)
  rwa [List.flatten_splitBy] at h

/-- Merging makes no empty texts. -/
theorem mergeTexts_ne_empty {fragments : List Fragment} (h : ∀ f ∈ fragments, f ≠ text []) :
    ∀ f ∈ mergeTexts fragments, f ≠ text [] := by
  refine forall_mem_mergeTexts (fun chars more hchars _ hempty => hchars ?_) h
  injection hempty with hempty
  rw [(List.append_eq_nil_iff.mp hempty).1]

/-- A text that is not empty is blank if its characters are. -/
theorem isBlankText_eq {f : Fragment} (h : f ≠ text []) :
    f.isBlankText = (f.isText && f.chars.isBlank) := by
  cases f with
  | text chars =>
    cases chars with
    | nil => exact absurd rfl h
    | cons c chars => rfl
  | _ => rfl

/-- What is enclosed is seen from the fragment in front and the one behind. -/
theorem isEnclosed_append {front : List Fragment} {f : Fragment} {rest : List Fragment}
    (h : f ≠ text []) :
    isEnclosed (front ++ f :: rest) front.length =
      (f.isBlankText && front.getLast?.any isBoundary && rest.head?.any isBoundary) := by
  rw [isBlankText_eq h]
  rcases List.eq_nil_or_concat front with rfl | ⟨front, before, rfl⟩
  · simp [isEnclosed]
  · rw [List.concat_eq_append, List.length_append, List.length_singleton, isEnclosed]
    simp [List.getElem?_append_right, Bool.and_comm, List.head?_eq_getElem?]

/-- The fragments behind some others, without those that are enclosed. -/
theorem gobbleAfter_eq (front : List Fragment) {rest : List Fragment}
    (h : ∀ f ∈ rest, f ≠ text []) :
    gobbleAfter front.getLast? rest = ((rest.zipIdx front.length).filter fun place =>
      !isEnclosed (front ++ rest) place.2).map Prod.fst := by
  induction rest generalizing front with
  | nil => rfl
  | cons f rest ih =>
    obtain ⟨hf, hrest⟩ := List.forall_mem_cons.mp h
    have hmore := ih (front ++ [f]) hrest
    rw [List.getLast?_concat, List.length_append, List.length_singleton, List.append_assoc,
      List.singleton_append] at hmore
    rw [gobbleAfter, List.zipIdx_cons, List.filter_cons, isEnclosed_append hf, hmore]
    cases f.isBlankText && front.getLast?.any isBoundary && rest.head?.any isBoundary with
    | true => rfl
    | false => rfl

/-- Just the enclosed fragments are dropped. -/
theorem gobble_eq {fragments : List Fragment} (h : ∀ f ∈ fragments, f ≠ text []) :
    gobble fragments = (fragments.zipIdx.filter fun place =>
      !isEnclosed fragments place.2).map Prod.fst :=
  gobbleAfter_eq [] h

/-- Where nothing is dropped, nothing is enclosed. -/
theorem isEnclosed_of_gobble_eq_self {fragments : List Fragment}
    (h : ∀ f ∈ fragments, f ≠ text []) (hself : gobble fragments = fragments) (i : Nat) :
    isEnclosed fragments i = false := by
  rw [gobble_eq h] at hself
  have hlength : (fragments.zipIdx.filter fun place => !isEnclosed fragments place.2).length =
      fragments.zipIdx.length := by
    rw [List.length_zipIdx, ← List.length_map (f := Prod.fst), hself]
  rw [List.length_filter_eq_length_iff] at hlength
  rw [Bool.eq_false_iff]
  intro henclosed
  -- An enclosed fragment has a place.
  obtain ⟨f, hf⟩ : ∃ f, fragments[i]? = some f := by
    cases i with
    | zero => cases henclosed
    | succ i =>
      rw [isEnclosed, Bool.and_eq_true, Bool.and_eq_true] at henclosed
      cases hf : fragments[i + 1]? with
      | none =>
        rw [hf] at henclosed
        cases henclosed.1.2
      | some f => exact ⟨f, rfl⟩
  have hkept := hlength (f, i) (List.mem_zipIdx_iff_getElem?.mpr hf)
  rw [henclosed] at hkept
  cases hkept

/-- Dropping blank texts keeps the order of the others. -/
theorem gobbleAfter_sublist (before? : Option Fragment) (fragments : List Fragment) :
    (gobbleAfter before? fragments).Sublist fragments := by
  induction fragments generalizing before? with
  | nil => exact List.Sublist.refl []
  | cons f rest ih =>
    rw [gobbleAfter]
    split
    · exact (ih (some f)).cons f
    · exact (ih (some f)).cons_cons f

/-- Dropping blank texts loses nothing but blanks. -/
theorem visible_gobbleAfter (before? : Option Fragment) (fragments : List Fragment) :
    Text.visible ((gobbleAfter before? fragments).flatMap chars) =
      Text.visible (fragments.flatMap chars) := by
  induction fragments generalizing before? with
  | nil => rfl
  | cons f rest ih =>
    rw [gobbleAfter, List.flatMap_cons, Text.visible_append]
    split
    · rename_i hdrop
      have hblank := (Bool.and_eq_true_iff.mp (Bool.and_eq_true_iff.mp hdrop).1).1
      have hchars : f.chars.isBlank = true := by
        cases f with
        | text chars => exact (Bool.and_eq_true_iff.mp hblank).2
        | _ => cases hblank
      rw [Text.visible_of_isBlank hchars, List.nil_append, ih]
    · rw [List.flatMap_cons, Text.visible_append, ih]

/-- Merging makes one text of each run of texts and keeps all other fragments. Then just those blank
texts are dropped that stand between two scripts or ends of blocks. What is left has no neighbouring
texts and no blank text in such a place, and only blanks have been lost. -/
theorem gobble_mergeTexts_normal {fragments : List Fragment}
    (h : ∀ f ∈ fragments, f ≠ text []) :
    let merged := mergeTexts fragments
    merged = (fragments.splitBy bothTexts).map whole ∧
      gobble merged = (merged.zipIdx.filter fun place =>
        !isEnclosed merged place.2).map Prod.fst ∧
      areApart isText (gobble merged) = true ∧
      (∀ i, isEnclosed (gobble merged) i = false) ∧
      ((gobble merged).filter fun f => !f.isText) = (fragments.filter fun f => !f.isText) ∧
      Text.visible ((gobble merged).flatMap chars) = Text.visible (fragments.flatMap chars) := by
  intro merged
  have hmerged : ∀ f ∈ merged, f ≠ text [] := mergeTexts_ne_empty h
  have hapart : areApart isText merged = true := areApart_mergeTexts fragments
  have hkeep : ∀ chars, (!(text chars).isText) = false := fun _ => rfl
  refine ⟨mergeTexts_eq_map_whole fragments, gobble_eq hmerged, areApart_gobbleAfter none hapart,
    fun i => ?_, ?_, ?_⟩
  · apply isEnclosed_of_gobble_eq_self
    · intro f hf
      exact hmerged f ((gobbleAfter_sublist none merged).subset hf)
    · exact gobbleAfter_gobbleAfter hapart (Or.inl rfl)
  · exact (filter_gobbleAfter hkeep none merged).trans (filter_mergeTexts hkeep fragments)
  · rw [gobble, visible_gobbleAfter, flatMap_mergeTexts fun _ _ => rfl]

/-- Two texts that are blank together between a script and the end of its block, and a blank text
behind an expression. -/
theorem gobble_mergeTexts_normal_of_loop :
    let fragments := [script "for x in y:" none, text " ", text "\n", endBlock, text "a",
      expression "x", text " ", endBlock]
    let merged := mergeTexts fragments
    (∀ f ∈ fragments, f ≠ text []) ∧
      gobble merged = [script "for x in y:" none, endBlock, text "a", expression "x", text " ",
        endBlock] ∧
      merged = (fragments.splitBy bothTexts).map whole ∧
      gobble merged = (merged.zipIdx.filter fun place =>
        !isEnclosed merged place.2).map Prod.fst ∧
      areApart isText (gobble merged) = true ∧
      (∀ i, isEnclosed (gobble merged) i = false) ∧
      ((gobble merged).filter fun f => !f.isText) = (fragments.filter fun f => !f.isText) ∧
      Text.visible ((gobble merged).flatMap chars) = Text.visible (fragments.flatMap chars) :=
  ⟨by decide +kernel, by decide +kernel, gobble_mergeTexts_normal (by decide +kernel)⟩

end ServerPages.Fragment
