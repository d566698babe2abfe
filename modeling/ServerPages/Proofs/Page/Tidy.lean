import ServerPages.Proofs.Page.Fragment

/-!
# Generating a module again

Generating the module of a page tidies its fragments: neighbouring texts are merged in one pass, and
blank text between two scripts may be dropped. Merged texts are apart. A text is dropped only
between fragments that are no text, so texts stay apart, and every text that is kept keeps its
neighbours. Tidying again therefore finds nothing to do. Since the regions before the page body hold
no text, they do not see the difference either, and the second module is the first one.
-/

namespace ServerPages

namespace Fragment

/-- A fragment is merged with a text behind it, or stands in front of what the rest becomes. -/
theorem mergeTexts_cons (f : Fragment) (rest : List Fragment) :
    (∃ chars more tail, f = text chars ∧ mergeTexts rest = text more :: tail ∧
      mergeTexts (f :: rest) = text (chars ++ more) :: tail) ∨
    mergeTexts (f :: rest) = f :: mergeTexts rest ∧
      (f.isText = true → ∀ g ∈ (mergeTexts rest).head?, g.isText = false) := by
  cases hrest : mergeTexts rest with
  | nil =>
    right
    exact ⟨by simp only [mergeTexts, hrest], nofun⟩
  | cons g tail =>
    by_cases hg : f.isText = true ∧ g.isText = true
    · left
      cases f with
      | text chars =>
        cases g with
        | text more =>
          exact ⟨chars, more, tail, rfl, rfl, by simp only [mergeTexts, hrest, merge?]⟩
        | _ => cases hg.2
      | _ => cases hg.1
    · right
      have hapart : f.isText = true → g.isText = false := by
        intro hf
        exact Bool.eq_false_iff.mpr fun ht => hg ⟨hf, ht⟩
      refine ⟨by simp only [mergeTexts, hrest, merge?_eq_none hapart], fun hf => ?_⟩
      simpa using hapart hf

/-- One more fragment behind those that are kept. It becomes one with the last of them if both are
texts, and is kept itself otherwise. -/
def mergeInto (kept : List Fragment) (f : Fragment) : List Fragment :=
  match kept.getLast?.bind (merge? · f) with
  | some merged => kept.dropLast ++ [merged]
  | none => kept ++ [f]

/-- Merging a fragment leaves at least that fragment. -/
theorem mergeInto_ne_nil (kept : List Fragment) (f : Fragment) : mergeInto kept f ≠ [] := by
  rw [mergeInto]
  split
  · exact List.concat_ne_nil _ _
  · exact List.concat_ne_nil _ _

/-- Only the last of the fragments that are kept is seen. -/
theorem mergeInto_append (front : List Fragment) {kept : List Fragment} (h : kept ≠ [])
    (f : Fragment) : mergeInto (front ++ kept) f = front ++ mergeInto kept f := by
  have hlast : (front ++ kept).getLast? = kept.getLast? := by
    rw [List.getLast?_append, List.getLast?_eq_some_getLast h, Option.some_or]
  rw [mergeInto, mergeInto, hlast, List.dropLast_append_of_ne_nil h]
  cases kept.getLast?.bind (merge? · f) with
  | none => exact List.append_assoc front kept [f]
  | some merged => exact List.append_assoc front kept.dropLast [merged]

/-- A text may come in two pieces. -/
theorem mergeInto_text_append (kept : List Fragment) (chars more : Text) :
    mergeInto kept (text (chars ++ more)) =
      mergeInto (mergeInto kept (text chars)) (text more) := by
  rcases List.eq_nil_or_concat kept with rfl | ⟨front, last, rfl⟩
  · rfl
  · have hlast : [last] ≠ [] := List.cons_ne_nil last []
    rw [List.concat_eq_append, mergeInto_append front hlast, mergeInto_append front hlast,
      mergeInto_append front (mergeInto_ne_nil _ _)]
    refine congrArg (front ++ ·) ?_
    cases last with
    | text first => exact congrArg (fun t => [text t]) (List.append_assoc first chars more).symm
    | _ => rfl

/-- A fragment is merged into a single one as the two of them are merged. -/
theorem mergeInto_singleton (f g : Fragment) : mergeInto [f] g = mergeTexts [f, g] := by
  simp only [mergeInto, mergeTexts, List.getLast?_singleton, Option.bind_some]
  cases f.merge? g with
  | none => rfl
  | some merged => rfl

/-- Of three fragments, it does not matter which two are merged first. -/
theorem mergeInto_pair (f g h : Fragment) :
    mergeInto (mergeTexts [f, g]) h = mergeTexts [f, g, h] := by
  cases hg : g.isText with
  | false =>
    have hfront : f.merge? g = none := merge?_eq_none fun _ => hg
    have hbehind : g.merge? h = none := merge?_eq_none fun ht => by
      rw [hg] at ht
      cases ht
    simp [mergeTexts, mergeInto, hfront, hbehind]
  | true =>
    cases g with
    | text chars =>
      cases f with
      | text front =>
        cases h with
        | text more => exact congrArg (fun t => [text t]) (List.append_assoc front chars more)
        | _ => rfl
      | _ =>
        cases h with
        | text more => rfl
        | _ => rfl
    | _ => cases hg

/-- What follows is merged into what has been merged before. -/
theorem mergeTexts_concat (fragments : List Fragment) (f : Fragment) :
    mergeTexts (fragments ++ [f]) = mergeInto (mergeTexts fragments) f := by
  induction fragments with
  | nil => rfl
  | cons g rest ih =>
    rw [List.cons_append, mergeTexts, ih, mergeTexts]
    cases mergeTexts rest with
    | nil => exact (mergeInto_singleton g f).symm
    | cons a more =>
      cases more with
      | nil =>
        rw [mergeInto_singleton]
        exact (mergeInto_pair g a f).symm
      | cons b more =>
        -- The last fragment is another one than those that meet in front.
        have hb : b :: more ≠ [] := List.cons_ne_nil b more
        rw [show mergeInto (a :: b :: more) f = a :: mergeInto (b :: more) f from
          mergeInto_append [a] hb f]
        dsimp only
        cases g.merge? a with
        | none => exact (mergeInto_append [g, a] hb f).symm
        | some merged => exact (mergeInto_append [merged] hb f).symm

/-- More fragments are merged one by one into those that have been merged. -/
theorem mergeTexts_append (front rest : List Fragment) :
    mergeTexts (front ++ rest) = rest.foldl mergeInto (mergeTexts front) := by
  induction rest generalizing front with
  | nil => rw [List.append_nil, List.foldl_nil]
  | cons f rest ih =>
    have hmore := ih (front ++ [f])
    rwa [List.append_assoc, List.singleton_append, mergeTexts_concat] at hmore

/-- Merging is a single pass from the first fragment to the last one, each of which is merged into
the one that was kept last. -/
theorem mergeTexts_eq_foldl (fragments : List Fragment) :
    mergeTexts fragments = fragments.foldl mergeInto [] :=
  mergeTexts_append [] fragments

/-- What holds of texts one after the other holds of the texts that they are merged to. -/
theorem forall_mem_mergeTexts {P : Fragment → Prop}
    (hP : ∀ chars more, P (text chars) → P (text more) → P (text (chars ++ more)))
    {fragments : List Fragment} (h : ∀ f ∈ fragments, P f) : ∀ f ∈ mergeTexts fragments, P f := by
  induction fragments with
  | nil => exact h
  | cons f rest ih =>
    obtain ⟨hf, hrest⟩ := List.forall_mem_cons.mp h
    have hmore := ih hrest
    rcases mergeTexts_cons f rest with ⟨chars, more, tail, rfl, htail, hmerged⟩ | ⟨hmerged, -⟩
    · rw [htail, List.forall_mem_cons] at hmore
      rw [hmerged, List.forall_mem_cons]
      exact ⟨hP chars more hf hmore.1, hmore.2⟩
    · rw [hmerged, List.forall_mem_cons]
      exact ⟨hf, hmore⟩

/-- What is read off texts one after the other is read off the texts that they are merged to. -/
theorem flatMap_mergeTexts {α : Type} {view : Fragment → List α}
    (hview : ∀ chars more, view (text (chars ++ more)) = view (text chars) ++ view (text more))
    (fragments : List Fragment) : (mergeTexts fragments).flatMap view = fragments.flatMap view := by
  induction fragments with
  | nil => rfl
  | cons f rest ih =>
    rcases mergeTexts_cons f rest with ⟨chars, more, tail, rfl, hrest, hmerged⟩ | ⟨hmerged, -⟩
    · rw [hrest, List.flatMap_cons] at ih
      rw [hmerged, List.flatMap_cons, List.flatMap_cons, ← ih, hview, List.append_assoc]
    · rw [hmerged, List.flatMap_cons, List.flatMap_cons, ih]

/-- Blank texts are texts. -/
theorem isText_of_isBlankText {f : Fragment} (h : f.isBlankText = true) : f.isText = true := by
  cases f with
  | text chars => rfl
  | _ => cases h

/-- Scripts and ends of blocks are no texts. -/
theorem isText_eq_false_of_isBoundary {f : Fragment} (h : f.isBoundary = true) :
    f.isText = false := by
  cases f with
  | text chars => cases h
  | _ => rfl

/-- After merging, no two texts are neighbours. -/
theorem areApart_mergeTexts (fragments : List Fragment) :
    areApart isText (mergeTexts fragments) = true := by
  induction fragments with
  | nil => rfl
  | cons f rest ih =>
    rcases mergeTexts_cons f rest with ⟨chars, more, tail, -, hrest, hmerged⟩ | ⟨hmerged, hnext⟩
    · rw [hrest] at ih
      rw [hmerged]
      exact areApart_cons.mpr ⟨fun _ => (areApart_cons.mp ih).1 rfl, (areApart_cons.mp ih).2⟩
    · rw [hmerged]
      exact areApart_cons.mpr ⟨hnext, ih⟩

/-- The first of some fragments is not dropped if it is no text. -/
theorem head?_gobbleAfter (before? : Option Fragment) {fragments : List Fragment}
    (h : ∀ f ∈ fragments.head?, f.isText = false) :
    (gobbleAfter before? fragments).head? = fragments.head? := by
  cases fragments with
  | nil => rfl
  | cons f rest =>
    have hblank : f.isBlankText = false := by
      rw [Bool.eq_false_iff]
      intro hb
      have ht := isText_of_isBlankText hb
      rw [h f rfl] at ht
      cases ht
    rw [gobbleAfter, hblank]
    rfl

/-- Dropping blank text brings no texts together. -/
theorem areApart_gobbleAfter (before? : Option Fragment) {fragments : List Fragment}
    (h : areApart isText fragments = true) :
    areApart isText (gobbleAfter before? fragments) = true := by
  induction fragments generalizing before? with
  | nil => rfl
  | cons f rest ih =>
    obtain ⟨hnext, hrest⟩ := areApart_cons.mp h
    rw [gobbleAfter]
    split
    · exact ih (some f) hrest
    · refine areApart_cons.mpr ⟨fun hf => ?_, ih (some f) hrest⟩
      rw [head?_gobbleAfter (some f) (hnext hf)]
      exact hnext hf

/-- A second pass drops nothing. The fragment in front of it may be another one if the first
fragment is no text, since then it is not dropped anyway. -/
theorem gobbleAfter_gobbleAfter {before? other? : Option Fragment} {fragments : List Fragment}
    (h : areApart isText fragments = true)
    (ho : other? = before? ∨ ∀ f ∈ fragments.head?, f.isText = false) :
    gobbleAfter other? (gobbleAfter before? fragments) = gobbleAfter before? fragments := by
  induction fragments generalizing before? other? with
  | nil => rfl
  | cons f rest ih =>
    obtain ⟨hnext, hrest⟩ := areApart_cons.mp h
    by_cases hdrop : (f.isBlankText && before?.any isBoundary && rest.head?.any isBoundary) = true
    · -- what follows a dropped text is a boundary
      have hhead : ∀ g ∈ rest.head?, g.isText = false := by
        intro g hg
        have hany : rest.head?.any isBoundary = true := (Bool.and_eq_true_iff.mp hdrop).2
        rw [Option.mem_def.mp hg] at hany
        exact isText_eq_false_of_isBoundary hany
      rw [gobbleAfter, if_pos hdrop]
      exact ih hrest (Or.inr hhead)
    · rw [gobbleAfter, if_neg hdrop, gobbleAfter, ih hrest (Or.inl rfl), if_neg]
      intro hagain
      have hblank : f.isBlankText = true :=
        (Bool.and_eq_true_iff.mp (Bool.and_eq_true_iff.mp hagain).1).1
      have hf := isText_of_isBlankText hblank
      have hsame : other? = before? := by
        rcases ho with hsame | hhead
        · exact hsame
        · rw [hhead f rfl] at hf
          cases hf
      rw [head?_gobbleAfter (some f) (hnext hf), hsame] at hagain
      exact hdrop hagain

section Filter

variable {keep : Fragment → Bool} (hkeep : ∀ chars, keep (text chars) = false)

include hkeep

/-- Merging texts does not touch other fragments. -/
theorem filter_mergeTexts (fragments : List Fragment) :
    (mergeTexts fragments).filter keep = fragments.filter keep := by
  induction fragments with
  | nil => rfl
  | cons f rest ih =>
    rcases mergeTexts_cons f rest with ⟨chars, more, tail, rfl, hrest, hmerged⟩ | ⟨hmerged, -⟩
    · rw [hrest] at ih
      rw [hmerged]
      simpa only [List.filter_cons, hkeep, Bool.false_eq_true, if_false] using ih
    · rw [hmerged, List.filter_cons, List.filter_cons, ih]

/-- Dropping blank text does not touch other fragments. -/
theorem filter_gobbleAfter (before? : Option Fragment) (fragments : List Fragment) :
    (gobbleAfter before? fragments).filter keep = fragments.filter keep := by
  induction fragments generalizing before? with
  | nil => rfl
  | cons f rest ih =>
    rw [gobbleAfter]
    split
    · rename_i hdrop
      have hblank := (Bool.and_eq_true_iff.mp (Bool.and_eq_true_iff.mp hdrop).1).1
      have hf : keep f = false := by
        cases f with
        | text chars => exact hkeep chars
        | _ => cases hblank
      rw [ih, List.filter_cons_of_neg (by simp [hf])]
    · rw [List.filter_cons, List.filter_cons, ih]

end Filter

end Fragment

namespace Page

variable (page : Page)

/-- A tidied page is tidy. -/
theorem tidy_tidy : page.tidy.tidy = page.tidy := by
  have hmerged := Fragment.areApart_mergeTexts page.fragments
  cases hg : page.settings.gobble with
  | true =>
    have hapart : areApart Fragment.isText (Fragment.gobble (Fragment.mergeTexts page.fragments)) =
        true := Fragment.areApart_gobbleAfter none hmerged
    have hagain : Fragment.gobble (Fragment.gobble (Fragment.mergeTexts page.fragments)) =
        Fragment.gobble (Fragment.mergeTexts page.fragments) :=
      Fragment.gobbleAfter_gobbleAfter hmerged (Or.inl rfl)
    simp only [tidy, hg, if_true, Fragment.mergeTexts_eq_self hapart, hagain]
  | false => simp [tidy, hg, Fragment.mergeTexts_eq_self hmerged]

/-- Tidying a page does not touch the regions before the page body. -/
theorem emitRegion_tidy (region : Region) (hr : region ≠ .service) (p : Printer) :
    page.tidy.emitRegion region p = page.emitRegion region p := by
  have hkeep : ∀ chars, decide ((Fragment.text chars).region = region) = false :=
    fun chars => decide_eq_false fun h => hr h.symm
  rw [emitRegion, emitRegion, tidy]
  congr 1
  split
  · exact (Fragment.filter_gobbleAfter hkeep none _).trans (Fragment.filter_mergeTexts hkeep _)
  · exact Fragment.filter_mergeTexts hkeep _

/-- Tidying a page does not touch what precedes the page body. -/
theorem emitFrame_tidy : page.tidy.emitFrame = page.emitFrame := by
  have hmodule := page.emitRegion_tidy .module nofun
  have hclass := page.emitRegion_tidy .classBody nofun
  have hmethods := page.emitRegion_tidy .methods nofun
  rw [emitFrame, emitFrame, hmodule]
  simp only [hclass, hmethods]
  rfl

/-- Generating the module of a page a second time gives what it gave the first time, be it a text or
a failure at some place, and leaves the page as the first time has left it. -/
theorem generate_generate : page.generate.2.generate = page.generate := by
  cases hframe : page.emitFrame with
  | error failure =>
    have hfirst : page.generate = (.error failure, page) := by rw [generate, hframe]
    rw [hfirst, hfirst]
  | ok p =>
    have hfirst : page.generate = (page.tidy.emitBody p, page.tidy) := by rw [generate, hframe]
    have hsecond : page.tidy.emitFrame = .ok p := page.emitFrame_tidy.trans hframe
    rw [hfirst, generate, hsecond, tidy_tidy]

end Page

end ServerPages
