import ServerPages.Proofs.Markup.Step

/-!
# Two visitors of one template

Visitors decide nothing about how a template is read, apart from breaking off. Two of them that read
the same template are therefore handed the same elements at the same places. If the first one comes
to the end, and the second one takes whatever the first one takes, then the second one comes to the
end as well, in a state that is related to that of the first one.
-/

namespace ServerPages

/-- A tag that inserts a file, and the head of a method, are handed over where they end. -/
def Element.ArrivesAt (e : Element) (stack : Stack) : Prop :=
  e.kind = .fileInsert ∨ e.kind = .methodHead → e.stop = stack

/-- Only inserts of files and heads of methods have to be arrived at. -/
theorem Element.arrivesAt_of_kind {e : Element} (hinsert : e.kind ≠ .fileInsert)
    (hhead : e.kind ≠ .methodHead) (stack : Stack) : e.ArrivesAt stack := by
  rintro (h | h)
  · exact absurd h hinsert
  · exact absurd h hhead

/-- An element that has been recognized ends where recognition has arrived. -/
theorem Recognition.arrivesAt_of_element? {crossing : Bool} {s rest : Stack} {e : Element}
    (h : element? crossing s = some (.ok (e, rest))) : e.ArrivesAt rest := by
  have henclosed : ∀ {kind : ElementKind} {close : Text} {body : Stack}, kind ≠ .fileInsert →
      kind ≠ .methodHead → enclosed crossing kind close body = .ok (e, rest) →
      e.ArrivesAt rest := by
    intro kind close body hinsert hhead henclosed
    unfold enclosed at henclosed
    split at henclosed <;> cases henclosed
    exact Element.arrivesAt_of_kind hinsert hhead rest
  have hempty : ∀ {kind : ElementKind} {start body : Stack},
      emptyTag kind start body = .ok (e, rest) → e.ArrivesAt rest := by
    intro kind start body htag _
    unfold emptyTag at htag
    split at htag <;> cases htag
    rfl
  simp only [element?, Option.or_eq_some_iff, Option.map_eq_some_iff, Except.ok.injEq] at h
  rcases h with ((((((((⟨b, -, h⟩ | ⟨-, b, -, h⟩) | ⟨-, b, -, h⟩) | ⟨-, b, hb, rfl⟩) |
    ⟨-, b, -, h⟩) | ⟨-, b, -, h⟩) | ⟨-, b, -, h⟩) | ⟨-, b, -, h⟩) | ⟨-, b, -, h⟩) | ⟨-, b, -, h⟩
  · exact henclosed (by decide) (by decide) h
  · exact henclosed (by decide) (by decide) h
  · simp only [directive] at h
    repeat' split at h
    all_goals cases h
    exact Element.arrivesAt_of_kind (fun h => by cases h) (fun h => by cases h) rest
  · unfold endBlock? at hb
    repeat' split at hb
    all_goals try cases hb
    · exact Element.arrivesAt_of_kind (fun h => by cases h) (fun h => by cases h) rest
    · obtain ⟨stop, -, he⟩ := Option.map_eq_some_iff.mp hb
      cases he
      exact Element.arrivesAt_of_kind (fun h => by cases h) (fun h => by cases h) rest
  · exact henclosed (by decide) (by decide) h
  · exact henclosed (by decide) (by decide) h
  · exact henclosed (by decide) (by decide) h
  · unfold methodHead at h
    split at h <;> cases h
    exact fun _ => rfl
  · exact hempty h
  · exact hempty h

namespace Visitor

variable {σ τ : Type}

/-- The second visitor takes what the first one takes, as long as the first one is on a good way,
and stays related to it. -/
structure Leads (v : Visitor σ) (w : Visitor τ) (disk : Disk) (good : σ → Prop)
    (R : σ → τ → Prop) : Prop where
  /-- Both read the files of include directives, or neither does. -/
  follows : w.follows = v.follows
  /-- What precedes a good state is good. -/
  back : ∀ {stack : Stack} {e : Element} {a a' : σ},
    v.accept disk stack e a = (a', none) → good a' → good a
  /-- Related states stay related. -/
  accept : ∀ {stack : Stack} {e : Element} {a a' : σ} {b : τ}, e.ArrivesAt stack →
    v.accept disk stack e a = (a', none) → good a' → R a b →
    ∃ b', w.accept disk stack e b = (b', none) ∧ R a' b'

/-- The visitor that keeps the elements beside what another visitor makes of them. -/
def recording (v : Visitor σ) : Visitor (σ × List Element) :=
  ⟨fun disk stack e (state, found) =>
    (((v.accept disk stack e state).1, found ++ [e]), (v.accept disk stack e state).2), v.follows⟩

end Visitor

namespace Scan

variable {σ τ : Type} {v : Visitor σ} {w : Visitor τ} {disk : Disk} {good : σ → Prop}
  {R : σ → τ → Prop}

/-- Two scans at the same place whose visitors are related. -/
structure Beside (R : σ → τ → Prop) (s : Scan σ) (t : Scan τ) : Prop where
  input : t.input = s.input
  pending : t.pending? = s.pending?
  sourceId : t.sourceId? = s.sourceId?
  state : R s.state t.state

/-- An element is handed over if the visitor accepts it and its file can be opened. -/
theorem deliver_of_accept {s : Scan σ} {e : Element} {state : σ} {j : Input}
    (ha : v.accept disk s.input.stack e s.state = (state, none))
    (hf : Input.Follows v.follows disk e.event s.input j) :
    ∃ log, s.deliver v disk e = .ok { s with input := j, state, log } := by
  rcases hf with ⟨rfl, hnone⟩ | ⟨inclusion, hv, hi, ho⟩
  · exact deliver_eq_ok ha hnone
  · have hh : v.handle disk s.input e s.state = (state, .ok j) := by
      have hi : e.inclusion? = some inclusion := hi
      rw [Visitor.handle, ha]
      simp only [hv, hi, Input.openFile, ho]
    simp only [deliver, hh]
    exact ⟨_, rfl⟩

/-- Plain text asks for no file. -/
theorem input_of_flush {s s' : Scan σ} (h : s.flush v disk = .ok s') : s'.input = s.input := by
  unfold flush at h
  split at h
  · cases h
    rfl
  · obtain ⟨-, -, -, ⟨hi, -⟩ | ⟨inclusion, -, hi, -⟩⟩ := deliver_cases h
    · exact hi
    · cases hi

/-- What an operation does with the first visitor, another one does with the second visitor. -/
def Carries (good : σ → Prop) (R : σ → τ → Prop) (f : Scan σ → Except (Halt σ) (Scan σ))
    (g : Scan τ → Except (Halt τ) (Scan τ)) (s : Scan σ) : Prop :=
  ∀ s', f s = .ok s' → good s'.state →
    good s.state ∧ ∀ t, Beside R s t → ∃ t', g t = .ok t' ∧ Beside R s' t'

/-- An operation that always succeeds is carried over if it keeps both scans beside each other. -/
theorem carries_ok (f : Scan σ → Scan σ) (g : Scan τ → Scan τ) {s : Scan σ}
    (hstate : (f s).state = s.state) (hbeside : ∀ t, Beside R s t → Beside R (f s) (g t)) :
    Carries good R (fun s => .ok (f s)) (fun t => .ok (g t)) s := by
  intro s' hs' hgood
  obtain rfl := Except.ok.inj hs'
  exact ⟨hstate ▸ hgood, fun t ht => ⟨g t, rfl, hbeside t ht⟩⟩

/-- Operations one after the other are carried over if each of them is. -/
theorem Carries.bind {f f' : Scan σ → Except (Halt σ) (Scan σ)}
    {g g' : Scan τ → Except (Halt τ) (Scan τ)} {s : Scan σ} (h : Carries good R f g s)
    (h' : ∀ s', f s = .ok s' → Carries good R f' g' s') :
    Carries good R (fun s => f s >>= f') (fun t => g t >>= g') s := by
  intro last hlast hgood
  obtain ⟨s', hs', hl⟩ := bind_eq_ok hlast
  obtain ⟨hgood', hnext⟩ := h' s' hs' last hl hgood
  obtain ⟨hgood'', hfirst⟩ := h s' hs' hgood'
  refine ⟨hgood'', ?_⟩
  intro t ht
  obtain ⟨t', ht', hb⟩ := hfirst t ht
  obtain ⟨last', hlast', hb'⟩ := hnext t' hb
  refine ⟨last', ?_, hb'⟩
  change (g t >>= g') = _
  rw [ht']
  exact hlast'

section Operations

variable (h : v.Leads w disk good R)

include h

/-- Handing over an element is carried over. -/
theorem carries_deliver {s : Scan σ} {e : Element} (he : e.ArrivesAt s.input.stack) :
    Carries good R (deliver v disk · e) (deliver w disk · e) s := by
  intro s' hs' hgood
  obtain ⟨ha, hpending, hsource, hf⟩ := deliver_cases hs'
  refine ⟨h.back ha hgood, ?_⟩
  intro t hb
  obtain ⟨b', hb', hR⟩ := h.accept he ha hgood hb.state
  rw [← hb.input] at hb' hf
  rw [← h.follows] at hf
  obtain ⟨log, hlog⟩ := deliver_of_accept hb' hf
  exact ⟨_, hlog, rfl, hb.pending.trans hpending.symm, hb.sourceId.trans hsource.symm, hR⟩

/-- Handing over the pending text is carried over. -/
theorem carries_flush (s : Scan σ) : Carries good R (flush v disk) (flush w disk) s := by
  intro s' hs' hgood
  cases hp : s.pending? with
  | none =>
    rw [flush, hp] at hs'
    obtain rfl := Except.ok.inj hs'
    refine ⟨hgood, fun t ht => ⟨t, ?_, ht⟩⟩
    rw [flush, ht.pending, hp]
  | some passage =>
    rw [flush, hp] at hs'
    have harrives : passage.element.ArrivesAt s.input.stack :=
      Element.arrivesAt_of_kind (fun h => by cases h) (fun h => by cases h) _
    obtain ⟨hback, hnext⟩ := carries_deliver h (s := { s with pending? := none }) harrives s' hs'
      hgood
    refine ⟨hback, fun t ht => ?_⟩
    rw [flush, ht.pending, hp]
    exact hnext { t with pending? := none } ⟨ht.input, rfl, ht.sourceId, ht.state⟩

/-- Entering a file is carried over. -/
theorem carries_enterFile (s : Scan σ) :
    Carries good R (enterFile v disk) (enterFile w disk) s := by
  intro s' hs' hgood
  by_cases hid : s.input.stack.sourceId? = s.sourceId?
  · rw [enterFile_eq_self hid] at hs'
    obtain rfl := Except.ok.inj hs'
    refine ⟨hgood, fun t ht => ⟨t, enterFile_eq_self ?_, ht⟩⟩
    rw [ht.input, ht.sourceId, hid]
  · rw [enterFile, if_neg hid] at hs'
    obtain ⟨flushed, hflushed, he⟩ := bind_eq_ok hs'
    obtain rfl := Except.ok.inj he
    obtain ⟨hback, hnext⟩ := carries_flush h s flushed hflushed hgood
    refine ⟨hback, fun t ht => ?_⟩
    obtain ⟨t', ht', hb⟩ := hnext t ht
    rw [enterFile, ht.input, ht.sourceId, if_neg hid, ht']
    exact ⟨_, rfl, hb.input, hb.pending, congrArg (·.stack.sourceId?) hb.input, hb.state⟩

/-- Reading the body of a method is carried over. -/
theorem carries_readMethodBody {s : Scan σ} (head : Element) :
    Carries good R (readMethodBody v disk · head) (readMethodBody w disk · head) s := by
  intro s' hs' hgood
  simp only [readMethodBody] at hs' ⊢
  cases hb : Recognition.methodBody s.input.crossing head s.input.stack with
  | error failure =>
    rw [hb] at hs'
    cases hs'
  | ok found =>
    obtain ⟨body, rest⟩ := found
    rw [hb] at hs'
    have harrives : body.ArrivesAt rest := by
      unfold Recognition.methodBody at hb
      split at hb <;> cases hb
      exact Element.arrivesAt_of_kind (fun h => by cases h) (fun h => by cases h) _
    obtain ⟨hback, hnext⟩ := carries_deliver h (s := s.moveTo rest) harrives s' hs' hgood
    refine ⟨hback, fun t ht => ?_⟩
    rw [ht.input, hb]
    refine hnext (t.moveTo rest) ⟨?_, ht.pending, ht.sourceId, ht.state⟩
    simp only [moveTo, ht.input]

/-- Taking an element is carried over. -/
theorem carries_takeElement {s : Scan σ} {e : Element} {rest : Stack} (he : e.ArrivesAt rest) :
    Carries good R (takeElement v disk · e rest) (takeElement w disk · e rest) s := by
  have hmove : Carries good R (fun s => flush v disk (s.moveTo rest))
      (fun t => flush w disk (t.moveTo rest)) s := by
    intro s' hs' hgood
    obtain ⟨hback, hnext⟩ := carries_flush h (s.moveTo rest) s' hs' hgood
    refine ⟨hback, fun t ht => hnext (t.moveTo rest) ⟨?_, ht.pending, ht.sourceId, ht.state⟩⟩
    simp only [moveTo, ht.input]
  refine hmove.bind fun flushed hflushed => ?_
  have harrives : e.ArrivesAt flushed.input.stack := by
    rw [input_of_flush hflushed]
    exact he
  refine (carries_deliver h harrives).bind fun delivered _ => ?_
  by_cases hk : e.kind = .methodHead
  · simp only [if_pos hk]
    exact carries_readMethodBody h e
  · simp only [if_neg hk]
    exact carries_ok id id rfl fun t ht => ht

/-- A step is carried over. -/
theorem carries_step (s : Scan σ) : Carries good R (step v disk) (step w disk) s := by
  refine (carries_enterFile h s).bind fun entered _ => ?_
  intro s' hs' hgood
  dsimp only at hs' ⊢
  cases he : Recognition.element? entered.input.crossing entered.input.stack with
  | none =>
    rw [he] at hs'
    obtain rfl := Except.ok.inj hs'
    refine ⟨hgood, fun t ht => ⟨t.readText, ?_, ?_⟩⟩
    · rw [ht.input, he]
    · refine ⟨?_, ?_, ht.sourceId, ht.state⟩
      · simp only [readText, moveTo, ht.input]
      · simp only [readText, ht.input, ht.pending]
  | some found =>
    rw [he] at hs'
    cases found with
    | error failure => cases hs'
    | ok found =>
      obtain ⟨e, rest⟩ := found
      have harrives := Recognition.arrivesAt_of_element? he
      obtain ⟨hback, hnext⟩ := carries_takeElement h harrives s' hs' hgood
      refine ⟨hback, fun t ht => ?_⟩
      rw [ht.input, he]
      exact hnext t ht

/-- If the first visitor comes to the end on a good way, so does the second one. -/
theorem carries_run (s : Scan σ) : Carries good R (run v disk) (run w disk) s := by
  intro last hlast hgood
  fun_induction run v disk s with
  | case1 s hu =>
    obtain ⟨hback, hnext⟩ := carries_flush h s.settle last hlast hgood
    refine ⟨hback, fun t ht => ?_⟩
    have hinput : t.settle.input = s.settle.input := by simp only [settle, moveTo, ht.input]
    rw [run_of_unread (by rw [hinput]; exact hu)]
    exact hnext t.settle ⟨hinput, ht.pending, ht.sourceId, ht.state⟩
  | case2 s hu halt hs => cases hlast
  | case3 s hu s' hs ih =>
    obtain ⟨hgood', hrest⟩ := ih hlast
    obtain ⟨hback, hnext⟩ := carries_step h s.settle s' hs hgood'
    refine ⟨hback, fun t ht => ?_⟩
    have hinput : t.settle.input = s.settle.input := by simp only [settle, moveTo, ht.input]
    obtain ⟨t', ht', hb⟩ := hnext t.settle ⟨hinput, ht.pending, ht.sourceId, ht.state⟩
    rw [run_of_step (by rw [hinput]; exact hu) ht']
    exact hrest t' hb

end Operations

end Scan

end ServerPages
