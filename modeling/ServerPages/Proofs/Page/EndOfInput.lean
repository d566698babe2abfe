import ServerPages.Proofs.Markup.AttributeWalk
import ServerPages.Proofs.Markup.Extension
import ServerPages.Proofs.Markup.Lookahead
import ServerPages.Proofs.Page.Acceptance
import ServerPages.Proofs.Page.OpenString
import ServerPages.Proofs.Page.Placement

/-!
# Compiling never runs off the input

Wherever a file ends, be it in the middle of a tag, the fault is that the tag is not closed, that an
attribute is cut short, or whatever else the template has wrong. That characters are missing is
never the fault, since reading a number of characters is the only act that reports it, and a scan
reads characters only after it has seen them.
-/

namespace ServerPages

/-- A list of attributes does not lack characters. -/
theorem AttributeList.ne_endOfInput_of_read {t rest : Text} {fault : Fault}
    (h : read t = (.error fault, rest)) : fault ≠ .endOfInput := by
  obtain ⟨rfl, -⟩ | ⟨⟨name, rfl⟩, -⟩ := fault_of_readFrom h
  · exact Fault.noConfusion
  · exact Fault.noConfusion

namespace Recognition

variable {crossing : Bool} {s start body rest : Stack} {f : Failure}

/-- The rest of a tag does not lack characters. -/
theorem ne_endOfInput_of_tagRest {closes : List Text} (h : tagRest start body closes = .error f) :
    f.fault ≠ .endOfInput := by
  rw [fault_of_tagRest h, tagFault]
  split
  · rename_i hread
    exact AttributeList.ne_endOfInput_of_read hread
  · exact Fault.noConfusion

/-- A literal that is not found is missing. -/
theorem fault_of_skipUntil {literal : Text}
    (h : s.skipUntil crossing literal = (.error f, rest)) : f.fault = .unclosed literal := by
  unfold Stack.skipUntil at h
  split at h
  · cases h
  · cases h
    rfl

/-- An element that is not closed lacks its closing delimiter. -/
theorem fault_of_enclosed {kind : ElementKind} {close : Text}
    (h : enclosed crossing kind close body = .error f) : f.fault = .unclosed close := by
  unfold enclosed at h
  split at h
  · cases h
  · rename_i hskip
    cases h
    exact fault_of_skipUntil hskip

/-- The body of a method that is not closed lacks its closing tag. -/
theorem fault_of_methodBody {head : Element} (h : methodBody crossing head s = .error f) :
    f.fault = .unclosed "</psp:method>" := by
  unfold methodBody at h
  split at h
  · cases h
  · rename_i hskip
    cases h
    exact fault_of_skipUntil hskip

/-- A directive does not lack characters. -/
theorem ne_endOfInput_of_directive (h : directive start body = .error f) :
    f.fault ≠ .endOfInput := by
  simp only [directive] at h
  split at h
  · split at h
    · cases h
    · rename_i htag
      cases h
      exact ne_endOfInput_of_tagRest htag
  · cases h
    exact Fault.noConfusion

/-- The head of a method does not lack characters. -/
theorem ne_endOfInput_of_methodHead (h : methodHead start body = .error f) :
    f.fault ≠ .endOfInput := by
  unfold methodHead at h
  split at h
  · cases h
  · rename_i htag
    cases h
    exact ne_endOfInput_of_tagRest htag

/-- A tag without a body does not lack characters. -/
theorem ne_endOfInput_of_emptyTag {kind : ElementKind}
    (h : emptyTag kind start body = .error f) : f.fault ≠ .endOfInput := by
  unfold emptyTag at h
  split at h
  · cases h
  · rename_i htag
    cases h
    exact ne_endOfInput_of_tagRest htag

/-- No element lacks characters. -/
theorem ne_endOfInput_of_element? (h : element? crossing s = some (.error f)) :
    f.fault ≠ .endOfInput := by
  have henclosed : ∀ {kind : ElementKind} {close : Text} {body : Stack},
      enclosed crossing kind close body = .error f → f.fault ≠ .endOfInput := by
    intro kind close body hf
    rw [fault_of_enclosed hf]
    exact Fault.noConfusion
  simp only [element?, Option.or_eq_some_iff, Option.map_eq_some_iff] at h
  rcases h with ((((((((⟨b, hb, h⟩ | ⟨-, b, hb, h⟩) | ⟨-, b, hb, h⟩) | ⟨-, b, hb, h⟩) |
    ⟨-, b, hb, h⟩) | ⟨-, b, hb, h⟩) | ⟨-, b, hb, h⟩) | ⟨-, b, hb, h⟩) | ⟨-, b, hb, h⟩) |
    ⟨-, b, hb, h⟩
  · exact henclosed h
  · exact henclosed h
  · exact ne_endOfInput_of_directive h
  · cases h
  · exact henclosed h
  · exact henclosed h
  · exact henclosed h
  · exact ne_endOfInput_of_methodHead h
  · exact ne_endOfInput_of_emptyTag h
  · exact ne_endOfInput_of_emptyTag h

end Recognition

/-- A file that cannot be opened is refused for its path. -/
theorem Input.fault_of_openFile {disk : Disk} {i : Input} {inclusion : Inclusion} {f : Failure}
    (h : i.openFile disk inclusion = .error f) :
    ∃ refusal, f.fault = .resource inclusion.path refusal := by
  unfold openFile at h
  split at h
  · cases h
  · rename_i refusal _
    cases h
    exact ⟨refusal, rfl⟩

/-- A visitor that never refuses an element for want of characters. -/
def Visitor.NeverLacks {σ : Type} (v : Visitor σ) : Prop :=
  ∀ disk stack e state, (v.accept disk stack e state).2 ≠ some .endOfInput

namespace Scan

variable {σ : Type} {v : Visitor σ} {disk : Disk}

/-- A scan has not been broken off for want of characters. -/
def Lasts (x : Except (Halt σ) (Scan σ)) : Prop :=
  ∀ halt, x = .error halt → halt.failure.fault ≠ .endOfInput

theorem lasts_ok (s : Scan σ) : Lasts (.ok s) := fun _ h => by cases h

/-- Operations one after the other last if each of them does. -/
theorem Lasts.bind {x : Except (Halt σ) (Scan σ)} {f : Scan σ → Except (Halt σ) (Scan σ)}
    (hx : Lasts x) (hf : ∀ s, Lasts (f s)) : Lasts (x >>= f) := by
  cases x with
  | error halt => exact hx
  | ok s => exact hf s

variable (hv : v.NeverLacks)

include hv

/-- Handing over an element lasts. -/
theorem lasts_deliver (s : Scan σ) (e : Element) : Lasts (s.deliver v disk e) := by
  intro halt h
  simp only [deliver] at h
  split at h
  · cases h
  · rename_i state failure hh
    cases h
    unfold Visitor.handle at hh
    split at hh
    · rename_i fault ha
      cases hh
      exact fun hfault => hv disk s.input.stack e s.state (ha ▸ congrArg some hfault)
    · split at hh
      · obtain ⟨refusal, hfault⟩ := Input.fault_of_openFile (Prod.mk.inj hh).2
        exact hfault ▸ Fault.noConfusion
      · cases hh

/-- Handing over the pending text lasts. -/
theorem lasts_flush (s : Scan σ) : Lasts (s.flush v disk) := by
  unfold flush
  split
  · exact lasts_ok s
  · exact lasts_deliver hv _ _

/-- Entering a file lasts. -/
theorem lasts_enterFile (s : Scan σ) : Lasts (s.enterFile v disk) := by
  unfold enterFile
  split
  · exact lasts_ok s
  · exact (lasts_flush hv s).bind fun s => lasts_ok { s with sourceId? := s.input.stack.sourceId? }

/-- Reading the body of a method lasts. -/
theorem lasts_readMethodBody (s : Scan σ) (head : Element) :
    Lasts (s.readMethodBody v disk head) := by
  unfold readMethodBody
  split
  · rename_i failure hbody
    intro halt h
    cases h
    exact Recognition.fault_of_methodBody hbody ▸ Fault.noConfusion
  · exact lasts_deliver hv _ _

/-- Taking an element lasts. -/
theorem lasts_takeElement (s : Scan σ) (e : Element) (rest : Stack) :
    Lasts (s.takeElement v disk e rest) := by
  refine (lasts_flush hv _).bind fun flushed => (lasts_deliver hv flushed e).bind ?_
  intro delivered
  split
  · exact lasts_readMethodBody hv delivered e
  · exact lasts_ok delivered

/-- A step lasts. -/
theorem lasts_step (s : Scan σ) : Lasts (s.step v disk) := by
  refine (lasts_enterFile hv s).bind fun s => ?_
  split
  · exact lasts_ok _
  · rename_i failure hfailure
    intro halt h
    cases h
    exact Recognition.ne_endOfInput_of_element? hfailure
  · exact lasts_takeElement hv _ _ _

/-- A scan lasts. -/
theorem lasts_run (s : Scan σ) : Lasts (s.run v disk) := by
  obtain ⟨last, -, hstops⟩ := exists_stop v disk s
  generalize s.run v disk = result at hstops
  cases hstops with
  | finished hu => exact lasts_flush hv _
  | broken hu hs => exact hs ▸ lasts_step hv last.settle

end Scan

namespace Page

/-- A setting is not refused for want of characters. -/
theorem ne_endOfInput_of_apply {s : Settings} {name value : Text} {fault : Fault}
    (h : s.apply name value = .error fault) : fault ≠ .endOfInput := by
  unfold Settings.apply at h
  split at h
  · cases h
    exact Fault.noConfusion
  · split at h
    · cases h
    · cases h
      exact Fault.noConfusion

/-- An attribute that is missing is not refused for want of characters. -/
theorem ne_endOfInput_of_required {e : Element} {tag name : Text} {fault : Fault}
    (h : required e tag name = .error fault) : fault ≠ .endOfInput := by
  unfold required at h
  split at h
  · cases h
  · cases h
    exact Fault.noConfusion

/-- An insert of a file is not refused for want of characters. -/
theorem ne_endOfInput_of_insertion {disk : Disk} {stack : Stack} {e : Element} {fault : Fault}
    (h : insertion disk stack e = .error fault) : fault ≠ .endOfInput := by
  unfold insertion at h
  split at h
  · rename_i other hfile
    cases h
    exact ne_endOfInput_of_required hfile
  · dsimp only at h
    split at h
    · split at h
      · cases h
      · cases h
        exact Fault.noConfusion
    · split at h
      · cases h
      · cases h
        exact Fault.noConfusion

private theorem error_of_map {α β : Type} {x : Except Fault α} {g : α → β} {fault : Fault}
    (h : x.map g = .error fault) : x = .error fault := by
  cases x with
  | error other => exact congrArg Except.error (Except.error.inj h)
  | ok a => cases h

/-- No element is refused for want of characters when its fragment is made. -/
theorem ne_endOfInput_of_fragment? {disk : Disk} {stack : Stack} {e : Element} {fault : Fault}
    (h : fragment? disk stack e = .error fault) : fault ≠ .endOfInput := by
  obtain ⟨kind, text, attributes, start, stop⟩ := e
  cases kind with
  | methodHead | urlInclude => exact ne_endOfInput_of_required (error_of_map h)
  | fileInsert => exact ne_endOfInput_of_insertion (error_of_map h)
  | _ => cases h

/-- A page refuses an element for what it says, or for a file that it names. -/
theorem visitor_neverLacks : visitor.NeverLacks := by
  intro disk stack e page h
  obtain ⟨after, ha⟩ : ∃ after, accept disk stack e page = (after, some .endOfInput) :=
    ⟨_, Prod.ext rfl h⟩
  by_cases hpage : e.kind = .directive "page"
  · obtain ⟨-, name, value, -, settings, -, -, hfault, -⟩ := exists_of_accept_pageDirective ha hpage
    exact ne_endOfInput_of_apply hfault rfl
  · unfold accept at ha
    split at ha
    · rename_i name hname
      unfold direct at ha
      have hother : name ≠ "page" := by
        rintro rfl
        exact hpage hname
      rw [if_neg hother] at ha
      split at ha
      · split at ha
        · cases ha
        · rename_i fault hfile
          cases ha
          exact ne_endOfInput_of_required hfile rfl
      · cases ha
    · split at ha
      · rename_i fault hfragment
        cases ha
        exact ne_endOfInput_of_fragment? hfragment rfl
      · cases ha
      · cases ha

/-- Writing a module does not lack characters. -/
theorem ne_endOfInput_of_generate {page : Page} {f : Failure} (h : page.generate.1 = .error f) :
    f.fault ≠ .endOfInput := by
  by_cases hbraces : page.settings.style = .braces
  · obtain ⟨-, code, span?, -, quote, -, -, -, rfl⟩ := exists_open_of_generate hbraces h
    exact Fault.noConfusion
  · obtain ⟨text, htext⟩ := exists_text_of_ne_braces hbraces
    cases htext.symm.trans h

end Page

namespace Compilation

/-- Compiling a template that is open does not lack characters. -/
theorem ne_endOfInput_of_ofInput {disk : Disk} {o : Options} {name : Text} {input : Input}
    {log : List LogRecord} {f : Failure} (h : (ofInput disk o name input log).result = .error f) :
    f.fault ≠ .endOfInput := by
  simp only [ofInput] at h
  split at h
  · rename_i halt hhalt
    cases h
    exact Scan.lasts_run Page.visitor_neverLacks _ halt hhalt
  · rename_i scan _
    cases hgenerate : scan.state.generate.1 with
    | error failure =>
      rw [hgenerate] at h
      cases h
      exact Page.ne_endOfInput_of_generate hgenerate
    | ok source =>
      rw [hgenerate] at h
      cases h

end Compilation

/-- Compiling never runs off the input by itself. A scan is the same as one that looks ahead and
then reads characters by their number, through the ends of files; whatever the visitor does, each
time it reads, it has just found at the same place of the same file at least as many characters, so
it succeeds with all files as they are, except that it goes on in the innermost one. And neither
scanning into a page nor compiling a text or a file fails for want of characters. -/
theorem compile_never_runs_off_input (disk : Disk) :
    (∀ (σ : Type) (v : Visitor σ) (s : Scan σ),
      (s.walk v disk).2 = s.run v disk ∧
      ∀ before place count after,
        (s.walk v disk).1 = before ++ .advance place count :: after →
        (∃ earlier literal, before = earlier ++ [.look place literal] ∧
          place.startsWith literal = true ∧ count ≤ literal.length) ∧
        place.advance count = (.ok (), place.setUnread (place.unread.drop count)) ∧
        (place.setUnread (place.unread.drop count)).length = place.length) ∧
    (∀ (s : Scan Page) halt, s.run Page.visitor disk = .error halt →
      halt.failure.fault ≠ .endOfInput) ∧
    (∀ o name source f, (compileText disk o name source).result = .error f →
      f.fault ≠ .endOfInput) ∧
    ∀ o path f, (compileFile disk o path).result = .error f → f.fault ≠ .endOfInput := by
  refine ⟨fun σ v s => ⟨s.walk_snd v disk, ?_⟩, ?_, ?_, ?_⟩
  · intro before place count after hacts
    obtain ⟨earlier, literal, hlook, hfound, hcount⟩ :=
      s.guarded_walk v disk before place count after hacts
    exact ⟨⟨earlier, literal, hlook, hfound, hcount⟩,
      Walk.advance_of_startsWith hfound hcount, Stack.length_setUnread _ _⟩
  · exact fun s => Scan.lasts_run Page.visitor_neverLacks s
  · intro o name source f h
    exact Compilation.ne_endOfInput_of_ofInput h
  · intro o path f h
    unfold compileFile at h
    split at h
    · rename_i failure hopen
      cases h
      obtain ⟨refusal, hfault⟩ := Input.fault_of_openFile hopen
      exact hfault ▸ Fault.noConfusion
    · exact Compilation.ne_endOfInput_of_ofInput h

/-- The end of a block whose closing delimiter is cut in two by the end of an included file, the
same cut by the end of a template, and a template that does not exist. -/
theorem compile_never_runs_off_input_in_cut_tag :
    (let input := ((Input.empty true).openText "page" ">" []).openText "part" "<% end %" []
      let s := Scan.start input (Page.start {} "P" "p")
      let place := input.stack.setUnread "end %"
      (∃ halt, s.run Page.visitor Disk.empty = .error halt ∧
        halt.failure.fault ≠ .endOfInput) ∧
      ∃ before after,
        (s.walk Page.visitor Disk.empty).1 = before ++ .advance place 3 :: after ∧
        (∃ earlier literal, before = earlier ++ [.look place literal] ∧
          place.startsWith literal = true ∧ 3 ≤ literal.length) ∧
        place.advance 3 = (.ok (), place.setUnread " %") ∧
        (place.setUnread " %").length = 2) ∧
    (∃ f, (compileText Disk.empty {} "page" "<% end %").result = .error f ∧
      f.fault ≠ .endOfInput) ∧
    ∃ f, (compileFile Disk.empty {} "page").result = .error f ∧ f.fault ≠ .endOfInput := by
  obtain ⟨hwalks, hscans, htexts, hfiles⟩ := compile_never_runs_off_input Disk.empty
  refine ⟨?_, ?_, ?_⟩
  · intro input s place
    obtain ⟨hrun, hacts⟩ := hwalks Page Page.visitor s
    obtain ⟨halt, hhalt⟩ : ∃ halt, (s.settle.walkStep Page.visitor Disk.empty).2 = .error halt :=
      ⟨_, rfl⟩
    have hwalk := Scan.walk_of_walkStep_error (s := s) (by decide) hhalt
    rw [hwalk] at hrun hacts
    have hrun := hrun.symm.trans hhalt
    refine ⟨⟨halt, hrun, hscans s halt hrun⟩, ?_⟩
    have hsplit : (s.settle.walkStep Page.visitor Disk.empty).1 =
        (s.settle.walkStep Page.visitor Disk.empty).1.take 6 ++ .advance place 3 ::
          (s.settle.walkStep Page.visitor Disk.empty).1.drop 7 := by decide +kernel
    rw [hwalk]
    exact ⟨_, _, hsplit, hacts _ _ _ _ hsplit⟩
  · let s := Scan.start ((Input.empty false).openText "page" "<% end %" ['.'])
      (Page.start {} "page" "page")
    obtain ⟨halt, hhalt⟩ : ∃ halt, (s.settle.walkStep Page.visitor Disk.empty).2 = .error halt :=
      ⟨_, rfl⟩
    have hrun : s.run Page.visitor Disk.empty = .error halt := by
      rw [← (hwalks Page Page.visitor s).1, Scan.walk_of_walkStep_error (by decide) hhalt, hhalt]
    have hresult : (compileText Disk.empty {} "page" "<% end %").result = .error halt.failure := by
      simp only [compileText, Compilation.ofInput]
      split
      · rename_i other hother
        cases hother.symm.trans hrun
        rfl
      · rename_i scan hscan
        cases hscan.symm.trans hrun
    exact ⟨_, hresult, htexts _ _ _ _ hresult⟩
  · exact ⟨_, rfl, hfiles _ _ _ rfl⟩

end ServerPages
