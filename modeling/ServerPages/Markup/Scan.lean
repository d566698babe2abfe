import ServerPages.Log
import ServerPages.Markup.Progress

/-!
# Scanning a template

A scan reads the input element by element and hands each one to a visitor. Plain text is collected
and handed over as one element before the next other element, and where reading moves to another
file. An include directive that the visitor accepts puts its file on top of the input. A scan always
comes to an end: every step makes progress in the input, and files nest only so deep.
-/

namespace ServerPages

/-- What is done with the elements of a template. -/
structure Visitor (σ : Type) where
  /-- Take an element where the input has arrived. The state is kept when the element is refused. -/
  accept : Disk → Stack → Element → σ → σ × Option Fault
  /-- Whether the files of include directives are read. -/
  follows : Bool

namespace Visitor

variable {σ : Type}

/-- Take an element, and open the file that it asks for. -/
def handle (v : Visitor σ) (disk : Disk) (input : Input) (e : Element) (state : σ) :
    σ × Except Failure Input :=
  match v.accept disk input.stack e state with
  | (state, some fault) => (state, .error ⟨fault, none⟩)
  | (state, none) =>
    match v.follows, e.inclusion? with
    | true, some inclusion => (state, input.openFile disk inclusion)
    | _, _ => (state, .ok input)

/-- The visitor that keeps the elements, the latest last. -/
def recorder (follows : Bool) : Visitor (List Element) :=
  ⟨fun _ _ e found => (found ++ [e], none), follows⟩

end Visitor

/-- Plain text that has been read and not yet been handed over. -/
structure Passage where
  /-- Where it begins. -/
  start : Stack
  /-- Where it ends so far. -/
  stop : Stack
  /-- The text. -/
  text : Text
  deriving DecidableEq, Repr

/-- The plain text element of a passage. -/
def Passage.element (p : Passage) : Element := ⟨.plainText, p.text, .empty, p.start, p.stop⟩

/-- The state of a scan. -/
structure Scan (σ : Type) where
  /-- What is left to read. -/
  input : Input
  /-- Plain text not yet handed over. -/
  pending? : Option Passage
  /-- The file to which that plain text belongs. -/
  sourceId? : Option Nat
  /-- The state of the visitor. -/
  state : σ
  /-- What has been done so far. -/
  log : List LogRecord

/-- A scan that was broken off. -/
structure Halt (σ : Type) where
  /-- Why it was broken off. -/
  failure : Failure
  /-- The state that was reached. -/
  scan : Scan σ

/-- The record of a file that has just been opened. -/
def Input.openingRecord (i : Input) : LogRecord :=
  let name := (i.opened.getLast?.map Source.name).getD []
  ⟨.debug, "Reading " ++ name ++ " (depth " ++ .ofNat i.stack.length ++ ")"⟩

/-- The records of an element that is handed over. -/
def Element.records (e : Element) : List LogRecord :=
  ⟨.debug, e.kind.shown ++ " at " ++ e.start.span.text⟩ ::
    e.notices.map fun notice => ⟨.warn, notice.message⟩

namespace Scan

variable {σ : Type}

/-- The beginning of a scan. -/
def start (input : Input) (state : σ) : Scan σ := ⟨input, none, input.stack.sourceId?, state, []⟩

/-- The same scan at another place of the input. -/
def moveTo (s : Scan σ) (stack : Stack) : Scan σ := { s with input := { s.input with stack } }

/-- Take off the files that are used up. -/
def settle (s : Scan σ) : Scan σ := s.moveTo s.input.stack.settle

/-- Hand over an element. A failure without a place is placed at the element. -/
def deliver (v : Visitor σ) (disk : Disk) (s : Scan σ) (e : Element) :
    Except (Halt σ) (Scan σ) :=
  let log := s.log ++ e.records
  match v.handle disk s.input e s.state with
  | (state, .ok input) =>
    let openings :=
      if s.input.opened.length = input.opened.length then [] else [input.openingRecord]
    .ok { s with input, state, log := log ++ openings }
  | (state, .error failure) => .error ⟨failure.orAt e.start.span, { s with state, log }⟩

/-- Hand over the pending plain text. -/
def flush (v : Visitor σ) (disk : Disk) (s : Scan σ) : Except (Halt σ) (Scan σ) :=
  match s.pending? with
  | none => .ok s
  | some passage => deliver v disk { s with pending? := none } passage.element

/-- Hand over the pending plain text of another file. -/
def enterFile (v : Visitor σ) (disk : Disk) (s : Scan σ) : Except (Halt σ) (Scan σ) :=
  if s.input.stack.sourceId? = s.sourceId? then .ok s
  else (s.flush v disk).map fun s => { s with sourceId? := s.input.stack.sourceId? }

/-- Read plain text and add it to what is pending. -/
def readText (s : Scan σ) : Scan σ :=
  let stack := s.input.stack
  let stop := stack.skipPlainText
  let passage : Passage :=
    match s.pending? with
    | none => ⟨stack, stop, stack.plainText⟩
    | some p => ⟨p.start, stop, p.text ++ stack.plainText⟩
  { s.moveTo stop with pending? := some passage }

/-- Read the body of a method whose head has been handed over, and hand it over. -/
def readMethodBody (v : Visitor σ) (disk : Disk) (s : Scan σ) (head : Element) :
    Except (Halt σ) (Scan σ) :=
  match Recognition.methodBody s.input.crossing head s.input.stack with
  | .error failure => .error ⟨failure, s⟩
  | .ok (body, rest) => (s.moveTo rest).deliver v disk body

/-- Hand over the pending text and an element, after which reading goes on at a place. -/
def takeElement (v : Visitor σ) (disk : Disk) (s : Scan σ) (e : Element) (rest : Stack) :
    Except (Halt σ) (Scan σ) := do
  let flushed ← (s.moveTo rest).flush v disk
  let delivered ← flushed.deliver v disk e
  if e.kind = .methodHead then delivered.readMethodBody v disk e else .ok delivered

/-- One step of a scan that is settled and has text left: an element, or some plain text. -/
def step (v : Visitor σ) (disk : Disk) (s : Scan σ) : Except (Halt σ) (Scan σ) := do
  let s ← s.enterFile v disk
  match Recognition.element? s.input.crossing s.input.stack with
  | none => .ok s.readText
  | some (.error failure) => .error ⟨failure, s⟩
  | some (.ok (e, rest)) => s.takeElement v disk e rest

theorem bind_eq_ok {ε α β : Type} {x : Except ε α} {f : α → Except ε β} {b : β}
    (h : x >>= f = .ok b) : ∃ a, x = .ok a ∧ f a = .ok b := by
  cases x with
  | error e => cases h
  | ok a => exact ⟨a, rfl, h⟩

/-- Handing over an element leaves the stack, or puts one file on top of it. -/
theorem stack_of_deliver {v : Visitor σ} {disk : Disk} {s s' : Scan σ} {e : Element}
    (h : s.deliver v disk e = .ok s') :
    s'.input.stack = s.input.stack ∨ e.inclusion? ≠ none ∧
      ∃ r, s'.input.stack = r :: s.input.stack ∧ s.input.stack.length < maxDepth := by
  simp only [deliver] at h
  split at h
  · rename_i state input hh
    cases h
    unfold Visitor.handle at hh
    split at hh
    · cases hh
    · split at hh
      · rename_i inclusion _ hi
        obtain ⟨-, hh⟩ := Prod.mk.inj hh
        unfold Input.openFile at hh
        split at hh
        · rename_i opened ho
          cases hh
          exact Or.inr ⟨by rw [hi]; exact Option.some_ne_none _, Input.stack_of_tryOpen ho⟩
        · cases hh
      · cases hh
        exact Or.inl rfl
  · cases h

private theorem stack_of_flush {v : Visitor σ} {disk : Disk} {s s' : Scan σ}
    (h : s.flush v disk = .ok s') : s'.input.stack = s.input.stack := by
  unfold flush at h
  split at h
  · cases h
    rfl
  · rcases stack_of_deliver h with h | ⟨hn, -⟩
    · exact h
    · exact absurd rfl hn

private theorem stack_of_enterFile {v : Visitor σ} {disk : Disk} {s s' : Scan σ}
    (h : s.enterFile v disk = .ok s') : s'.input.stack = s.input.stack := by
  unfold enterFile at h
  split at h
  · cases h
    rfl
  · obtain ⟨t, ht, he⟩ := bind_eq_ok h
    cases he
    have hs := stack_of_flush ht
    exact hs

private theorem within_of_deliver {v : Visitor σ} {disk : Disk} {s s' : Scan σ} {e : Element}
    {before : Stack} (h : s.deliver v disk e = .ok s')
    (ha : Stack.Ahead s.input.stack before ∧ s.input.stack.length ≤ before.length) :
    Stack.Within s'.input.stack before := by
  rcases stack_of_deliver h with hs | ⟨-, r, hs, hd⟩
  · rw [hs]
    exact ⟨ha.1, Nat.le_trans ha.2 (Nat.le_max_right ..)⟩
  · rw [hs]
    exact ⟨ha.1.push r, Nat.le_trans hd (Nat.le_max_left ..)⟩

/-- A step makes progress and keeps within the depth to which files may be nested. -/
theorem within_of_step {v : Visitor σ} {disk : Disk} {s s' : Scan σ}
    (hu : s.input.stack.unread ≠ []) (h : s.step v disk = .ok s') :
    Stack.Within s'.input.stack s.input.stack := by
  obtain ⟨t, ht, h⟩ := bind_eq_ok h
  have ht := stack_of_enterFile ht
  rw [← ht] at hu ⊢
  split at h
  · cases h
    have hn := Stack.nearer_skipPlainText hu
    exact ⟨hn.ahead, Nat.le_trans (Nat.le_of_eq hn.length_eq) (Nat.le_max_right ..)⟩
  · cases h
  · rename_i e rest he
    have ha := Recognition.ahead_element? he
    obtain ⟨flushed, hf, h⟩ := bind_eq_ok h
    obtain ⟨delivered, hd, h⟩ := bind_eq_ok h
    have hf := stack_of_flush hf
    rw [← show flushed.input.stack = rest from hf] at ha
    split at h
    · rename_i hk
      unfold readMethodBody at h
      split at h
      · cases h
      · rename_i body after hb
        have hb := Recognition.ahead_methodBody hb
        rcases stack_of_deliver hd with hs | ⟨hn, -⟩
        · rw [hs] at hb
          exact within_of_deliver h ⟨hb.1.trans ha.1, Nat.le_trans hb.2 ha.2⟩
        · simp [Element.inclusion?, hk] at hn
    · cases h
      exact within_of_deliver hd ha

/-- Scan to the end of the input. -/
def run (v : Visitor σ) (disk : Disk) (s : Scan σ) : Except (Halt σ) (Scan σ) :=
  if _hu : s.settle.input.stack.unread = [] then s.settle.flush v disk
  else
    match _hs : s.settle.step v disk with
    | .error halt => .error halt
    | .ok s' => run v disk s'
termination_by s.input.stack
decreasing_by
  have h := within_of_step _hu _hs
  exact ⟨Stack.ahead_of_settle h.1, Nat.le_trans h.2 (Nat.max_le.mpr ⟨Nat.le_max_left ..,
    Nat.le_trans (Stack.length_settle_le _) (Nat.le_max_right ..)⟩)⟩

end Scan

end ServerPages
