import ServerPages.Input.Stack
import ServerPages.Text.Lines

/-!
# Input

The input of a compilation is the stack of files being read together with all files opened so far.
Opening a file puts it on top of the stack. A file that is still being read cannot be opened again,
and files nest only so deep, so including files always comes to an end.
-/

namespace ServerPages

/-- All that is known about the files of one compilation. -/
structure Input where
  /-- Every file opened so far, in order. -/
  opened : List Source
  /-- The files being read. -/
  stack : Stack
  /-- Whether an element may begin in an included file and end in the including one. -/
  crossing : Bool
  deriving DecidableEq, Repr

/-- A file that a template asks to be read next. -/
structure Inclusion where
  /-- The path as the template gives it. -/
  path : Text
  /-- The label of the encoding, if one is given. -/
  label? : Option Text
  deriving DecidableEq, Repr

namespace Input

/-- No file opened yet. -/
def empty (crossing : Bool) : Input := ⟨[], [], crossing⟩

/-- Put a text on top of the stack. -/
def push (i : Input) (name content : Text) (canonical? : Option Text) (baseDir : Text)
    (encoding : Encoding) : Input :=
  let source : Source := ⟨i.opened.length, name, content.unifyBreaks, canonical?⟩
  { i with
    opened := i.opened ++ [source]
    stack := ⟨source, source.content, baseDir, encoding⟩ :: i.stack }

/-- Open a text that is given and not read from disk. -/
def openText (i : Input) (name content baseDir : Text) : Input :=
  i.push name content none baseDir .utf8

/-- Take the relative paths of the innermost file from another directory. -/
def setBaseDir (i : Input) (baseDir : Text) : Input :=
  match i.stack with
  | [] => i
  | r :: below => { i with stack := { r with baseDir } :: below }

/-- Whether a file is being read. -/
def isOpen (i : Input) (canonical : Text) : Bool :=
  i.stack.any (·.source.canonical? = some canonical)

/-- The encoding of an inclusion, which is UTF-8 unless a label says otherwise. -/
def encodingOf (inclusion : Inclusion) : Except Refusal Encoding :=
  match inclusion.label? with
  | none => .ok .utf8
  | some label =>
    match Encoding.ofLabel? label with
    | some encoding => .ok encoding
    | none => .error (.unknownEncoding label)

/-- Open a file on disk, unless something speaks against it. -/
def tryOpen (disk : Disk) (i : Input) (inclusion : Inclusion) : Except Refusal Input :=
  let resolved := i.stack.resolve inclusion.path
  match encodingOf inclusion with
  | .error refusal => .error refusal
  | .ok encoding =>
    if maxDepth ≤ i.stack.length then .error .tooDeep
    else
      match disk.read resolved with
      | .error error => .error (.unreadable resolved error)
      | .ok octets =>
        let canonical? := disk.canonical? resolved
        if canonical?.any i.isOpen then .error .includesItself
        else
          .ok (i.push resolved (encoding.decode octets) canonical? (Path.directoryOf resolved)
            encoding)

/-- Open a file on disk. A refusal is reported under the path as it was given, at the place that has
been reached. -/
def openFile (disk : Disk) (i : Input) (inclusion : Inclusion) : Except Failure Input :=
  match tryOpen disk i inclusion with
  | .ok opened => .ok opened
  | .error refusal => .error (i.stack.failure (.resource inclusion.path refusal))

/-- A file that has been opened lies on top of the files that were being read. -/
theorem stack_of_tryOpen {disk : Disk} {i j : Input} {inclusion : Inclusion}
    (h : tryOpen disk i inclusion = .ok j) :
    ∃ r, j.stack = r :: i.stack ∧ i.stack.length < maxDepth := by
  simp only [tryOpen] at h
  split at h
  · cases h
  · split at h
    · cases h
    · rename_i hd
      split at h
      · cases h
      · split at h
        · cases h
        · cases h
          exact ⟨_, rfl, Nat.lt_of_not_le hd⟩

end Input

end ServerPages
