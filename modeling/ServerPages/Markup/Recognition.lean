import ServerPages.Markup.Element

/-!
# Recognition of elements

Where reading has arrived, the text either begins an element or is plain text. Each kind of element
has an opening delimiter, and the first in a fixed order that fits decides: comments and expressions
come before directives, end tags before scripts.
-/

namespace ServerPages.Recognition

/-- The names of the directives. -/
def directiveNames : List Text := ["page", "include"]

/-- An element whose text runs up to a closing delimiter. -/
def enclosed (crossing : Bool) (kind : ElementKind) (close : Text) (body : Stack) :
    Except Failure (Element × Stack) :=
  match body.skipUntil crossing close with
  | (.ok stop, rest) => .ok (⟨kind, body.textTo stop, .empty, body, stop⟩, rest)
  | (.error failure, _) => .error failure

/-- The attribute list of a tag, read in the innermost file alone. -/
def readAttributes (s : Stack) : Except Failure Attributes × Stack :=
  match AttributeList.read s.unread with
  | (.ok found, rest) => (.ok found, s.setUnread rest)
  | (.error fault, rest) => (.error ((s.setUnread rest).failure fault), s.setUnread rest)

/-- The stack after the first fitting closing delimiter. If none fits, the last is missed, at the
beginning of the tag. -/
def closeTag (start s : Stack) : List Text → Except Failure Stack
  | [] => .ok s
  | [close] =>
    match s.accept? close with
    | some rest => .ok rest
    | none => .error ⟨.unclosed close, some start.span⟩
  | close :: others =>
    match s.accept? close with
    | some rest => .ok rest
    | none => closeTag start s others

/-- The attributes of a tag up to and with its closing delimiter. -/
def tagRest (start body : Stack) (closes : List Text) : Except Failure (Attributes × Stack) :=
  match readAttributes body with
  | (.error failure, _) => .error failure
  | (.ok found, rest) =>
    match closeTag start rest.skipSpaces closes with
    | .ok stop => .ok (found, stop)
    | .error failure => .error failure

/-- A directive after its opening delimiter. -/
def directive (start body : Stack) : Except Failure (Element × Stack) :=
  let named := body.skipSpaces
  let name := named.unread.takeWhile Char.isAlphanum
  if directiveNames.contains name then
    match tagRest start (named.setUnread (named.unread.drop name.length)) ["%>"] with
    | .ok (found, stop) => .ok (⟨.directive name, start.textTo stop, found, start, stop⟩, stop)
    | .error failure => .error failure
  else .error ⟨.unknownDirective name, some start.span⟩

/-- The end of a block. Anything else between the delimiters makes it a script. -/
def endBlock? (start : Stack) : Option (Element × Stack) :=
  match start.accept? "<%" with
  | none => none
  | some body =>
    match body.skipSpaces.accept? "end" with
    | none => none
    | some rest =>
      match rest.skipSpaces.accept? "%>" with
      | some stop => some (⟨.endBlock false, [], .empty, start, stop⟩, stop)
      | none =>
        (rest.skipSpaces.accept? "$%>").map fun stop =>
          (⟨.endBlock true, [], .empty, start, stop⟩, stop)

/-- The head of a method after its opening delimiter. -/
def methodHead (start body : Stack) : Except Failure (Element × Stack) :=
  match tagRest start body [">"] with
  | .ok (found, stop) => .ok (⟨.methodHead, start.textTo stop, found, start, stop⟩, stop)
  | .error failure => .error failure

/-- The body of a method after its head. -/
def methodBody (crossing : Bool) (head : Element) (s : Stack) :
    Except Failure (Element × Stack) :=
  match s.skipUntil crossing "</psp:method>" with
  | (.ok stop, rest) =>
    .ok (⟨.methodBody, head.stop.textTo stop, head.attributes, head.stop, stop⟩, rest)
  | (.error failure, _) => .error failure

/-- A tag without text after its opening delimiter. -/
def emptyTag (kind : ElementKind) (start body : Stack) : Except Failure (Element × Stack) :=
  match tagRest start body.skipSpaces ["/>", ">"] with
  | .ok (found, stop) => .ok (⟨kind, [], found, start, stop⟩, stop)
  | .error failure => .error failure

/-- The element that begins here and the stack after it, or nothing at plain text. The body of a
method is left to be read after its head. -/
def element? (crossing : Bool) (s : Stack) : Option (Except Failure (Element × Stack)) :=
  (s.accept? "<%--").map (enclosed crossing .comment "--%>")
    |>.or ((s.accept? "<%=").map fun body => enclosed crossing .expression "%>" body.skipSpaces)
    |>.or ((s.accept? "<%@").map (directive s))
    |>.or ((endBlock? s).map .ok)
    |>.or ((s.accept? "<%").map (enclosed crossing .script "%>"))
    |>.or ((s.accept? "<psp:file>").map (enclosed crossing .moduleCode "</psp:file>"))
    |>.or ((s.accept? "<psp:class>").map (enclosed crossing .classCode "</psp:class>"))
    |>.or ((s.accept? "<psp:method").map (methodHead s))
    |>.or ((s.accept? "<psp:include").map (emptyTag .urlInclude s))
    |>.or ((s.accept? "<psp:insert").map (emptyTag .fileInsert s))

end ServerPages.Recognition
