import ServerPages.Position

/-!
# Notices

A notice warns about something in a template that is allowed and does nothing. Compiling goes on.
-/

namespace ServerPages

/-- What a template author is warned about. -/
inductive Warning where
  | trailingEndMarker
  deriving DecidableEq, Repr

/-- The words of a warning. -/
def Warning.message : Warning → Text
  | trailingEndMarker => "a `$` before the closing `%>` of an end tag does nothing"

/-- A warning and its place. -/
structure Notice where
  /-- What is warned about. -/
  warning : Warning
  /-- Where it stands, if known. -/
  span? : Option Span
  deriving DecidableEq, Repr

/-- The place, if known, and the words of the warning. -/
def Notice.message (n : Notice) : Text :=
  match n.span? with
  | some span => span.text ++ ": warning: " ++ n.warning.message
  | none => "warning: " ++ n.warning.message

end ServerPages
