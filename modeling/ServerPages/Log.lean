import ServerPages.Text.Basic

/-!
# Log

A compilation leaves records of what it does, each with a level. Which levels are shown is up to
the caller.
-/

namespace ServerPages

/-- How important a record is. -/
inductive LogLevel where
  | error
  | warn
  | info
  | debug
  | trace
  deriving DecidableEq, Repr

namespace LogLevel

/-- A level is shown when the limit reaches at least its rank. -/
def rank : LogLevel → Nat
  | error => 1
  | warn => 2
  | info => 3
  | debug => 4
  | trace => 5

/-- The name in front of a record. -/
def name : LogLevel → Text
  | error => "ERROR"
  | warn => "WARN"
  | info => "INFO"
  | debug => "DEBUG"
  | trace => "TRACE"

end LogLevel

/-- One record. -/
structure LogRecord where
  /-- Its level. -/
  level : LogLevel
  /-- What it says. -/
  text : Text
  deriving DecidableEq, Repr

/-- The level on a line of its own, then the record. -/
def LogRecord.shown (r : LogRecord) : Text := r.level.name ++ ":\n" ++ r.text ++ "\n"

end ServerPages
