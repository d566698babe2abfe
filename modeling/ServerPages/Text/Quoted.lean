import ServerPages.Text.Basic

/-!
# Quoted text

Text is written into the generated module inside string literals, long ones between tripled quotes
and short ones between single quotes. Inside a template the closing delimiter of a script is
written with two backslashes in its middle.
-/

namespace ServerPages.Text

/-- A character inside a long literal. -/
def quoteLongChar : Char → Text
  | '\\' => ['\\', '\\']
  | '"' => ['\\', '"']
  | c => [c]

/-- A character inside a short literal, where line breaks and tabs are written by name. -/
def quoteShortChar : Char → Text
  | '\\' => ['\\', '\\']
  | '"' => ['\\', '"']
  | '\n' => ['\\', 'n']
  | '\r' => ['\\', 'r']
  | '\t' => ['\\', 't']
  | c => [c]

/-- The inside of a long literal. -/
def quoteLong (t : Text) : Text := t.flatMap quoteLongChar

/-- The inside of a short literal. -/
def quoteShort (t : Text) : Text := t.flatMap quoteShortChar

/-- Script text with its escaped closing delimiters restored. -/
def unescapeClose : Text → Text
  | [] => []
  | '%' :: '\\' :: '\\' :: '>' :: rest => '%' :: '>' :: unescapeClose rest
  | c :: rest => c :: unescapeClose rest

end ServerPages.Text
