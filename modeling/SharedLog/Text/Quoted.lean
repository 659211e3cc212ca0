import SharedLog.Text.Hex
import SharedLog.Text.Visible

/-!
Quoted text, as it stands in messages: in double quotes, with a backslash before a quote or a backslash,
with short escapes for tab, carriage return, line feed and NUL, and with the number of every other character
that cannot be shown on its own.
-/

namespace SharedLog.Text

/-- One character of quoted text. A single quote stands for itself. -/
def quoteChar (c : Char) : String :=
  match c with
  | '\t' => "\\t"
  | '\r' => "\\r"
  | '\n' => "\\n"
  | '\x00' => "\\0"
  | '\\' => "\\\\"
  | '"' => "\\\""
  | c => if isVisible c then c.toString else "\\u\x7b" ++ hex c.toNat ++ "\x7d"

/-- A text in double quotes. -/
def quote (s : String) : String := "\"" ++ String.join (s.toList.map quoteChar) ++ "\""

end SharedLog.Text
