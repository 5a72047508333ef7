import Wirescript.Text.Standing

/-!
# Quoted text

Text between double quotes, such that it can be told what it holds: characters that end the quotes,
have no printed form or would be drawn onto a neighbour are written as escapes.
-/

namespace Wirescript.Text

/-- A code point in lower-case hexadecimal digits. -/
def codePoint (c : Char) : String :=
  "\\u\x7b" ++ String.ofList (Nat.toDigits 16 c.toNat) ++ "\x7d"

def escape (c : Char) : String :=
  match c with
  | '\t' => "\\t"
  | '\r' => "\\r"
  | '\n' => "\\n"
  | '"' => "\\\""
  | '\\' => "\\\\"
  | '\x00' => "\\0"
  | c => if standsAsIs c then c.toString else codePoint c

def quoted (s : String) : String := "\"" ++ String.join (s.toList.map escape) ++ "\""

end Wirescript.Text
