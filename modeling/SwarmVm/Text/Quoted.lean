import SwarmVm.Text.Digits
import SwarmVm.Text.Printable

/-!
# Quoted text

Listings show strings between double quotes. The quote, the backslash and the common controls are
written with a backslash; every other character without a glyph of its own is written as its code
point in hexadecimal.
-/

namespace SwarmVm

namespace Text

/-- The code point of a character, in an escape. -/
def escapeCode (c : Char) : List Char := ("\\u\x7b" ++ hex 0 c.toNat ++ "\x7d").toList

/-- A character inside quotes. -/
def quoteChar (c : Char) : List Char :=
  match c with
  | '\x00' => ['\\', '0']
  | '\t' => ['\\', 't']
  | '\r' => ['\\', 'r']
  | '\n' => ['\\', 'n']
  | '"' => ['\\', '"']
  | '\\' => ['\\', '\\']
  | c => if isPrintable c then [c] else escapeCode c

/-- A string between quotes. -/
def quoted (s : String) : String :=
  String.ofList ('"' :: s.toList.flatMap quoteChar ++ ['"'])

end Text

end SwarmVm
