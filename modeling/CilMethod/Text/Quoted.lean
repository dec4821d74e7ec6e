import CilMethod.Text.Numeral
import CilMethod.Text.Unprinted

/-!
# Quoted text

How messages and string dumps show a text: between double quotes, with the quote, the backslash
and the usual controls as two-character escapes and every other unprinted character by its code
point. The single quote stands for itself.
-/

namespace CilMethod.Text

/-- One character between double quotes. -/
def quotedChar (c : Char) : List Char :=
  match c with
  | '"' => ['\\', '"']
  | '\\' => ['\\', '\\']
  | '\t' => ['\\', 't']
  | '\r' => ['\\', 'r']
  | '\n' => ['\\', 'n']
  | '\x00' => ['\\', '0']
  | c =>
    if isUnprinted c then "\\u\x7b".toList ++ hexadecimal 1 c.toNat ++ "\x7d".toList else [c]

def quoted (s : String) : String :=
  String.ofList ('"' :: s.toList.flatMap quotedChar ++ ['"'])

end CilMethod.Text
