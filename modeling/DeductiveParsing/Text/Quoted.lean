/-
Quoted texts, as error messages show what they complain about: between double quotes, with a
backslash before a double quote and before a backslash, the four short escapes for tab, line feed,
carriage return and the null character, and every veiled character by its number.

* `escape`: how one character is written;
* `quoted`: how a text is written.
-/
import DeductiveParsing.Text.Veiled

namespace DeductiveParsing.Text

/-- The number of a character in braces, in lower case hexadecimal digits without leading zeros. -/
def numbered (c : Char) : List Char :=
  ['\\', 'u', '\x7b'] ++ Nat.toDigits 16 c.toNat ++ ['\x7d']

/-- How one character is written between quotes. -/
def escape (c : Char) : List Char :=
  match c with
  | '"' => ['\\', '"']
  | '\\' => ['\\', '\\']
  | '\t' => ['\\', 't']
  | '\n' => ['\\', 'n']
  | '\r' => ['\\', 'r']
  | '\x00' => ['\\', '0']
  | _ => if isVeiled c then numbered c else [c]

/-- The text between quotes. -/
def quoted (s : String) : String :=
  String.ofList ('"' :: s.toList.flatMap escape ++ ['"'])

end DeductiveParsing.Text
