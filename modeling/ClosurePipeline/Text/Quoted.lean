/-
Text quoted for a message. A control character, an unassigned character, a separator other than the space or a combining
mark is written by its code point, so a message shows what stands there.

- `quoted`: a text in double quotes; single quotes stand as they are;
- `quotedChar`: a character in single quotes; double quotes stand as they are.
-/
import ClosurePipeline.Text.Printable

namespace ClosurePipeline.Text

/-- the digits of `n` in lower-case hexadecimal -/
def hexDigits (n : Nat) : List Char := Nat.toDigits 16 n

/-- a character in a quoted text whose delimiter is `quote` -/
def escaped (quote : Char) (c : Char) : List Char :=
  if c.toNat = 0 then ['\\', '0']
  else if c = '\t' then ['\\', 't']
  else if c = '\r' then ['\\', 'r']
  else if c = '\n' then ['\\', 'n']
  else if c = '\\' then ['\\', '\\']
  else if c = quote then ['\\', quote]
  else if isPrintable c then [c]
  else ['\\', 'u', '\x7b'] ++ hexDigits c.toNat ++ ['\x7d']

/-- a text in double quotes -/
def quoted (cs : List Char) : List Char := ['"'] ++ cs.flatMap (escaped '"') ++ ['"']

/-- a character in single quotes -/
def quotedChar (c : Char) : List Char := ['\''] ++ escaped '\'' c ++ ['\'']

end ClosurePipeline.Text
