import ScriptHost.Text.Unprintable

/-!
# Quoted texts

The full form of a text stands between double quotes. Inside, the quote and the backslash are preceded by a backslash, the
common control characters have a letter, and every other character that cannot be shown by itself is written by its code.
-/

namespace ScriptHost.Quoted

/-- A character inside quotes. -/
def escape (c : Char) : List Char :=
  if c = '\x00' then ['\\', '0']
  else if c = '\t' then ['\\', 't']
  else if c = '\r' then ['\\', 'r']
  else if c = '\n' then ['\\', 'n']
  else if c = '"' then ['\\', '"']
  else if c = '\\' then ['\\', '\\']
  else if Text.isUnprintable c then
    '\\' :: 'u' :: '\x7b' :: (Nat.toDigits 16 c.toNat ++ ['\x7d'])
  else [c]

/-- A text between quotes. -/
def quote (s : String) : String := String.ofList ('"' :: (s.toList.flatMap escape ++ ['"']))

end ScriptHost.Quoted
