/-!
# Joined and quoted text

Text is shown between quotation marks, with the quotation mark, the backslash and the control
characters below U+0020 escaped and every other character as it is.
-/

namespace Piecemeal.Text

/-- Tokens joined back into one text. -/
def join (tokens : List String) : String := String.join tokens

/-- A character as it stands between quotation marks. -/
def escape (c : Char) : List Char :=
  if c = '"' then ['\\', '"']
  else if c = '\\' then ['\\', '\\']
  else if c = '\x08' then ['\\', 'b']
  else if c = '\t' then ['\\', 't']
  else if c = '\n' then ['\\', 'n']
  else if c = '\x0c' then ['\\', 'f']
  else if c = '\r' then ['\\', 'r']
  else if c.toNat < 0x20 then
    ['\\', 'u', '0', '0', Nat.digitChar (c.toNat / 16), Nat.digitChar (c.toNat % 16)]
  else [c]

def quote (s : String) : String :=
  String.ofList ('"' :: s.toList.flatMap escape ++ ['"'])

end Piecemeal.Text
