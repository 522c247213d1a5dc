import ZPlane.Text.Hidden

/-!
# Quoted text

Text between double quotes, where quotes, backslashes and hidden characters are written with a
backslash.
-/

namespace ZPlane

namespace Text

def doubleQuote : Char := '\x22'

/-- One character inside quotes. -/
def quotedChar (c : Char) : List Char :=
  if c = doubleQuote then ['\\', c]
  else if c = '\\' then ['\\', c]
  else if c = '\n' then ['\\', 'n']
  else if c = '\r' then ['\\', 'r']
  else if c = '\t' then ['\\', 't']
  else if c = '\x00' then ['\\', '0']
  else if isHidden c then
    ['\\', 'u', '\x7b'] ++ Nat.toDigits 16 c.toNat ++ ['\x7d']
  else [c]

def quoted (s : String) : String :=
  String.ofList (doubleQuote :: s.toList.flatMap quotedChar ++ [doubleQuote])

end Text

end ZPlane
