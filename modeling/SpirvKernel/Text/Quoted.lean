import SpirvKernel.Text.CharacterClass

/-!
# Quoted text

Text in double quotes on one line. Quotes, backslashes and the usual control characters have a
two-character escape; other characters that do not show on their own are written by number.
-/

namespace SpirvKernel.Text.Quoted

def byNumber (c : Char) : List Char :=
  ['\\', 'u', '\x7b'] ++ Nat.toDigits 16 c.toNat ++ ['\x7d']

/-- Whether a character cannot be told on its own: it joins its neighbour or shows nothing. -/
def isHidden (c : Char) : Bool := isExtendingMark c || isUnprintable c || isDefaultIgnorable c

def escape (c : Char) : List Char :=
  if c = '\x00' then ['\\', '0']
  else if c = '\t' then ['\\', 't']
  else if c = '\r' then ['\\', 'r']
  else if c = '\n' then ['\\', 'n']
  else if c = '"' then ['\\', '"']
  else if c = '\\' then ['\\', '\\']
  else if isHidden c then byNumber c
  else [c]

def encode (s : String) : String :=
  String.ofList (['"'] ++ s.toList.flatMap escape ++ ['"'])

end SpirvKernel.Text.Quoted
