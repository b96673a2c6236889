import HttpWire.Numeral.Hex
import HttpWire.Text.Extending
import HttpWire.Text.Ignorable
import HttpWire.Text.Unprintable
import HttpWire.Text.Utf8

/-!
# Quoted byte strings

Where a message quotes bytes, they stand between double quotes and every character
that would not show as itself is escaped: the quote and the backslash by a
backslash, four control characters by a letter or digit, and all other hidden ones
by their code point in base 16 between braces. What is hidden follows the Unicode
Character Database, version 17.
-/

namespace HttpWire.Text

/-- The base-16 numeral of a number as characters. -/
def hexText (n : Nat) : List Char :=
  (Hex.digits n).map (fun d => Char.ofNat d.toNat)

/-- A character that would not show as itself: it has no printed form, draws
nothing, or attaches itself to the character before it. -/
def isHidden (c : Char) : Bool := isUnprintable c || isIgnorable c || isExtending c

/-- How one character is written between double quotes. -/
def quotedChar (c : Char) : List Char :=
  if c = '\x00' then ['\\', '0']
  else if c = '\t' then ['\\', 't']
  else if c = '\n' then ['\\', 'n']
  else if c = '\r' then ['\\', 'r']
  else if c = '"' then ['\\', '"']
  else if c = '\\' then ['\\', '\\']
  else if isHidden c then ['\\', 'u', '\x7b'] ++ hexText c.toNat ++ ['\x7d']
  else [c]

/-- A byte string as text between double quotes. -/
def quote (x : Bytes) : String :=
  String.ofList ('"' :: (decodeChars x).flatMap quotedChar ++ ['"'])

end HttpWire.Text
