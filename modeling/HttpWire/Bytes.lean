/-!
# Byte strings

Names, values, bodies and whole messages are lists of bytes. The two views of a
byte string that the rest of the library needs live here: the bytes of a fixed
text, and comparison that does not look at the case of ASCII letters, which is how
field names and codings are compared.
-/

namespace HttpWire

/-- A string of bytes, first byte first. -/
abbrev Bytes := List UInt8

namespace Bytes

/-- The UTF-8 bytes of a text. -/
def ofString (s : String) : Bytes :=
  s.toList.flatMap String.utf8EncodeChar

/-- The line end of the wire format. -/
def crlf : Bytes := [13, 10]

/-- An ASCII capital becomes the small letter; every other byte stays. -/
def lowerByte (b : UInt8) : UInt8 :=
  if 65 ≤ b ∧ b ≤ 90 then b + 32 else b

/-- All ASCII capitals made small. -/
def lower (x : Bytes) : Bytes :=
  x.map lowerByte

/-- Equality up to the case of ASCII letters. -/
def sameLetters (x y : Bytes) : Bool :=
  lower x == lower y

end Bytes

end HttpWire
