import HttpWire.Bytes

/-!
# The alphabets of a message

Four byte classes decide whether a message can be written at all: tokens (methods,
field names, chunk extensions), field values, reason phrases and request targets.
Each is a decidable property of a byte string, so that "the line cannot be split
by its own contents" is a statement about these classes only.
-/

namespace HttpWire.Grammar

/-- A decimal digit. -/
def isDigit (b : UInt8) : Bool :=
  48 ≤ b && b ≤ 57

/-- An ASCII letter or digit. -/
def isAlphanumeric (b : UInt8) : Bool :=
  isDigit b || (65 ≤ b && b ≤ 90) || (97 ≤ b && b ≤ 122)

/-- The punctuation that may stand in a token. -/
def tokenMarks : Bytes :=
  Bytes.ofString "!#$%&'*+-.^_`|~"

/-- A byte that may stand in a token. -/
def isTokenByte (b : UInt8) : Bool :=
  isAlphanumeric b || tokenMarks.contains b

/-- A token is one or more token bytes. -/
def isToken (x : Bytes) : Bool :=
  !x.isEmpty && x.all isTokenByte

/-- A control byte other than the tab. -/
def isForbiddenControl (b : UInt8) : Bool :=
  (b < 32 && b != 9) || b == 127

/-- A field value has no control byte but the tab, so it cannot end its own
line. -/
def isFieldValue (x : Bytes) : Bool :=
  x.all (fun b => !isForbiddenControl b)

/-- A reason phrase has the alphabet of a field value. -/
def isReasonPhrase (x : Bytes) : Bool :=
  isFieldValue x

/-- A request target is not empty and has no blank and no control byte, so it
cannot split its line. -/
def isTarget (x : Bytes) : Bool :=
  !x.isEmpty && x.all (fun b => 32 < b && b != 127)

end HttpWire.Grammar
