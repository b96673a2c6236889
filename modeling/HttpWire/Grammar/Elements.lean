import HttpWire.Bytes

/-!
# Comma-separated lists

A list value is cut at its commas and each piece is trimmed. Two readings exist:
`pieces` keeps the empty pieces, for lists in which an empty element is a fault,
and `elements` skips them.
-/

namespace HttpWire.Grammar

/-- A byte that is trimmed around a list element. -/
def isBlank (b : UInt8) : Bool :=
  b == 32 || b == 9 || b == 10 || b == 12 || b == 13

/-- The value without the blanks at its two ends. -/
def trim (x : Bytes) : Bytes :=
  ((x.dropWhile isBlank).reverse.dropWhile isBlank).reverse

/-- Cuts at every comma: one piece more than there are commas. -/
def splitAtCommas : Bytes → List Bytes
  | [] => [[]]
  | b :: rest =>
    if b = 44 then [] :: splitAtCommas rest
    else
      match splitAtCommas rest with
      | [] => [[b]]
      | piece :: more => (b :: piece) :: more

/-- The trimmed pieces of a list value, empty ones included. -/
def pieces (x : Bytes) : List Bytes :=
  (splitAtCommas x).map trim

/-- The elements of a list value: its trimmed pieces that are not empty. -/
def elements (x : Bytes) : List Bytes :=
  (pieces x).filter (fun piece => !piece.isEmpty)

end HttpWire.Grammar
