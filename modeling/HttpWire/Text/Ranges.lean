/-!
# Sets of code points as ranges

A property of code points is a list of ascending ranges with both ends included,
and a character has the property when one of the ranges holds its code point.
-/

namespace HttpWire.Text

/-- One of the ranges holds the code point of the character. -/
def inRanges (ranges : List (Nat × Nat)) (c : Char) : Bool :=
  ranges.any (fun (low, high) => low ≤ c.toNat && c.toNat ≤ high)

end HttpWire.Text
