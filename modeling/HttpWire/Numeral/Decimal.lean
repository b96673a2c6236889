import HttpWire.Grammar

/-!
# Decimal numerals

Lengths travel as decimal numerals in one canonical form: no sign, no
blank, no leading zero, below 2^64. `digits` writes that form and `parse?`
reads exactly that form.
-/

namespace HttpWire.Decimal

/-- The numerals that are read stay below this. -/
def limit : Nat := UInt64.size

/-- The decimal numeral of `n`. -/
def digits (n : Nat) : Bytes :=
  (Nat.toDigits 10 n).map Char.toUInt8

/-- Reads digits behind a number already read; gives up at a foreign
byte and at the limit. -/
def parseFrom (acc : Nat) : Bytes → Option Nat
  | [] => some acc
  | b :: rest =>
    if Grammar.isDigit b then
      let n := acc * 10 + (b.toNat - 48)
      if n < limit then parseFrom n rest else none
    else none

/-- Reads a canonical numeral below the limit and refuses everything else. -/
def parse? : Bytes → Option Nat
  | [] => none
  | b :: rest =>
    if b = 48 then (if rest.isEmpty then some 0 else none)
    else parseFrom 0 (b :: rest)

end HttpWire.Decimal
