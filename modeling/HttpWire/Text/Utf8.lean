import HttpWire.Bytes

/-!
# Bytes shown as text

Messages quote bytes that need not be UTF-8. Decoding never fails: every maximal
piece that begins like a character and is cut off, and every byte that can begin
none, becomes one U+FFFD.
-/

namespace HttpWire.Text

/-- What stands for bytes that are no character. -/
def replacement : Char := '\uFFFD'

/-- What the first byte of a character announces: how many continuation
bytes follow, the bounds of the first of them, and the bits that the first
byte itself contributes. -/
structure Lead where
  tails : Nat
  low : UInt8
  high : UInt8
  bits : Nat
  deriving DecidableEq, Repr

/-- The first bytes that begin a character. The bounds rule out overlong forms,
surrogates and values above the last code point. -/
def Lead.ofByte? (b : UInt8) : Option Lead :=
  if b < 0x80 then some ⟨0, 0x80, 0xBF, b.toNat⟩
  else if b < 0xC2 then none
  else if b < 0xE0 then some ⟨1, 0x80, 0xBF, b.toNat - 0xC0⟩
  else if b < 0xF0 then
    some ⟨2, if b = 0xE0 then 0xA0 else 0x80, if b = 0xED then 0x9F else 0xBF,
      b.toNat - 0xE0⟩
  else if b < 0xF5 then
    some ⟨3, if b = 0xF0 then 0x90 else 0x80, if b = 0xF4 then 0x8F else 0xBF,
      b.toNat - 0xF0⟩
  else none

/-- Takes `k` continuation bytes, the first of them within the bounds, and answers
the code point and what follows; a byte that does not continue the character is
left for the next one. -/
def takeTails : Nat → UInt8 → UInt8 → Nat → Bytes → Option Nat × Bytes
  | 0, _, _, acc, rest => (some acc, rest)
  | _ + 1, _, _, _, [] => (none, [])
  | k + 1, low, high, acc, b :: rest =>
    if low ≤ b ∧ b ≤ high then takeTails k 0x80 0xBF (acc * 64 + (b.toNat - 0x80)) rest
    else (none, b :: rest)

theorem length_takeTails (k : Nat) (low high : UInt8) (acc : Nat) (x : Bytes) :
    (takeTails k low high acc x).2.length ≤ x.length := by
  fun_induction takeTails k low high acc x <;> simp_all
  omega

/-- One character off the front of a byte string that is not empty,
and what follows it. -/
def takeChar (b : UInt8) (rest : Bytes) : Char × Bytes :=
  match Lead.ofByte? b with
  | none => (replacement, rest)
  | some lead =>
    match takeTails lead.tails lead.low lead.high lead.bits rest with
    | (some code, after) => (Char.ofNat code, after)
    | (none, after) => (replacement, after)

theorem length_takeChar (b : UInt8) (rest : Bytes) :
    (takeChar b rest).2.length ≤ rest.length := by
  unfold takeChar
  split
  · exact Nat.le_refl _
  · next lead _ =>
    have h := length_takeTails lead.tails lead.low lead.high lead.bits rest
    split <;> next heq => rw [heq] at h; exact h

/-- The characters of a byte string. -/
def decodeChars : Bytes → List Char
  | [] => []
  | b :: rest => (takeChar b rest).1 :: decodeChars (takeChar b rest).2
termination_by x => x.length
decreasing_by
  have := length_takeChar b rest
  simp only [List.length_cons]
  omega

/-- A byte string shown as text. -/
def decode (x : Bytes) : String :=
  String.ofList (decodeChars x)

end HttpWire.Text
