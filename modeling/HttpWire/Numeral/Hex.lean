import HttpWire.Bytes

/-!
# Hexadecimal size lines

The size of a chunk is written in lowercase base 16 without leading zeros. A size
line is also written over room that was reserved for it, so `width` says
beforehand how many digits there will be and `write` puts them at the front of
existing bytes. That a larger number never has fewer digits (`width_mono`) is what
makes the reserved room enough.
-/

namespace HttpWire.Hex

/-- How many digits `n` has; zero has one. -/
def width (n : Nat) : Nat :=
  if n = 0 then 1 else (Nat.log2 n + 4) / 4

/-- The lowercase digit of a number below sixteen. -/
def digit (d : Nat) : UInt8 :=
  if d < 10 then UInt8.ofNat (48 + d) else UInt8.ofNat (87 + d)

/-- The last `w` base-16 digits of `n`, most significant first. -/
def padded : Nat → Nat → Bytes
  | 0, _ => []
  | w + 1, n => padded w (n / 16) ++ [digit (n % 16)]

/-- The base-16 numeral of `n`. -/
def digits (n : Nat) : Bytes :=
  padded (width n) n

/-- Writes the numeral of `n` over the front of `dst` and leaves
the rest of it alone. -/
def write (n : Nat) (dst : Bytes) : Bytes :=
  digits n ++ dst.drop (width n)

theorem length_padded (w n : Nat) : (padded w n).length = w := by
  induction w generalizing n with
  | zero => rfl
  | succ w ih => simp [padded, ih]

theorem length_digits (n : Nat) : (digits n).length = width n :=
  length_padded (width n) n

theorem width_pos (n : Nat) : 0 < width n := by
  unfold width
  split <;> omega

theorem width_mono {m n : Nat} (h : m ≤ n) : width m ≤ width n := by
  unfold width
  by_cases hm : m = 0
  · rw [if_pos hm]
    split <;> omega
  · have hn : n ≠ 0 := by omega
    have hlog : Nat.log2 m ≤ Nat.log2 n :=
      (Nat.le_log2 hn).mpr (Nat.le_trans (Nat.log2_self_le hm) h)
    rw [if_neg hm, if_neg hn]
    omega

end HttpWire.Hex
