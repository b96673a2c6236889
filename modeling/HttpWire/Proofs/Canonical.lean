import Mathlib.Data.List.Induction
import HttpWire.Proofs.Numerals

/-!
# One numeral for each number

A receiver takes many spellings of a number; a message is written with one. In
either base that one has no zero in front of another digit (`Numeral.Canonical`),
and there is no second such spelling (`Alphabet.eq_of_value`): the value of a
numeral tells its last digit and the value of the digits before it, and a front
that begins with no zero is empty exactly if it is worth nothing.

Two consequences are stated here. A length is accepted if it is the one numeral of
a number below 2^64, and a larger value is refused however many digits it has
(`Decimal.accepted_iff_isNumeral`). A size line that is written over reserved room
puts the one numeral of the size into the places that were counted beforehand, a
digit for each of them, and changes nothing behind them (`Hex.write_exact`).
-/

namespace HttpWire

namespace Numeral

section Reading

variable {base : Nat} {digit? : UInt8 → Option Nat}

theorem le_of_valueFrom (hbase : 0 < base) {acc n : Nat} {x : Bytes}
    (h : valueFrom base digit? acc x = some n) : acc ≤ n := by
  induction x generalizing acc with
  | nil => exact Nat.le_of_eq (Option.some.inj h)
  | cons b x ih =>
    rw [valueFrom] at h
    split at h
    · cases h
    · next d hd =>
      have hmul : acc ≤ acc * base := Nat.le_mul_of_pos_right acc hbase
      have hle := ih h
      omega

theorem valueFrom_concat {acc n : Nat} {x : Bytes} {b : UInt8} :
    valueFrom base digit? acc (x ++ [b]) = some n ↔
      ∃ m d, valueFrom base digit? acc x = some m ∧ digit? b = some d
        ∧ m * base + d = n := by
  rw [valueFrom_append, Option.bind_eq_some_iff]
  constructor
  · intro h
    obtain ⟨m, hm, hn⟩ := h
    rw [valueFrom] at hn
    split at hn
    · cases hn
    · next d hd => exact ⟨m, d, hm, hd, Option.some.inj hn⟩
  · intro h
    obtain ⟨m, d, hm, hd, hn⟩ := h
    refine ⟨m, hm, ?_⟩
    rw [valueFrom, hd]
    exact congrArg some hn

/-- The byte string does not begin with a digit that is worth nothing. -/
def Trimmed (digit? : UInt8 → Option Nat) (x : Bytes) : Prop :=
  ∀ b, x.head? = some b → digit? b ≠ some 0

theorem Trimmed.of_concat {x : Bytes} {b : UInt8} (h : Trimmed digit? (x ++ [b])) :
    Trimmed digit? x := by
  intro c hc
  refine h c ?_
  rw [List.head?_append, hc, Option.some_or]

theorem Trimmed.eq_nil_iff {x : Bytes} {n : Nat} (h : Trimmed digit? x)
    (hbase : 0 < base) (hn : valueFrom base digit? 0 x = some n) : x = [] ↔ n = 0 := by
  cases x with
  | nil =>
    have hzero := Option.some.inj hn
    exact ⟨fun _ => hzero.symm, fun _ => rfl⟩
  | cons b x =>
    rw [valueFrom] at hn
    split at hn
    · cases hn
    · next d hd =>
      have hle := le_of_valueFrom hbase hn
      have hpos : d ≠ 0 := fun hzero => h b rfl (hzero ▸ hd)
      have hn : n ≠ 0 := by omega
      exact iff_of_false (List.cons_ne_nil b x) hn

end Reading

/-- The bytes that a base is written with: one for each digit, and
a zero among them. -/
structure Alphabet (base : Nat) (digit? : UInt8 → Option Nat)
    (written : UInt8 → Bool) : Prop where
  lt_base : ∀ b d, written b = true → digit? b = some d → d < base
  unique : ∀ b c d, written b = true → written c = true → digit? b = some d →
    digit? c = some d → b = c
  zero : written 48 = true ∧ digit? 48 = some 0

/-- A numeral as it is written: written bytes that have this value, and no zero in
front of another digit. -/
structure Canonical (base : Nat) (digit? : UInt8 → Option Nat) (written : UInt8 → Bool)
    (x : Bytes) (n : Nat) : Prop where
  value : value? base digit? x = some n
  all_written : ∀ b ∈ x, written b = true
  no_leading_zero : x.head? = some 48 → x = [48]

namespace Alphabet

variable {base n : Nat} {digit? : UInt8 → Option Nat} {written : UInt8 → Bool}
  {x y : Bytes}
variable (h : Alphabet base digit? written)

include h

theorem base_pos : 0 < base :=
  Nat.lt_of_le_of_lt (Nat.zero_le 0) (h.lt_base 48 0 h.zero.1 h.zero.2)

theorem eq_of_trimmed (hx : Trimmed digit? x) (hy : Trimmed digit? y)
    (hwx : ∀ b ∈ x, written b = true) (hwy : ∀ b ∈ y, written b = true)
    (hnx : valueFrom base digit? 0 x = some n)
    (hny : valueFrom base digit? 0 y = some n) : x = y := by
  have hbase := h.base_pos
  -- from the last digit to the first, since a value gives up its
  -- last digit by division
  induction x using List.reverseRecOn generalizing y n with
  | nil =>
    exact ((hy.eq_nil_iff hbase hny).mpr ((hx.eq_nil_iff hbase hnx).mp rfl)).symm
  | append_singleton x b ih =>
    cases y using List.reverseRecOn with
    | nil => exact (hx.eq_nil_iff hbase hnx).mpr ((hy.eq_nil_iff hbase hny).mp rfl)
    | append_singleton y c =>
      obtain ⟨m, d, hm, hd, hmd⟩ := valueFrom_concat.mp hnx
      obtain ⟨m', d', hm', hd', hmd'⟩ := valueFrom_concat.mp hny
      have hwb := hwx b (by simp)
      have hwc := hwy c (by simp)
      have hsplit : n / base = m ∧ n % base = d :=
        (Nat.div_mod_unique hbase).mpr
          ⟨by rw [← hmd, Nat.mul_comm, Nat.add_comm], h.lt_base b d hwb hd⟩
      have hsplit' : n / base = m' ∧ n % base = d' :=
        (Nat.div_mod_unique hbase).mpr
          ⟨by rw [← hmd', Nat.mul_comm, Nat.add_comm], h.lt_base c d' hwc hd'⟩
      obtain rfl : m = m' := hsplit.1.symm.trans hsplit'.1
      obtain rfl : d = d' := hsplit.2.symm.trans hsplit'.2
      have hfront :=
        ih hx.of_concat hy.of_concat (fun e he => hwx e (List.mem_append_left _ he))
        (fun e he => hwy e (List.mem_append_left _ he)) hm hm'
      rw [hfront, h.unique b c d hwb hwc hd hd']

theorem zero_or_trimmed (hx : Canonical base digit? written x n) :
    x = [48] ∧ n = 0 ∨ Trimmed digit? x ∧ valueFrom base digit? 0 x = some n
      ∧ n ≠ 0 := by
  have hn := hx.value
  rw [value?] at hn
  split at hn
  · cases hn
  · next hne =>
    by_cases hfirst : x.head? = some 48
    · have hzero := hx.no_leading_zero hfirst
      rw [hzero, valueFrom, h.zero.2] at hn
      have hnone : 0 * base + 0 = n := Option.some.inj hn
      exact .inl ⟨hzero, by omega⟩
    · have htrimmed : Trimmed digit? x := by
        intro b hb hd
        have hwb := hx.all_written b (List.mem_of_mem_head? hb)
        rw [h.unique b 48 0 hwb h.zero.1 hd h.zero.2] at hb
        exact hfirst hb
      refine .inr ⟨htrimmed, hn, fun hnone => hne ?_⟩
      rw [(htrimmed.eq_nil_iff h.base_pos hn).mpr hnone]
      rfl

/-- A number has one numeral. -/
theorem eq_of_value (hx : Canonical base digit? written x n)
    (hy : Canonical base digit? written y n) : x = y := by
  obtain ⟨hzx, hn⟩ | ⟨htx, hnx, hn⟩ := h.zero_or_trimmed hx
  · obtain ⟨hzy, -⟩ | ⟨-, -, hne⟩ := h.zero_or_trimmed hy
    · rw [hzx, hzy]
    · exact absurd hn hne
  · obtain ⟨-, hzero⟩ | ⟨hty, hny, -⟩ := h.zero_or_trimmed hy
    · exact absurd hzero hn
    · exact h.eq_of_trimmed htx hty hx.all_written hy.all_written hnx hny

theorem canonical_iff (hy : Canonical base digit? written y n) :
    Canonical base digit? written x n ↔ x = y := by
  constructor
  · intro hx
    exact h.eq_of_value hx hy
  · intro heq
    rw [heq]
    exact hy

end Alphabet

end Numeral

/-! ## Lengths -/

namespace Decimal

theorem alphabet : Numeral.Alphabet 10 Numeral.decimalDigit? Grammar.isDigit where
  lt_base b d hb hd := by
    rw [decimalDigit?_of_isDigit hb, Option.some.injEq] at hd
    rw [← hd]
    exact (digit_of_isDigit hb).1
  unique b c d hb hc hdb hdc := by
    rw [decimalDigit?_of_isDigit hb] at hdb
    rw [decimalDigit?_of_isDigit hc] at hdc
    rw [← (digit_of_isDigit hb).2, ← (digit_of_isDigit hc).2, Option.some.inj hdb,
      Option.some.inj hdc]
  zero := ⟨by decide, by decide⟩

/-- The decimal numeral of a number: ASCII digits of this value, without sign,
blank or leading zero. -/
abbrev IsNumeral : Bytes → Nat → Prop :=
  Numeral.Canonical 10 Numeral.decimalDigit? Grammar.isDigit

theorem isNumeral_digits (n : Nat) : IsNumeral (digits n) n where
  value := value_digits n
  all_written _ hb := isDigit_of_mem_digits hb
  no_leading_zero hzero := by
    by_cases hn : n = 0
    · rw [hn]
      rfl
    · obtain ⟨b, rest, heq, hb⟩ := digits_eq_cons (Nat.pos_of_ne_zero hn)
      rw [heq] at hzero
      exact absurd (Option.some.inj hzero) hb

theorem isNumeral_iff {x : Bytes} {n : Nat} : IsNumeral x n ↔ x = digits n :=
  alphabet.canonical_iff (isNumeral_digits n)

/-- What is accepted as a length are the numerals of the numbers below 2^64, each
as its number; a number has one numeral. Digits of any count that are worth 2^64
or more are refused, so no value comes back reduced. -/
theorem accepted_iff_isNumeral (x : Bytes) :
    (∀ n, parse? x = some n ↔ n < 2 ^ 64 ∧ IsNumeral x n)
      ∧ (∀ n, IsNumeral x n ↔ x = digits n)
      ∧ ∀ n, Numeral.value? 10 Numeral.decimalDigit? x = some n → 2 ^ 64 ≤ n →
        parse? x = none := by
  have haccepted : ∀ n, parse? x = some n ↔ n < 2 ^ 64 ∧ IsNumeral x n := by
    intro n
    rw [isNumeral_iff]
    exact parse?_eq_some_iff
  refine ⟨haccepted, fun n => isNumeral_iff, fun n hvalue hlarge => ?_⟩
  rw [Option.eq_none_iff_forall_ne_some]
  intro m hm
  obtain ⟨hlt, hnumeral⟩ := (haccepted m).mp hm
  obtain rfl : n = m := Option.some.inj (hvalue.symm.trans hnumeral.value)
  omega

/-- In 64 bits these digits would leave a five. -/
theorem refused_wrapping :
    let x := Bytes.ofString "18446744073709551621"
    Numeral.value? 10 Numeral.decimalDigit? x = some (2 ^ 64 + 5) ∧ 2 ^ 64 ≤ 2 ^ 64 + 5
      ∧ parse? x = none := by
  intro x
  have hvalue : Numeral.value? 10 Numeral.decimalDigit? x = some (2 ^ 64 + 5) := by
    decide
  exact ⟨hvalue, by decide, (accepted_iff_isNumeral x).2.2 _ hvalue (by decide)⟩

end Decimal

/-! ## Size lines -/

namespace Hex

theorem digit_of_isDigit {b : UInt8} {d : Nat} (hb : isDigit b = true)
    (hd : Numeral.hexDigit? b = some d) :
    d < 16 ∧ digit d = b := by
  have hall : ∀ m < 256, isDigit (UInt8.ofNat m) = true →
      ∀ d ∈ Numeral.hexDigit? (UInt8.ofNat m), d < 16 ∧ digit d = UInt8.ofNat m := by
    decide +kernel
  have hbyte := hall b.toNat b.toNat_lt
  rw [UInt8.ofNat_toNat] at hbyte
  exact hbyte hb d hd

theorem alphabet : Numeral.Alphabet 16 Numeral.hexDigit? isDigit where
  lt_base b d hb hd := (digit_of_isDigit hb hd).1
  unique b c d hb hc hdb hdc := by
    rw [← (digit_of_isDigit hb hdb).2, ← (digit_of_isDigit hc hdc).2]
  zero := ⟨by decide, by decide⟩

theorem isNumeral_iff_canonical {x : Bytes} {n : Nat} :
    IsNumeral x n ↔ Numeral.Canonical 16 Numeral.hexDigit? isDigit x n := by
  constructor
  · intro h
    exact ⟨h.value, h.lowercase, h.no_leading_zero⟩
  · intro h
    exact ⟨h.value, h.all_written, h.no_leading_zero⟩

theorem isNumeral_iff {x : Bytes} {n : Nat} : IsNumeral x n ↔ x = digits n := by
  rw [isNumeral_iff_canonical]
  exact alphabet.canonical_iff (isNumeral_iff_canonical.mp (isNumeral_digits n))

theorem width_le_sixteen {n : Nat} (h : n < 2 ^ 64) : width n ≤ 16 := by
  by_cases hn : n = 0
  · subst hn
    decide
  · have hlog : n.log2 < 64 := (Nat.log2_lt hn).mpr h
    rw [width, if_neg hn]
    omega

/-- Writing a size over room for it changes the first `width n` places and no
other: they hold the digits of `n` by their weights, and together the one
lowercase numeral of `n`. A size below 2^64 takes sixteen places at most, and a
smaller size never takes more. -/
theorem write_exact {n : Nat} {dst : Bytes} (hn : n < 2 ^ 64)
    (hdst : width n ≤ dst.length) :
    (write n dst).length = dst.length
      ∧ (∀ i, (write n dst)[i]?
        = if i < width n then some (digit (n / 16 ^ (width n - 1 - i) % 16))
          else dst[i]?)
      ∧ (∀ size, IsNumeral size n ↔ size = (write n dst).take (width n))
      ∧ 1 ≤ width n ∧ width n ≤ 16 ∧ ∀ m ≤ n, width m ≤ width n := by
  have hlength := length_digits n
  refine ⟨?_, fun i => ?_, fun size => ?_, width_pos n, width_le_sixteen hn,
    fun m hm => width_mono hm⟩
  · rw [write, List.length_append, hlength, List.length_drop]
    omega
  · split
    · next hi =>
      rw [write, List.getElem?_append_left (by rwa [hlength])]
      exact getElem?_padded hi
    · next hi =>
      rw [write, List.getElem?_append_right (by omega), hlength, List.getElem?_drop,
        Nat.add_sub_cancel' (by omega)]
  · rw [write, List.take_left' hlength]
    exact isNumeral_iff

/-- Sixteen places of which four are used. -/
theorem write_exact_scratch :
    let dst : Bytes := List.replicate 16 0
    0x1a2f < 2 ^ 64 ∧ width 0x1a2f ≤ dst.length
      ∧ (write 0x1a2f dst).take 4 = Bytes.ofString "1a2f"
      ∧ IsNumeral (Bytes.ofString "1a2f") 0x1a2f
      ∧ (write 0x1a2f dst)[4]? = some 0 := by
  intro dst
  have hn : 0x1a2f < 2 ^ 64 := by decide
  have hdst : width 0x1a2f ≤ dst.length := by decide
  obtain ⟨-, hplaces, hnumeral, -⟩ := write_exact hn hdst
  have hdigits : (write 0x1a2f dst).take 4 = Bytes.ofString "1a2f" := by decide
  exact ⟨hn, hdst, hdigits, (hnumeral _).mpr hdigits.symm,
    (hplaces 4).trans (by decide)⟩

end Hex

end HttpWire
