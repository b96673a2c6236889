import Mathlib.Algebra.Group.Nat.Defs
import HttpWire.Numeral.Decimal
import HttpWire.Numeral.Hex

/-!
# Numerals read back

Two numerals are written into a message: lengths and status codes in base 10,
chunk sizes in base 16. A receiver reads both the same way, digit by digit from
the front (`Numeral.value?`), and takes more than is ever written: leading zeros,
capitals in base 16, numbers of any size.

`Hex.value_digits` and `Decimal.value_digits` say that it gets back the number
that was written. For lengths there is the converse too. `Decimal.parse?` is
stricter than a receiver: it takes exactly the numerals that `Decimal.digits`
writes, and of those the ones below the limit (`Decimal.parse?_eq_some_iff`). The
key step is the same in both directions, that one more digit behind a positive
number is the numeral of ten times it and that digit.

Of chunk sizes more is known than that they read back: they are written in
lowercase and without leading zeros (`Hex.IsNumeral`).
-/

namespace HttpWire

namespace Numeral

/-- Reads digits behind a number already read. -/
def valueFrom (base : Nat) (digit? : UInt8 → Option Nat)
    (acc : Nat) : Bytes → Option Nat
  | [] => some acc
  | b :: rest =>
    match digit? b with
    | none => none
    | some d => valueFrom base digit? (acc * base + d) rest

/-- The value of a numeral of one digit or more. -/
def value? (base : Nat) (digit? : UInt8 → Option Nat) (x : Bytes) : Option Nat :=
  if x.isEmpty then none else valueFrom base digit? 0 x

/-- The value of a decimal digit. -/
def decimalDigit? (b : UInt8) : Option Nat :=
  if 48 ≤ b ∧ b ≤ 57 then some (b.toNat - 48) else none

/-- The value of a base-16 digit, of either case. -/
def hexDigit? (b : UInt8) : Option Nat :=
  if 48 ≤ b ∧ b ≤ 57 then some (b.toNat - 48)
  else if 97 ≤ b ∧ b ≤ 102 then some (b.toNat - 87)
  else if 65 ≤ b ∧ b ≤ 70 then some (b.toNat - 55)
  else none

theorem valueFrom_append (base : Nat) (digit? : UInt8 → Option Nat) (acc : Nat)
    (x y : Bytes) :
    valueFrom base digit? acc (x ++ y)
      = (valueFrom base digit? acc x).bind (fun n => valueFrom base digit? n y) := by
  induction x generalizing acc with
  | nil => rfl
  | cons b x ih =>
    simp only [List.cons_append, valueFrom]
    cases digit? b with
    | none => rfl
    | some d => exact ih _

end Numeral

namespace Hex

theorem hexDigit?_digit {d : Nat} (h : d < 16) :
    Numeral.hexDigit? (digit d) = some d :=
  (by decide : ∀ d < 16, Numeral.hexDigit? (digit d) = some d) d h

theorem valueFrom_padded {w n : Nat} (acc : Nat) (h : n < 16 ^ w) :
    Numeral.valueFrom 16 Numeral.hexDigit? acc (padded w n)
      = some (acc * 16 ^ w + n) := by
  induction w generalizing n with
  | zero =>
    rw [Nat.pow_zero] at h
    simp only [padded, Numeral.valueFrom, Nat.pow_zero, Option.some.injEq]
    omega
  | succ w ih =>
    rw [Nat.pow_succ] at h
    rw [padded, Numeral.valueFrom_append, ih (by omega)]
    simp only [Option.bind_some, Numeral.valueFrom,
      hexDigit?_digit (Nat.mod_lt n (by decide))]
    rw [Nat.pow_succ, Nat.add_mul, Nat.mul_assoc, Nat.add_assoc, Nat.div_add_mod']

theorem lt_pow_width (n : Nat) : n < 16 ^ width n := by
  unfold width
  split
  · next h => rw [h]; decide
  · have hlog : n < 2 ^ (n.log2 + 1) := Nat.lt_log2_self
    have hle : 2 ^ (n.log2 + 1) ≤ 2 ^ (4 * ((n.log2 + 4) / 4)) :=
      Nat.pow_le_pow_right (by decide) (by omega)
    rw [show (16 : Nat) = 2 ^ 4 from rfl, ← Nat.pow_mul]
    exact Nat.lt_of_lt_of_le hlog hle

theorem value_digits (n : Nat) :
    Numeral.value? 16 Numeral.hexDigit? (digits n) = some n := by
  have hne : (digits n).isEmpty = false := by
    rw [List.isEmpty_eq_false_iff]
    intro hnil
    have hlen := length_digits n
    have hpos := width_pos n
    rw [hnil] at hlen
    simp only [List.length_nil] at hlen
    omega
  rw [Numeral.value?, hne, digits, valueFrom_padded 0 (lt_pow_width n), Nat.zero_mul,
    Nat.zero_add]
  rfl

/-- The bytes that a size is written with. -/
def isDigit (b : UInt8) : Bool :=
  (48 ≤ b && b ≤ 57) || (97 ≤ b && b ≤ 102)

theorem isDigit_of_mem_padded {w n : Nat} {b : UInt8} (h : b ∈ padded w n) :
    isDigit b = true := by
  induction w generalizing n with
  | zero => cases h
  | succ w ih =>
    rw [padded, List.mem_append, List.mem_singleton] at h
    rcases h with h | h
    · exact ih h
    · rw [h]
      exact (by decide : ∀ d < 16, isDigit (digit d) = true) _
        (Nat.mod_lt n (by decide))

theorem isDigit_of_mem_digits {n : Nat} {b : UInt8} (h : b ∈ digits n) :
    isDigit b = true :=
  isDigit_of_mem_padded h

theorem pow_le_of_width {n w : Nat} (hn : 0 < n) (hw : width n = w + 1) :
    16 ^ w ≤ n := by
  have hne : n ≠ 0 := Nat.ne_of_gt hn
  rw [width, if_neg hne] at hw
  rw [show (16 : Nat) = 2 ^ 4 from rfl, ← Nat.pow_mul]
  exact Nat.le_trans (Nat.pow_le_pow_right (by decide) (by omega))
    (Nat.log2_self_le hne)

/-- A place holds the digit of its weight. -/
theorem getElem?_padded {w n i : Nat} (h : i < w) :
    (padded w n)[i]? = some (digit (n / 16 ^ (w - 1 - i) % 16)) := by
  induction w generalizing n with
  | zero => omega
  | succ w ih =>
    rw [padded]
    by_cases hi : i < w
    · rw [List.getElem?_append_left (by rwa [length_padded]), ih hi,
        Nat.div_div_eq_div_mul, ← Nat.pow_succ',
        show (w - 1 - i).succ = w + 1 - 1 - i by omega]
    · obtain rfl : i = w := by omega
      rw [List.getElem?_append_right (Nat.le_of_eq (length_padded i _)), length_padded]
      simp

/-- The lowercase numeral of a number in base 16, without leading zeros. -/
structure IsNumeral (x : Bytes) (n : Nat) : Prop where
  value : Numeral.value? 16 Numeral.hexDigit? x = some n
  lowercase : ∀ b ∈ x, isDigit b = true
  no_leading_zero : x.head? = some 48 → x = [48]

theorem isNumeral_digits (n : Nat) : IsNumeral (digits n) n where
  value := value_digits n
  lowercase _ hb := isDigit_of_mem_digits hb
  no_leading_zero hzero := by
    by_cases hn : n = 0
    · rw [hn]
      rfl
    · obtain ⟨w, hw⟩ := Nat.exists_eq_succ_of_ne_zero (Nat.ne_of_gt (width_pos n))
      have hlow := pow_le_of_width (Nat.pos_of_ne_zero hn) hw
      have hhigh : n < 16 * 16 ^ w := by
        have hlt := lt_pow_width n
        rwa [hw, Nat.pow_succ'] at hlt
      have hpos : 0 < n / 16 ^ w := Nat.div_pos hlow (Nat.pow_pos (by decide))
      have hlt : n / 16 ^ w < 16 := Nat.div_lt_of_lt_mul (Nat.mul_comm 16 _ ▸ hhigh)
      rw [digits, hw, List.head?_eq_getElem?, getElem?_padded (Nat.succ_pos w),
        Option.some.injEq, Nat.sub_zero, Nat.succ_sub_one, Nat.mod_eq_of_lt hlt]
        at hzero
      have hnot := (by decide : ∀ d < 16, digit d = 48 → d = 0) _ hlt hzero
      omega

end Hex

namespace Decimal

theorem digits_of_lt {n : Nat} (h : n < 10) : digits n = [UInt8.ofNat (48 + n)] := by
  rw [digits, Nat.toDigits_of_lt_base h]
  exact (by decide : ∀ n < 10, [(Nat.digitChar n).toUInt8] = [UInt8.ofNat (48 + n)]) n
    h

theorem digits_append {m d : Nat} (hm : 0 < m) (hd : d < 10) :
    digits m ++ [UInt8.ofNat (48 + d)] = digits (m * 10 + d) := by
  rw [← digits_of_lt hd, digits, digits, digits, ← List.map_append,
    Nat.toDigits_append_toDigits (by decide) hm hd, Nat.mul_comm m 10]

/-- A numeral of two digits or more is that of its tenth with one more digit. -/
theorem digits_step {n : Nat} (h : 10 ≤ n) :
    digits n = digits (n / 10) ++ [UInt8.ofNat (48 + n % 10)] := by
  rw [digits_append (by omega) (Nat.mod_lt n (by decide)), Nat.div_add_mod']

theorem isDigit_ofNat {d : Nat} (h : d < 10) :
    Grammar.isDigit (UInt8.ofNat (48 + d)) = true :=
  (by decide : ∀ d < 10, Grammar.isDigit (UInt8.ofNat (48 + d)) = true) d h

theorem toNat_ofNat {d : Nat} (h : d < 10) : (UInt8.ofNat (48 + d)).toNat - 48 = d :=
  (by decide : ∀ d < 10, (UInt8.ofNat (48 + d)).toNat - 48 = d) d h

theorem digit_of_isDigit {b : UInt8} (h : Grammar.isDigit b = true) :
    b.toNat - 48 < 10 ∧ UInt8.ofNat (48 + (b.toNat - 48)) = b := by
  simp only [Grammar.isDigit, Bool.and_eq_true, decide_eq_true_eq,
    UInt8.le_iff_toNat_le] at h
  have hlow : 48 ≤ b.toNat := h.1
  have hhigh : b.toNat ≤ 57 := h.2
  refine ⟨by omega, ?_⟩
  rw [show 48 + (b.toNat - 48) = b.toNat by omega]
  exact UInt8.ofNat_toNat

theorem isDigit_of_mem_digits {n : Nat} {b : UInt8} (h : b ∈ digits n) :
    Grammar.isDigit b = true := by
  induction n using Nat.strongRecOn with
  | ind n ih =>
    by_cases hn : n < 10
    · rw [digits_of_lt hn, List.mem_singleton] at h
      rw [h]
      exact isDigit_ofNat hn
    · rw [digits_step (by omega), List.mem_append, List.mem_singleton] at h
      rcases h with h | h
      · exact ih (n / 10) (by omega) h
      · rw [h]
        exact isDigit_ofNat (Nat.mod_lt n (by decide))

/-- The numeral of a positive number begins with a digit that is not zero. -/
theorem digits_eq_cons {n : Nat} (h : 0 < n) :
    ∃ b rest, digits n = b :: rest ∧ b ≠ 48 := by
  induction n using Nat.strongRecOn with
  | ind n ih =>
    by_cases hn : n < 10
    · refine ⟨_, [], digits_of_lt hn, ?_⟩
      exact (by decide : ∀ n < 10, 0 < n → UInt8.ofNat (48 + n) ≠ 48) n hn h
    · obtain ⟨b, rest, heq, hb⟩ := ih (n / 10) (by omega) (by omega)
      rw [digits_step (by omega), heq]
      exact ⟨b, rest ++ _, rfl, hb⟩

theorem parseFrom_append (acc : Nat) (x y : Bytes) :
    parseFrom acc (x ++ y) = (parseFrom acc x).bind (fun n => parseFrom n y) := by
  induction x generalizing acc with
  | nil => rfl
  | cons b x ih =>
    simp only [List.cons_append, parseFrom]
    split
    · split
      · exact ih _
      · rfl
    · rfl

theorem parseFrom_digits {n : Nat} (h : n < limit) :
    parseFrom 0 (digits n) = some n := by
  induction n using Nat.strongRecOn with
  | ind n ih =>
    by_cases hn : n < 10
    · rw [digits_of_lt hn, parseFrom, if_pos (isDigit_ofNat hn)]
      simp only [toNat_ofNat hn, Nat.zero_mul, Nat.zero_add]
      rw [if_pos h]
      rfl
    · have hd : n % 10 < 10 := Nat.mod_lt n (by decide)
      rw [digits_step (by omega), parseFrom_append, ih (n / 10) (by omega) (by omega),
        Option.bind_some, parseFrom, if_pos (isDigit_ofNat hd)]
      simp only [toNat_ofNat hd, Nat.div_add_mod']
      rw [if_pos h]
      rfl

theorem parseFrom_cons {acc n : Nat} {b : UInt8} {x : Bytes} :
    parseFrom acc (b :: x) = some n ↔
      Grammar.isDigit b = true ∧ acc * 10 + (b.toNat - 48) < limit
      ∧ parseFrom (acc * 10 + (b.toNat - 48)) x = some n := by
  rw [parseFrom]
  split
  · next hb =>
    simp only
    split
    · next hlt => simp only [hb, hlt, true_and]
    · next hlt => simp only [hlt, false_and, and_false, reduceCtorEq]
  · next hb => simp only [hb, Bool.false_eq_true, false_and, reduceCtorEq]

theorem digits_of_parseFrom {acc n : Nat} {x : Bytes} (hacc : 0 < acc)
    (hlt : acc < limit) (h : parseFrom acc x = some n) :
    n < limit ∧ digits acc ++ x = digits n := by
  induction x generalizing acc with
  | nil =>
    simp only [parseFrom, Option.some.injEq] at h
    rw [← h]
    exact ⟨hlt, List.append_nil _⟩
  | cons b x ih =>
    obtain ⟨hb, hmore, hrest⟩ := parseFrom_cons.mp h
    obtain ⟨hd, heq⟩ := digit_of_isDigit hb
    have hread := ih (by omega) hmore hrest
    rw [← digits_append hacc hd, heq, List.append_assoc] at hread
    exact hread

/-- Exactly the numerals that are written are read, as far as they
stay below the limit. -/
theorem parse?_eq_some_iff {x : Bytes} {n : Nat} :
    parse? x = some n ↔ n < limit ∧ x = digits n := by
  constructor
  · intro h
    cases x with
    | nil => cases h
    | cons b rest =>
      rw [parse?] at h
      split at h
      · next hb =>
        split at h
        · next hrest =>
          cases h
          rw [List.isEmpty_iff.mp hrest, hb]
          exact ⟨by decide, rfl⟩
        · cases h
      · next hb =>
        obtain ⟨hdigit, hlt, hrest⟩ := parseFrom_cons.mp h
        obtain ⟨hd, heq⟩ := digit_of_isDigit hdigit
        have hpos : 0 < b.toNat - 48 := by
          refine Nat.pos_of_ne_zero ?_
          intro hzero
          rw [hzero] at heq
          exact hb heq.symm
        rw [Nat.zero_mul, Nat.zero_add] at hlt hrest
        have hread := digits_of_parseFrom hpos hlt hrest
        rw [digits_of_lt hd, heq] at hread
        exact hread
  · rintro ⟨hlt, rfl⟩
    by_cases hn : n = 0
    · subst hn
      rfl
    · obtain ⟨b, rest, heq, hb⟩ := digits_eq_cons (Nat.pos_of_ne_zero hn)
      have hparse := parseFrom_digits hlt
      rw [heq] at hparse ⊢
      rw [parse?, if_neg hb]
      exact hparse

theorem decimalDigit?_of_isDigit {b : UInt8} (h : Grammar.isDigit b = true) :
    Numeral.decimalDigit? b = some (b.toNat - 48) := by
  simp only [Grammar.isDigit, Bool.and_eq_true, decide_eq_true_eq] at h
  rw [Numeral.decimalDigit?, if_pos h]

theorem value_digits (n : Nat) :
    Numeral.value? 10 Numeral.decimalDigit? (digits n) = some n := by
  have hfrom : Numeral.valueFrom 10 Numeral.decimalDigit? 0 (digits n) = some n := by
    induction n using Nat.strongRecOn with
    | ind n ih =>
      by_cases hn : n < 10
      · rw [digits_of_lt hn, Numeral.valueFrom,
          decimalDigit?_of_isDigit (isDigit_ofNat hn), toNat_ofNat hn]
        simp [Numeral.valueFrom]
      · have hd : n % 10 < 10 := Nat.mod_lt n (by decide)
        rw [digits_step (by omega), Numeral.valueFrom_append,
          ih (n / 10) (by omega), Option.bind_some, Numeral.valueFrom,
          decimalDigit?_of_isDigit (isDigit_ofNat hd), toNat_ofNat hd]
        simp only [Numeral.valueFrom, Nat.div_add_mod']
  have hne : (digits n).isEmpty = false := by
    by_cases hn : n = 0
    · subst hn
      rfl
    · obtain ⟨b, rest, heq, -⟩ := digits_eq_cons (Nat.pos_of_ne_zero hn)
      rw [heq]
      rfl
  rw [Numeral.value?, hne]
  exact hfrom

end Decimal

end HttpWire
