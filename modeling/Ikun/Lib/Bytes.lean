import Mathlib.Data.Nat.Digits.Defs
import Mathlib.Tactic.Common

/-!
# Byte strings

Fields of a byte stream that can be read back: big-endian integers of a fixed width
(`bigEndian_injective`), and decimal integers, which end at the first byte that is no digit
(`decimal_append_inj`).
-/

/-- A byte string. -/
abbrev Bytes := List UInt8

namespace Bytes

/-- The bytes of an ASCII literal. -/
def ascii (s : String) : Bytes := s.toList.map fun c => UInt8.ofNat c.toNat

/-! ## Fixed width -/

/-- The `k` low bytes of `n`, most significant first. -/
def bigEndian : ℕ → ℕ → Bytes
  | 0, _ => []
  | k + 1, n => bigEndian k (n / 256) ++ [UInt8.ofNat n]

@[simp] theorem length_bigEndian (k n : ℕ) : (bigEndian k n).length = k := by
  induction k generalizing n with
  | zero => rfl
  | succ k ih => simp [bigEndian, ih]

theorem bigEndian_injective {k n m : ℕ} (hn : n < 256 ^ k) (hm : m < 256 ^ k)
    (h : bigEndian k n = bigEndian k m) : n = m := by
  induction k generalizing n m with
  | zero =>
    rw [Nat.pow_zero, Nat.lt_one_iff] at hn hm
    rw [hn, hm]
  | succ k ih =>
    obtain ⟨hhigh, hlow⟩ := List.append_inj' h rfl
    rw [Nat.pow_succ] at hn hm
    have hdiv := ih (Nat.div_lt_of_lt_mul (Nat.mul_comm _ _ ▸ hn))
      (Nat.div_lt_of_lt_mul (Nat.mul_comm _ _ ▸ hm)) hhigh
    have hmod : n % 256 = m % 256 := by
      have := congrArg UInt8.toNat (List.singleton_inj.mp hlow)
      simpa using this
    rw [← Nat.div_add_mod n 256, ← Nat.div_add_mod m 256, hdiv, hmod]

/-- Two fields of the same width are the same, and so is what follows. -/
theorem bigEndian_append_inj {k n m : ℕ} {r s : Bytes} (hn : n < 256 ^ k) (hm : m < 256 ^ k)
    (h : bigEndian k n ++ r = bigEndian k m ++ s) : n = m ∧ r = s := by
  obtain ⟨hfield, hrest⟩ := List.append_inj h (by simp)
  exact ⟨bigEndian_injective hn hm hfield, hrest⟩

/-! ## Fields that end with a separator -/

theorem separator_append_inj {sep : UInt8} {t u r s : Bytes} (ht : sep ∉ t) (hu : sep ∉ u)
    (h : t ++ sep :: r = u ++ sep :: s) : t = u ∧ r = s := by
  induction t generalizing u with
  | nil =>
    cases u with
    | nil => exact ⟨rfl, (List.cons.inj h).2⟩
    | cons c u => exact absurd ((List.cons.inj h).1 ▸ List.mem_cons_self) hu
  | cons b t ih =>
    cases u with
    | nil => exact absurd ((List.cons.inj h).1 ▸ List.mem_cons_self) ht
    | cons c u =>
      obtain ⟨hbc, htail⟩ := List.cons.inj h
      obtain ⟨htu, hrest⟩ := ih (List.not_mem_of_not_mem_cons ht) (List.not_mem_of_not_mem_cons hu) htail
      exact ⟨hbc ▸ htu ▸ rfl, hrest⟩

/-! ## Decimal integers -/

def isDigit (b : UInt8) : Bool := 48 ≤ b && b ≤ 57

/-- The decimal digits of a natural number. -/
def decimal (n : ℕ) : Bytes :=
  if n = 0 then [48] else ((Nat.digits 10 n).map fun d => UInt8.ofNat (48 + d)).reverse

/-- `str(n).encode()`. -/
def decimalInt : ℤ → Bytes
  | .ofNat n => decimal n
  | .negSucc n => 45 :: decimal (n + 1)

/-- Does the byte string start with no digit? -/
def Delimited (r : Bytes) : Prop := ∀ b ∈ r.head?, isDigit b = false

theorem digit_toNat {d : ℕ} (h : d < 10) : (UInt8.ofNat (48 + d)).toNat = 48 + d := by
  rw [UInt8.toNat_ofNat']
  exact Nat.mod_eq_of_lt (by omega)

theorem isDigit_digit {d : ℕ} (h : d < 10) : isDigit (UInt8.ofNat (48 + d)) = true := by
  have := digit_toNat h
  simp only [isDigit, Bool.and_eq_true, decide_eq_true_eq, UInt8.le_iff_toNat_le, this]
  exact ⟨Nat.le_add_right _ _, by change 48 + d ≤ 57; omega⟩

theorem isDigit_of_mem_decimal {n : ℕ} : ∀ b ∈ decimal n, isDigit b = true := by
  intro b hb
  unfold decimal at hb
  split at hb
  · rw [List.mem_singleton.mp hb]
    decide
  · obtain ⟨d, hd, rfl⟩ := List.mem_map.mp (List.mem_reverse.mp hb)
    exact isDigit_digit (Nat.digits_lt_base (by decide) hd)

/-- The digits can be read back. -/
theorem ofDigits_decimal (n : ℕ) :
    Nat.ofDigits 10 ((decimal n).reverse.map fun b => b.toNat - 48) = n := by
  unfold decimal
  split
  · next h =>
    rw [h]
    rfl
  · have hread : ((Nat.digits 10 n).map fun d => UInt8.ofNat (48 + d)).map
        (fun b => b.toNat - 48) = Nat.digits 10 n := by
      rw [List.map_map]
      refine (List.map_congr_left fun d hd => ?_).trans (List.map_id _)
      rw [Function.comp_apply, digit_toNat (Nat.digits_lt_base (by decide) hd), id_eq,
        Nat.add_sub_cancel_left]
    rw [List.reverse_reverse, hread, Nat.ofDigits_digits]

theorem decimal_injective {n m : ℕ} (h : decimal n = decimal m) : n = m := by
  rw [← ofDigits_decimal n, h, ofDigits_decimal]

theorem decimal_ne_nil (n : ℕ) : decimal n ≠ [] := by
  unfold decimal
  split
  · exact List.cons_ne_nil _ _
  · next h => simpa using Nat.digits_ne_nil_iff_ne_zero.mpr h

theorem takeWhile_decimal {n : ℕ} {r : Bytes} (hr : Delimited r) :
    (decimal n ++ r).takeWhile isDigit = decimal n := by
  rw [List.takeWhile_append_of_pos isDigit_of_mem_decimal]
  cases r with
  | nil => simp
  | cons b r => rw [List.takeWhile_cons_of_neg (by simp [hr b rfl]), List.append_nil]

/-- A decimal number ends at the first byte that is no digit. -/
theorem decimal_append_inj {n m : ℕ} {r s : Bytes} (hr : Delimited r) (hs : Delimited s)
    (h : decimal n ++ r = decimal m ++ s) : n = m ∧ r = s := by
  have hdigits := congrArg (List.takeWhile isDigit) h
  rw [takeWhile_decimal hr, takeWhile_decimal hs] at hdigits
  exact ⟨decimal_injective hdigits, List.append_cancel_left (hdigits ▸ h)⟩

/-- A decimal number starts with a digit. -/
theorem decimal_ne_minus {n : ℕ} {r s : Bytes} : decimal n ++ r ≠ 45 :: s := by
  intro h
  obtain ⟨b, l, hcons⟩ := List.exists_cons_of_ne_nil (decimal_ne_nil n)
  have hdigit := isDigit_of_mem_decimal b (hcons ▸ List.mem_cons_self)
  rw [hcons] at h
  rw [(List.cons.inj h).1] at hdigit
  exact absurd hdigit (by decide)

theorem decimalInt_append_inj {n m : ℤ} {r s : Bytes} (hr : Delimited r) (hs : Delimited s)
    (h : decimalInt n ++ r = decimalInt m ++ s) : n = m ∧ r = s := by
  cases n with
  | ofNat n =>
    cases m with
    | ofNat m =>
      obtain ⟨rfl, hrest⟩ := decimal_append_inj hr hs h
      exact ⟨rfl, hrest⟩
    | negSucc m => exact absurd h decimal_ne_minus
  | negSucc n =>
    cases m with
    | ofNat m => exact absurd h.symm decimal_ne_minus
    | negSucc m =>
      obtain ⟨hnm, hrest⟩ := decimal_append_inj hr hs (List.cons.inj h).2
      rw [Nat.succ.inj hnm]
      exact ⟨rfl, hrest⟩

end Bytes
