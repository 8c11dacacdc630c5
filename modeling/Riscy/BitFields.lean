import Mathlib

/-! Bit fields of machine words: a masked and shifted field is a quotient and a
remainder, fields in disjoint positions add up, and the xor-subtract idiom is sign
extension. -/
namespace Riscy.BitFields

/-- A value in the low `k` bits is disjoint from a multiple of `2 ^ k`. -/
theorem or_eq_add {x y k : ℕ} (hx : x % 2 ^ k = 0) (hy : y < 2 ^ k) : x ||| y = x + y := by
  have he : x = (x / 2 ^ k) <<< k := by
    rw [Nat.shiftLeft_eq, Nat.div_mul_cancel (Nat.dvd_of_mod_eq_zero hx)]
  rw [he, ← Nat.shiftLeft_add_eq_or_of_lt hy]

/-- Four fields in descending disjoint positions. -/
theorem or_fields {a b c d i j k : ℕ} (hij : j ≤ i) (hjk : k ≤ j)
    (ha : a % 2 ^ i = 0) (hb : b < 2 ^ i) (hb' : b % 2 ^ j = 0)
    (hc : c < 2 ^ j) (hc' : c % 2 ^ k = 0) (hd : d < 2 ^ k) :
    a ||| b ||| c ||| d = a + b + c + d := by
  have hab : (a + b) % 2 ^ j = 0 := by
    have hdvd := (Nat.pow_dvd_pow 2 hij).trans (Nat.dvd_of_mod_eq_zero ha)
    exact Nat.mod_eq_zero_of_dvd (hdvd.add (Nat.dvd_of_mod_eq_zero hb'))
  have habc : (a + b + c) % 2 ^ k = 0 := by
    have hdvd := (Nat.pow_dvd_pow 2 hjk).trans (Nat.dvd_of_mod_eq_zero hab)
    exact Nat.mod_eq_zero_of_dvd (hdvd.add (Nat.dvd_of_mod_eq_zero hc'))
  rw [or_eq_add ha hb, or_eq_add hab hc, or_eq_add habc hd]

theorem and_mask_div (x n lo : ℕ) :
    (x &&& ((2 ^ n - 1) * 2 ^ lo)) / 2 ^ lo = x / 2 ^ lo % 2 ^ n := by
  apply Nat.eq_of_testBit_eq
  intro i
  simp only [Nat.testBit_div_two_pow, Nat.testBit_and, Nat.testBit_mod_two_pow,
    Nat.testBit_mul_two_pow, Nat.testBit_two_pow_sub_one]
  simp [Bool.and_comm]

/-- Clearing the low `lo` bits of an `n + lo`-bit number. -/
theorem and_high_mask {x n lo : ℕ} (hx : x < 2 ^ (n + lo)) :
    x &&& ((2 ^ n - 1) * 2 ^ lo) = x / 2 ^ lo * 2 ^ lo := by
  apply Nat.eq_of_testBit_eq
  intro i
  simp only [Nat.testBit_and, Nat.testBit_mul_two_pow, Nat.testBit_two_pow_sub_one,
    Nat.testBit_div_two_pow]
  by_cases hi : lo ≤ i
  · by_cases hn : i - lo < n
    · simp [hi, hn]
    · have hb : x.testBit i = false :=
        Nat.testBit_lt_two_pow (hx.trans_le (Nat.pow_le_pow_right (by omega) (by omega)))
      simp [hi, hn, hb]
  · simp [hi]

theorem xor_two_pow {v k : ℕ} (hv : v < 2 ^ (k + 1)) :
    v ^^^ 2 ^ k = if v < 2 ^ k then v + 2 ^ k else v - 2 ^ k := by
  have hlow : ∀ u, u < 2 ^ k → u ^^^ 2 ^ k = 2 ^ k + u := by
    intro u hu
    have ho := Nat.two_pow_add_eq_or_of_lt hu 1
    rw [Nat.mul_one] at ho
    rw [ho]
    apply Nat.eq_of_testBit_eq
    intro i
    by_cases hi : k = i
    · subst i
      simp [Nat.testBit_lt_two_pow hu, Nat.testBit_two_pow_self]
    · simp [Nat.testBit_two_pow_of_ne hi]
  split_ifs with h
  · rw [hlow v h, Nat.add_comm]
  · have hp : 2 ^ (k + 1) = 2 ^ k + 2 ^ k := by ring
    have hu : v - 2 ^ k < 2 ^ k := by omega
    have he : v = (v - 2 ^ k) ^^^ 2 ^ k := by rw [hlow _ hu]; omega
    conv_lhs => rw [he]
    rw [Nat.xor_assoc, Nat.xor_self, Nat.xor_zero]

theorem toNat_append_add {m n : ℕ} (x : BitVec m) (y : BitVec n) :
    (x ++ y).toNat = x.toNat * 2 ^ n + y.toNat := by
  rw [BitVec.toNat_append, ← Nat.shiftLeft_add_eq_or_of_lt y.isLt, Nat.shiftLeft_eq]

theorem append_slices {m n : ℕ} (x : BitVec (m + n)) :
    x.extractLsb' n m ++ x.extractLsb' 0 n = x := by
  apply BitVec.eq_of_toNat_eq
  have hx := x.isLt
  rw [Nat.pow_add, Nat.mul_comm] at hx
  have hd := Nat.div_lt_of_lt_mul hx
  rw [toNat_append_add, BitVec.extractLsb'_toNat, BitVec.extractLsb'_toNat,
    Nat.shiftRight_eq_div_pow, Nat.shiftRight_zero, Nat.mod_eq_of_lt hd, Nat.mul_comm]
  exact Nat.div_add_mod _ _

theorem extract_high {m n : ℕ} (x : BitVec m) (y : BitVec n) :
    (x ++ y).extractLsb' n m = x := by
  apply BitVec.eq_of_toNat_eq
  rw [BitVec.extractLsb'_toNat, toNat_append_add, Nat.shiftRight_eq_div_pow,
    Nat.add_comm, Nat.add_mul_div_right _ _ (Nat.two_pow_pos n), Nat.div_eq_of_lt y.isLt,
    Nat.zero_add, Nat.mod_eq_of_lt x.isLt]

theorem extract_low {m n : ℕ} (x : BitVec m) (y : BitVec n) :
    (x ++ y).extractLsb' 0 n = y := by
  apply BitVec.eq_of_toNat_eq
  rw [BitVec.extractLsb'_toNat, toNat_append_add, Nat.shiftRight_zero, Nat.add_comm,
    Nat.add_mul_mod_self_right, Nat.mod_eq_of_lt y.isLt]

/-- The slice of a word whose value splits around it. -/
theorem extract_of_toNat {w k n a z : ℕ} {v : BitVec w} (y : BitVec n)
    (hv : v.toNat = a * 2 ^ (k + n) + y.toNat * 2 ^ k + z) (hz : z < 2 ^ k) :
    v.extractLsb' k n = y := by
  apply BitVec.eq_of_toNat_eq
  have hs : a * 2 ^ (k + n) + y.toNat * 2 ^ k + z = z + (a * 2 ^ n + y.toNat) * 2 ^ k := by ring
  rw [BitVec.extractLsb'_toNat, Nat.shiftRight_eq_div_pow, hv, hs,
    Nat.add_mul_div_right _ _ (Nat.two_pow_pos k), Nat.div_eq_of_lt hz, Nat.zero_add,
    Nat.add_comm, Nat.add_mul_mod_self_right, Nat.mod_eq_of_lt y.isLt]

/-- Flipping the sign bit and subtracting it again sign-extends an `n`-bit field. -/
theorem xor_sub_signExtend {n : ℕ} (hn : 0 < n) (hw : n < 64) (x : BitVec n) :
    ((x.setWidth 64 ^^^ 1#64 <<< (n - 1)) - 1#64 <<< (n - 1)) =
      x.signExtend 64 := by
  obtain ⟨k, rfl⟩ : ∃ k, n = k + 1 := ⟨n - 1, by omega⟩
  have hp : (2 : ℕ) ^ (k + 1) = 2 ^ k + 2 ^ k := by ring
  have hk : (2 : ℕ) ^ k < 2 ^ 63 := Nat.pow_lt_pow_right (by omega) (by omega)
  have hx := x.isLt
  have hm : (1#64 <<< k).toNat = 2 ^ k := by
    rw [BitVec.toNat_shiftLeft, Nat.shiftLeft_eq]
    exact (Nat.mod_eq_of_lt (by simp; omega)).trans (by simp)
  apply BitVec.eq_of_toNat_eq
  rw [Nat.add_sub_cancel, BitVec.toNat_sub, BitVec.toNat_xor, hm, BitVec.toNat_setWidth,
    Nat.mod_eq_of_lt (a := x.toNat) (by omega), xor_two_pow hx, BitVec.signExtend,
    BitVec.toNat_ofInt, BitVec.toInt_eq_toNat_cond]
  rw [hp] at hx ⊢
  generalize (2 : ℕ) ^ k = p at *
  split_ifs <;> omega

end Riscy.BitFields
