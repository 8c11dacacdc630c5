import Mathlib

/-! Little-endian access to a byte memory whose addresses wrap around. -/
namespace Riscy.ByteMemory
variable {w : ℕ}

abbrev Memory (w : ℕ) := BitVec w → BitVec 8

/-- The value of the `n` bytes from `a` on. -/
def read (m : Memory w) (a : BitVec w) : ℕ → ℕ
  | 0 => 0
  | n + 1 => (m a).toNat + 256 * read m (a + 1) n

/-- The low `n` bytes of `v` are written from `a` on. -/
def write (m : Memory w) (a : BitVec w) (v : ℕ) : ℕ → Memory w
  | 0 => m
  | n + 1 => write (Function.update m a (BitVec.ofNat 8 v)) (a + 1) (v / 256) n

theorem read_lt (m : Memory w) (a : BitVec w) (n : ℕ) : read m a n < 256 ^ n := by
  induction n generalizing a with
  | zero => simp [read]
  | succ n ih =>
    have hb := (m a).isLt
    have ht := ih (a + 1)
    rw [read, Nat.pow_succ]
    omega

/-- Only the bytes that are written matter. -/
theorem write_congr (m : Memory w) (a : BitVec w) (n : ℕ) {u v : ℕ}
    (h : u % 256 ^ n = v % 256 ^ n) : write m a u n = write m a v n := by
  induction n generalizing m a u v with
  | zero => rfl
  | succ n ih =>
    have hlow : u % 256 = v % 256 := by
      have hd : 256 ∣ 256 ^ (n + 1) := Dvd.intro_left (256 ^ n) rfl
      rw [← Nat.mod_mod_of_dvd u hd, h, Nat.mod_mod_of_dvd v hd]
    have hhigh : u / 256 % 256 ^ n = v / 256 % 256 ^ n := by
      rw [Nat.pow_succ, Nat.mul_comm] at h
      rw [← Nat.mod_mul_right_div_self u, ← Nat.mod_mul_right_div_self v, h]
    have hbyte : BitVec.ofNat 8 u = BitVec.ofNat 8 v := by
      apply BitVec.eq_of_toNat_eq
      simpa using hlow
    rw [write, write, hbyte]
    exact ih _ _ hhigh

theorem add_add_one (a b : BitVec w) : a + b + 1 = a + 1 + b := by
  rw [BitVec.add_assoc, BitVec.add_comm b, ← BitVec.add_assoc]

section Shift
variable {m m' : Memory w} {b : BitVec w} (h : ∀ a, m' (a + b) = m a)
include h

/-- Memories that agree up to a base address are read alike. -/
theorem read_shift (a : BitVec w) (n : ℕ) : read m' (a + b) n = read m a n := by
  induction n generalizing a with
  | zero => rfl
  | succ n ih =>
    rw [read, read, h, add_add_one, ih]

/-- Writing keeps the agreement up to a base address. -/
theorem write_shift (a : BitVec w) (v n : ℕ) (x : BitVec w) :
    write m' (a + b) v n (x + b) = write m a v n x := by
  induction n generalizing m m' a v with
  | zero => exact h x
  | succ n ih =>
    rw [write, write, add_add_one]
    refine ih (fun y => ?_) _ _
    by_cases hy : y = a
    · rw [hy, Function.update_self, Function.update_self]
    · have hyb : y + b ≠ a + b := fun he => hy (by simpa using he)
      rw [Function.update_of_ne hy, Function.update_of_ne hyb, h]

end Shift

section Apart
variable {m : Memory w} {a b : BitVec w} {n k : ℕ}

/-- The `n` bytes from `a` on and the `k` bytes from `b` on have no byte in common. -/
def Apart (a : BitVec w) (n : ℕ) (b : BitVec w) (k : ℕ) : Prop :=
  ∀ i < n, ∀ j < k, a + BitVec.ofNat w i ≠ b + BitVec.ofNat w j

theorem add_one_ofNat (a : BitVec w) (i : ℕ) :
    a + 1 + BitVec.ofNat w i = a + BitVec.ofNat w (i + 1) := by
  have hone : (1 : BitVec w) + BitVec.ofNat w i = BitVec.ofNat w (i + 1) := by
    rw [BitVec.add_comm]
    exact (BitVec.ofNat_add i 1).symm
  rw [BitVec.add_assoc, hone]

theorem write_apply {x : BitVec w} {v : ℕ} (h : ∀ j < k, x ≠ b + BitVec.ofNat w j) :
    write m b v k x = m x := by
  induction k generalizing m b v with
  | zero => rfl
  | succ k ih =>
    have hb : x ≠ b := by simpa using h 0 (Nat.succ_pos k)
    rw [write, ih, Function.update_of_ne hb]
    intro j hj
    rw [add_one_ofNat]
    exact h (j + 1) (Nat.succ_lt_succ hj)

theorem read_congr {m' : Memory w}
    (h : ∀ i < n, m (a + BitVec.ofNat w i) = m' (a + BitVec.ofNat w i)) :
    read m a n = read m' a n := by
  induction n generalizing a with
  | zero => rfl
  | succ n ih =>
    have h0 : m a = m' a := by simpa using h 0 (Nat.succ_pos n)
    rw [read, read, h0, ih]
    intro i hi
    rw [add_one_ofNat]
    exact h (i + 1) (Nat.succ_lt_succ hi)

/-- A write leaves what is apart from it. -/
theorem read_write_apart (h : Apart a n b k) (v : ℕ) : read (write m b v k) a n = read m a n :=
  read_congr fun i hi => write_apply fun j hj => h i hi j hj

end Apart

section Write
variable {m m' : Memory w}

/-- A write does to a byte what it does to it in any other memory. -/
theorem write_same {x : BitVec w} (h : m x = m' x) (a : BitVec w) (v n : ℕ) :
    write m a v n x = write m' a v n x := by
  induction n generalizing m m' a v with
  | zero => exact h
  | succ n ih =>
    rw [write, write]
    refine ih ?_ _ _
    by_cases hx : x = a
    · rw [hx, Function.update_self, Function.update_self]
    · rw [Function.update_of_ne hx, Function.update_of_ne hx, h]

/-- What is written is read again, if the bytes have different addresses. -/
theorem read_write_self (m : Memory w) (a : BitVec w) (v : ℕ) {n : ℕ} (hn : n ≤ 2 ^ w) :
    read (write m a v n) a n = v % 256 ^ n := by
  induction n generalizing m a v with
  | zero => rw [read, Nat.pow_zero, Nat.mod_one]
  | succ n ih =>
    have hfirst : write (Function.update m a (BitVec.ofNat 8 v)) (a + 1) (v / 256) n a =
        BitVec.ofNat 8 v := by
      rw [write_apply, Function.update_self]
      intro j hj he
      rw [add_one_ofNat] at he
      have hz : BitVec.ofNat w (j + 1) = 0 := by simpa using he
      have hnat := congrArg BitVec.toNat hz
      rw [BitVec.toNat_ofNat, Nat.mod_eq_of_lt (by omega)] at hnat
      exact absurd hnat (by simp)
    have hpow : 256 ^ (n + 1) = 256 * 256 ^ n := Nat.pow_succ'
    rw [read, write, hfirst, ih _ _ _ (by omega), BitVec.toNat_ofNat, hpow, Nat.mod_mul]

end Write

end Riscy.ByteMemory
