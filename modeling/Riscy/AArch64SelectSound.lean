import Riscy.AArch64Lines
import Riscy.IRSemantics

/-! The lines of an instruction against its meaning: condition codes, constants in pieces
of sixteen bits, and what a register tells about a value of each type. -/
namespace Riscy.AArch64
open IR (TypeKind ICmpCond BinOpKind Payload Val evalBin evalCmp)
open ByteMemory

theorem sub_flags (a b : BitVec 64) : ((a - b).msb != BitVec.ssubOverflow a b) = a.slt b := by
  have ha := a.toInt_lt
  have ha' := a.le_toInt
  have hb := b.toInt_lt
  have hb' := b.le_toInt
  have hs : (a - b).toInt = _ := BitVec.toInt_sub
  rw [Int.bmod_def] at hs
  rw [BitVec.msb_eq_toInt, BitVec.ssubOverflow, BitVec.slt, hs]
  grind

theorem sub_flags_eq (a b : BitVec 64) :
    ((a - b).msb == BitVec.ssubOverflow a b) = b.sle a := by
  rw [BitVec.sle_eq_not_slt, ← sub_flags]
  cases (a - b).msb <;> cases a.ssubOverflow b <;> rfl

/-- The condition codes read the flags of a comparison as the comparison is meant. -/
theorem compare_holds (a b : BitVec 64) (c : ICmpCond) :
    (compare a b).holds (condOf c) = evalCmp c a b := by
  have hne : a = b ↔ a.toNat = b.toNat := BitVec.toNat_eq
  have hni : a = b ↔ a.toInt = b.toInt := BitVec.toInt_inj.symm
  cases c with
  | EQ => rfl
  | NE => simp [compare, Flags.holds, condOf, evalCmp]
  | ULT => simp [compare, Flags.holds, condOf, evalCmp, BitVec.ule_eq_not_ult]
  | ULE =>
    change (!decide (b.toNat ≤ a.toNat) || decide (a = b)) = decide (a.toNat ≤ b.toNat)
    grind
  | UGT =>
    change (decide (b.toNat ≤ a.toNat) && !decide (a = b)) = decide (b.toNat < a.toNat)
    grind
  | UGE => rfl
  | SLT => exact sub_flags a b
  | SLE =>
    change (decide (a = b) || ((a - b).msb != BitVec.ssubOverflow a b)) = a.sle b
    rw [sub_flags, BitVec.slt_eq_decide, BitVec.sle_eq_decide]
    grind
  | SGT =>
    change (!decide (a = b) && ((a - b).msb == BitVec.ssubOverflow a b)) = b.slt a
    rw [sub_flags_eq, BitVec.sle_eq_decide, BitVec.slt_eq_decide]
    grind
  | SGE => exact sub_flags_eq a b

section Host
variable {ρ : Type} [DecidableEq ρ] (s : Host ρ) (d : ρ) (x y : BitVec 64)

@[simp] theorem Host.set_self : (s.set d x).r d = x := Function.update_self ..

theorem Host.set_ne {a : ρ} (h : a ≠ d) : (s.set d x).r a = s.r a := Function.update_of_ne h ..

@[simp] theorem Host.set_set : (s.set d x).set d y = s.set d y := by
  simp [Host.set]

@[simp] theorem Host.set_flags : (s.set d x).flags = s.flags := rfl

@[simp] theorem Host.set_addr : (s.set d x).addr = s.addr := rfl

@[simp] theorem Host.set_words : (s.set d x).words = s.words := rfl

@[simp] theorem Host.set_mem : (s.set d x).mem = s.mem := rfl

end Host

/-- The low `n` bits of a constant. -/
def low (v : BitVec 64) (n : ℕ) : BitVec 64 := (v.setWidth n).setWidth 64

theorem getLsbD_ffff (i : ℕ) : (0xffff : BitVec 64).getLsbD i = decide (i < 16) := by
  have h : (0xffff : BitVec 64) = (BitVec.allOnes 16).setWidth 64 := by decide
  rw [h, BitVec.getLsbD_setWidth, BitVec.getLsbD_allOnes]
  grind

theorem low_sixteen (v : BitVec 64) : low v 16 = v &&& 0xffff := by
  apply BitVec.eq_of_getLsbD_eq
  intro i hi
  simp only [low, BitVec.getLsbD_and, getLsbD_ffff, BitVec.getLsbD_setWidth, hi, decide_true,
    Bool.true_and]
  exact Bool.and_comm ..

/-- One `movk` adds the next sixteen bits. -/
theorem low_insert (v : BitVec 64) (n : ℕ) :
    (low v n &&& ~~~((0xffff : BitVec 64) <<< n)) ||| (((v >>> n) &&& 0xffff) <<< n) =
      low v (n + 16) := by
  apply BitVec.eq_of_getLsbD_eq
  intro i hi
  simp only [low, BitVec.getLsbD_or, BitVec.getLsbD_and, BitVec.getLsbD_not,
    BitVec.getLsbD_shiftLeft, getLsbD_ffff, BitVec.getLsbD_setWidth, BitVec.getLsbD_ushiftRight]
  by_cases h1 : i < n
  · have h16 : i < n + 16 := by omega
    simp [h1, hi, h16]
  · have hsub : n + (i - n) = i := by omega
    have hiff : i - n < 16 ↔ i < n + 16 := by omega
    simp [h1, hi, hsub, hiff]
    exact Bool.and_comm ..

/-- Sixteen zero bits need no `movk`. -/
theorem low_skip {v : BitVec 64} {n : ℕ} (h : (v >>> n) &&& 0xffff = 0) :
    low v n = low v (n + 16) := by
  rw [← low_insert, h]
  apply BitVec.eq_of_getLsbD_eq
  intro i hi
  simp only [low, BitVec.getLsbD_or, BitVec.getLsbD_and, BitVec.getLsbD_not,
    BitVec.getLsbD_shiftLeft, getLsbD_ffff, BitVec.getLsbD_setWidth]
  by_cases h1 : i < n <;> simp [h1, hi]

section Const
variable {ρ : Type} [DecidableEq ρ] (f : VName → ρ)

theorem run_movkLine (s : Host ρ) (x0 : ρ) (d : VName) (v : BitVec 64) {n : ℕ} {lsl : BitVec 64}
    (h : lsl.toNat = n) :
    runLines x0 ((movkLine d ((v >>> n) &&& 0xffff) lsl).map (Line.map f))
      (s.set (f d) (low v n)) = some (s.set (f d) (low v (n + 16))) := by
  unfold movkLine
  split_ifs with h0
  · simp only [List.map_cons, List.map_nil, Line.map, runLines_cons, runLines_nil, Line.exec,
      Host.set_self, Host.set_set, h, low_insert]
    rfl
  · rw [List.map_nil, runLines_nil, low_skip (not_not.mp h0)]

/-- Whatever pieces it takes, and whatever the register is called, it receives the constant. -/
theorem run_constLines_map (s : Host ρ) (x0 : ρ) (d : VName) (v : BitVec 64) :
    runLines x0 ((constLines d v).map (Line.map f)) s = some (s.set (f d) v) := by
  unfold constLines
  split_ifs with h
  · rfl
  · have hz : runLines x0 ([.movz d (v &&& 0xffff)].map (Line.map f)) s =
        some (s.set (f d) (low v 16)) := by
      rw [low_sixteen]
      rfl
    have hall : low v 64 = v := by simp [low]
    have h16 := run_movkLine f s x0 d v (show (16 : BitVec 64).toNat = 16 from rfl)
    have h32 := run_movkLine f s x0 d v (show (32 : BitVec 64).toNat = 32 from rfl)
    have h48 := run_movkLine f s x0 d v (show (48 : BitVec 64).toNat = 48 from rfl)
    rw [List.map_append, List.map_append, List.map_append, runLines_append, runLines_append,
      runLines_append, hz, Option.bind_some, h16, Option.bind_some, h32, Option.bind_some, h48,
      hall]

end Const

theorem run_constLines (s : Host VName) (x0 d : VName) (v : BitVec 64) :
    runLines x0 (constLines d v) s = some (s.set d v) := by
  have h := run_constLines_map id s x0 d v
  rwa [List.map_id'' Line.map_id] at h

end Riscy.AArch64
