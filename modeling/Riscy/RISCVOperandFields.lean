import Riscy.RISCVDecodeExact
import Riscy.RISCVLoweringSound

/-! Operands of accepted words against the fields of their formats: put back into the word
they give the bits they were read from. -/
namespace Riscy.RISCV
open BitFields

/-- The word formats. Shift amounts have six bits, or five for the word shifts. -/
inductive Format
  | U | J | I | B | S | R | shiftImm | shiftImmW
  deriving DecidableEq, Repr

def formatOf : Opcode → Option Format
  | .LUI | .AUIPC => some .U
  | .JAL => some .J
  | .JALR | .LB | .LH | .LW | .LD | .LBU | .LHU | .LWU => some .I
  | .ADDI | .SLTI | .SLTIU | .XORI | .ORI | .ANDI | .ADDIW => some .I
  | .BEQ | .BNE | .BLT | .BGE | .BLTU | .BGEU => some .B
  | .SB | .SH | .SW | .SD => some .S
  | .ADD | .SUB | .SLL | .SLT | .SLTU | .XOR | .SRL | .SRA | .OR | .AND => some .R
  | .ADDW | .SUBW | .SLLW | .SRLW | .SRAW => some .R
  | .SLLI | .SRLI | .SRAI => some .shiftImm
  | .SLLIW | .SRLIW | .SRAIW => some .shiftImmW
  | .FENCE | .ECALL | .EBREAK | .UNKNOWN => none

/-- The register and immediate bits of a word: all but opcode and funct. -/
def Format.operandBits : Format → BitVec 32
  | .U | .J => encodeR (-1) (-1) (-1) (-1) (-1) 0
  | .I | .B | .S => encodeR (-1) (-1) (-1) 0 (-1) 0
  | .R | .shiftImmW => encodeR 0 (-1) (-1) 0 (-1) 0
  | .shiftImm => encodeR 1 (-1) (-1) 0 (-1) 0

/-- Operands put into their fields of an otherwise empty word. -/
def Format.place : Format → List Operand → Option (BitVec 32)
  | .U, [.reg d, .imm i] => some (encodeU (i.extractLsb' 12 20) (.ofNat 5 d) 0)
  | .J, [.reg d, .imm i] => some (encodeJ (i.extractLsb' 1 20) (.ofNat 5 d) 0)
  | .I, [.reg d, .mem r1 off] =>
    some (encodeI (off.extractLsb' 0 12) (.ofNat 5 r1) 0 (.ofNat 5 d) 0)
  | .I, [.reg d, .reg r1, .imm i] =>
    some (encodeI (i.extractLsb' 0 12) (.ofNat 5 r1) 0 (.ofNat 5 d) 0)
  | .B, [.reg r1, .reg r2, .imm i] =>
    some (encodeB (i.extractLsb' 1 12) (.ofNat 5 r2) (.ofNat 5 r1) 0 0)
  | .S, [.mem r1 off, .reg r2] =>
    some (encodeS (off.extractLsb' 0 12) (.ofNat 5 r2) (.ofNat 5 r1) 0 0)
  | .R, [.reg d, .reg r1, .reg r2] =>
    some (encodeR 0 (.ofNat 5 r2) (.ofNat 5 r1) 0 (.ofNat 5 d) 0)
  | .shiftImm, [.reg d, .reg r1, .imm i] =>
    some (encodeR ((i.extractLsb' 5 1).setWidth 7) (i.extractLsb' 0 5) (.ofNat 5 r1) 0
      (.ofNat 5 d) 0)
  | .shiftImmW, [.reg d, .reg r1, .imm i] =>
    some (encodeR 0 (i.extractLsb' 0 5) (.ofNat 5 r1) 0 (.ofNat 5 d) 0)
  | _, _ => none

/-- The value is the sign extension of its low `n` bits. -/
def SignExtended (n : ℕ) (i : BitVec 64) : Prop := (i.setWidth n).signExtend 64 = i

/-- The immediates that a format can carry. -/
def Format.Carries (i : BitVec 64) : Format → Prop
  | .U => SignExtended 32 i ∧ i.toInt % 4096 = 0 ∧ -2 ^ 31 ≤ i.toInt ∧ i.toInt < 2 ^ 31
  | .J => SignExtended 21 i ∧ i.toInt % 2 = 0 ∧ -2 ^ 20 ≤ i.toInt ∧ i.toInt ≤ 2 ^ 20 - 2
  | .B => SignExtended 13 i ∧ i.toInt % 2 = 0 ∧ -4096 ≤ i.toInt ∧ i.toInt ≤ 4094
  | .I | .S => SignExtended 12 i ∧ -2048 ≤ i.toInt ∧ i.toInt ≤ 2047
  | .R => False
  | .shiftImm => i.toNat < 64
  | .shiftImmW => i.toNat < 32

/-- Registers are below 32 and immediates in the range of the format. -/
def Operand.InRange (f : Format) : Operand → Prop
  | .reg r => r < 32
  | .imm i => f.Carries i
  | .mem base off => base < 32 ∧ f.Carries off

/-- What `exitOf` and `liftInst` get from the operands is there and of the right kind. -/
def Unpacked (inst : DecodedInst) : Prop :=
  (∃ exit, exitOf inst = .ok exit) ∧
    ∀ code, ∃ code', (liftInst inst).run code = .ok ((), code')

def DecodedInst.firstOperands (inst : DecodedInst) (k : ℕ) : DecodedInst :=
  { inst with operands := inst.operands.take k }

/-- No operand bit is lost or changed. The lifter and the CFG builder get the operands they
ask for and, unless the opcode is one that they ignore, need the last of them. -/
structure OperandsExact (inst : DecodedInst) (f : Format) : Prop where
  placed : f.place inst.operands = some (inst.raw &&& f.operandBits)
  inRange : ∀ o ∈ inst.operands, o.InRange f
  unpacked : Unpacked inst
  needed : inst.opcode ∉ dropped →
    ∀ k < inst.operands.length, ¬ Unpacked (inst.firstOperands k)

theorem and_ones {n : ℕ} (x : BitVec n) : x &&& -1 = x :=
  (congrArg (x &&& ·) BitVec.neg_one_eq_allOnes).trans BitVec.and_allOnes

theorem and_zeros {n : ℕ} (x : BitVec n) : x &&& (0 : BitVec n) = 0 := BitVec.and_zero

theorem extract_signExtend {n lo k : ℕ} (x : BitVec n) (hk : lo + k ≤ n) (hn : n ≤ 64) :
    (x.signExtend 64).extractLsb' lo k = x.extractLsb' lo k := by
  ext i hi
  have hlt : lo + i < 64 := by omega
  have hin : lo + i < n := by omega
  simp [BitVec.getElem_signExtend, hlt, hin]

theorem slice_signExtend {n : ℕ} (x : BitVec n) (hn : n ≤ 64) :
    (x.signExtend 64).extractLsb' 0 n = x := by
  rw [extract_signExtend x (by omega) hn, BitVec.extractLsb'_eq_self]

theorem slice_padded {n m : ℕ} (x : BitVec n) (h : n + m ≤ 64) :
    ((x ++ (0 : BitVec m)).signExtend 64).extractLsb' m n = x := by
  rw [extract_signExtend _ (by omega) h, extract_high]

theorem signExtended_signExtend {n : ℕ} (x : BitVec n) (hn : n ≤ 64) :
    SignExtended n (x.signExtend 64) := by
  unfold SignExtended
  congr 1
  ext i hi
  have hlt : i < 64 := by omega
  simp [BitVec.getElem_signExtend, hlt, hi]

/-- An immediate whose low `m` bits are not in the word. -/
theorem padded_range {n m : ℕ} (x : BitVec n) (h : n + m ≤ 64) :
    SignExtended (n + m) ((x ++ (0 : BitVec m)).signExtend 64) ∧
      ((x ++ (0 : BitVec m)).signExtend 64).toInt = 2 ^ m * x.toInt ∧
      -2 ^ (n - 1) ≤ x.toInt ∧ x.toInt < 2 ^ (n - 1) := by
  refine ⟨signExtended_signExtend _ h, ?_, BitVec.le_toInt x, BitVec.toInt_lt⟩
  rw [BitVec.toInt_signExtend_of_le h]
  exact BitVec.toInt_append_zero

section Fields
variable {f7 m7 : BitVec 7} {r2 r1 d m2 m1 md : BitVec 5} {f3 m3 : BitVec 3} {opc mo : BitVec 7}

theorem encodeR_and : encodeR f7 r2 r1 f3 d opc &&& encodeR m7 m2 m1 m3 md mo =
    encodeR (f7 &&& m7) (r2 &&& m2) (r1 &&& m1) (f3 &&& m3) (d &&& md) (opc &&& mo) := by
  have h : (f7 ++ r2 ++ r1 ++ f3 ++ d ++ opc) &&& (m7 ++ m2 ++ m1 ++ m3 ++ md ++ mo) =
      (f7 &&& m7) ++ (r2 &&& m2) ++ (r1 &&& m1) ++ (f3 &&& m3) ++ (d &&& md) ++ (opc &&& mo) := by
    simp only [BitVec.and_append]
  exact h

/-- Register and immediate bits of a word with the fields given. -/
theorem operandBits_encodeR (f : Format) :
    encodeR f7 r2 r1 f3 d opc &&& f.operandBits = match f with
      | .U | .J => encodeR f7 r2 r1 f3 d 0
      | .I | .B | .S => encodeR f7 r2 r1 0 d 0
      | .R | .shiftImmW => encodeR 0 r2 r1 0 d 0
      | .shiftImm => encodeR (f7 &&& 1) r2 r1 0 d 0 := by
  cases f <;> simp only [Format.operandBits, encodeR_and, and_ones, and_zeros]

theorem carries_U (x : BitVec 20) :
    Format.U.Carries ((x ++ (0 : BitVec 12) : BitVec 32).signExtend 64) := by
  obtain ⟨hext, hval, hlo, hhi⟩ := padded_range (m := 12) x (by decide)
  exact ⟨hext, by omega, by omega, by omega⟩

theorem carries_J (x : BitVec 20) :
    Format.J.Carries ((x ++ (0 : BitVec 1) : BitVec 21).signExtend 64) := by
  obtain ⟨hext, hval, hlo, hhi⟩ := padded_range (m := 1) x (by decide)
  exact ⟨hext, by omega, by omega, by omega⟩

theorem carries_B (x : BitVec 12) :
    Format.B.Carries ((x ++ (0 : BitVec 1) : BitVec 13).signExtend 64) := by
  obtain ⟨hext, hval, hlo, hhi⟩ := padded_range (m := 1) x (by decide)
  exact ⟨hext, by omega, by omega, by omega⟩

theorem carries_I (x : BitVec 12) : Format.I.Carries (x.signExtend 64) := by
  have hlo := BitVec.le_toInt x
  have hhi := BitVec.toInt_lt (x := x)
  have hval : (x.signExtend 64).toInt = x.toInt := BitVec.toInt_signExtend_of_le (by decide)
  refine ⟨signExtended_signExtend _ (by decide), ?_⟩
  rw [hval]
  omega

theorem place_U : Format.U.place [.reg d.toNat, .imm (uImm (encodeR f7 r2 r1 f3 d opc))] =
    some (encodeR f7 r2 r1 f3 d opc &&& Format.U.operandBits) := by
  have himm := slice_padded (n := 20) (m := 12) (f7 ++ r2 ++ r1 ++ f3) (by decide)
  rw [uImm_encodeR, operandBits_encodeR, Format.place, himm, BitVec.ofNat_toNat,
    BitVec.setWidth_eq, encodeU_fields]

theorem place_J : Format.J.place [.reg d.toNat, .imm (jImm (encodeR f7 r2 r1 f3 d opc))] =
    some (encodeR f7 r2 r1 f3 d opc &&& Format.J.operandBits) := by
  have himm := slice_padded (n := 20) (m := 1) (f7.extractLsb' 6 1 ++ r1 ++ f3 ++
    r2.extractLsb' 0 1 ++ f7.extractLsb' 0 6 ++ r2.extractLsb' 1 4) (by decide)
  rw [jImm_encodeR, operandBits_encodeR, Format.place, himm, BitVec.ofNat_toNat,
    BitVec.setWidth_eq, encodeJ_fields]

theorem place_B : Format.B.place
      [.reg r1.toNat, .reg r2.toNat, .imm (bImm (encodeR f7 r2 r1 f3 d opc))] =
    some (encodeR f7 r2 r1 f3 d opc &&& Format.B.operandBits) := by
  have himm := slice_padded (n := 12) (m := 1) (f7.extractLsb' 6 1 ++ d.extractLsb' 0 1 ++
    f7.extractLsb' 0 6 ++ d.extractLsb' 1 4) (by decide)
  rw [bImm_encodeR, operandBits_encodeR, Format.place, himm, BitVec.ofNat_toNat,
    BitVec.setWidth_eq, BitVec.ofNat_toNat, BitVec.setWidth_eq, encodeB_fields]

theorem place_S : Format.S.place
      [.mem r1.toNat (sImm (encodeR f7 r2 r1 f3 d opc)), .reg r2.toNat] =
    some (encodeR f7 r2 r1 f3 d opc &&& Format.S.operandBits) := by
  rw [sImm_encodeR, operandBits_encodeR, Format.place, slice_signExtend _ (by decide),
    BitVec.ofNat_toNat, BitVec.setWidth_eq, BitVec.ofNat_toNat, BitVec.setWidth_eq,
    encodeS_fields]

theorem place_I_mem : Format.I.place
      [.reg d.toNat, .mem r1.toNat (iImm (encodeR f7 r2 r1 f3 d opc))] =
    some (encodeR f7 r2 r1 f3 d opc &&& Format.I.operandBits) := by
  rw [iImm_encodeR, operandBits_encodeR, Format.place, slice_signExtend _ (by decide),
    BitVec.ofNat_toNat, BitVec.setWidth_eq, BitVec.ofNat_toNat, BitVec.setWidth_eq,
    encodeI_fields]

theorem place_I_imm : Format.I.place
      [.reg d.toNat, .reg r1.toNat, .imm (iImm (encodeR f7 r2 r1 f3 d opc))] =
    some (encodeR f7 r2 r1 f3 d opc &&& Format.I.operandBits) := place_I_mem

theorem place_R : Format.R.place [.reg d.toNat, .reg r1.toNat, .reg r2.toNat] =
    some (encodeR f7 r2 r1 f3 d opc &&& Format.R.operandBits) := by
  rw [operandBits_encodeR]
  simp only [Format.place, BitVec.ofNat_toNat, BitVec.setWidth_eq]

theorem place_shiftImm : Format.shiftImm.place
      [.reg d.toNat, .reg r1.toNat, .imm (shamt6 (encodeR f7 r2 r1 f3 d opc))] =
    some (encodeR f7 r2 r1 f3 d opc &&& Format.shiftImm.operandBits) := by
  have hhi : (((f7.extractLsb' 0 1 ++ r2 : BitVec 6).setWidth 64).extractLsb' 5 1).setWidth 7 =
      f7 &&& 1 := by
    apply BitVec.eq_of_toNat_eq
    have hr2 := r2.isLt
    have hone : (f7 &&& 1).toNat = f7.toNat % 2 :=
      (BitVec.toNat_and ..).trans (Nat.and_one_is_mod _)
    rw [hone, BitVec.toNat_setWidth, BitVec.extractLsb'_toNat, BitVec.toNat_setWidth,
      toNat_append_add, BitVec.extractLsb'_toNat, Nat.shiftRight_eq_div_pow]
    omega
  have hlo : ((f7.extractLsb' 0 1 ++ r2 : BitVec 6).setWidth 64).extractLsb' 0 5 = r2 := by
    apply BitVec.eq_of_toNat_eq
    have hr2 := r2.isLt
    rw [BitVec.extractLsb'_toNat, BitVec.toNat_setWidth, toNat_append_add,
      BitVec.extractLsb'_toNat, Nat.shiftRight_zero]
    omega
  rw [shamt6_encodeR, operandBits_encodeR, Format.place, hhi, hlo, BitVec.ofNat_toNat,
    BitVec.setWidth_eq, BitVec.ofNat_toNat, BitVec.setWidth_eq]

theorem place_shiftImmW : Format.shiftImmW.place
      [.reg d.toNat, .reg r1.toNat, .imm (shamt5 (encodeR f7 r2 r1 f3 d opc))] =
    some (encodeR f7 r2 r1 f3 d opc &&& Format.shiftImmW.operandBits) := by
  have hlo : (r2.setWidth 64).extractLsb' 0 5 = r2 := by
    apply BitVec.eq_of_toNat_eq
    have hr2 := r2.isLt
    rw [BitVec.extractLsb'_toNat, BitVec.toNat_setWidth, Nat.shiftRight_zero]
    omega
  rw [shamt5_encodeR, operandBits_encodeR, Format.place, hlo, BitVec.ofNat_toNat,
    BitVec.setWidth_eq, BitVec.ofNat_toNat, BitVec.setWidth_eq]

theorem carries_uImm : Format.U.Carries (uImm (encodeR f7 r2 r1 f3 d opc)) := by
  rw [uImm_encodeR]
  exact carries_U _

theorem carries_jImm : Format.J.Carries (jImm (encodeR f7 r2 r1 f3 d opc)) := by
  rw [jImm_encodeR]
  exact carries_J _

theorem carries_bImm : Format.B.Carries (bImm (encodeR f7 r2 r1 f3 d opc)) := by
  rw [bImm_encodeR]
  exact carries_B _

theorem carries_iImm : Format.I.Carries (iImm (encodeR f7 r2 r1 f3 d opc)) := by
  rw [iImm_encodeR]
  exact carries_I _

theorem carries_sImm : Format.S.Carries (sImm (encodeR f7 r2 r1 f3 d opc)) := by
  rw [sImm_encodeR]
  exact carries_I _

theorem carries_shamt6 : Format.shiftImm.Carries (shamt6 (encodeR f7 r2 r1 f3 d opc)) := by
  rw [shamt6_encodeR, Format.Carries, BitVec.toNat_setWidth]
  exact (Nat.mod_le _ _).trans_lt (BitVec.isLt _)

theorem carries_shamt5 : Format.shiftImmW.Carries (shamt5 (encodeR f7 r2 r1 f3 d opc)) := by
  rw [shamt5_encodeR, Format.Carries, BitVec.toNat_setWidth]
  exact (Nat.mod_le _ _).trans_lt r2.isLt

end Fields

/-- Operands that come from the fields of their format and go back into them. -/
def Faithful (w : BitVec 32) (op : Opcode) (operands : List Operand) : Prop :=
  ∃ f, formatOf op = some f ∧ f.place operands = some (w &&& f.operandBits) ∧
    ∀ o ∈ operands, o.InRange f

section Faithful
variable {f : Format} {r s t : ℕ} {i : BitVec 64}

theorem inRange_regImm (hr : r < 32) (hi : f.Carries i) :
    ∀ o ∈ [Operand.reg r, .imm i], o.InRange f := by
  simp [Operand.InRange, hr, hi]

theorem inRange_regMem (hr : r < 32) (hs : s < 32) (hi : f.Carries i) :
    ∀ o ∈ [Operand.reg r, .mem s i], o.InRange f := by
  simp [Operand.InRange, hr, hs, hi]

theorem inRange_memReg (hr : r < 32) (hs : s < 32) (hi : f.Carries i) :
    ∀ o ∈ [Operand.mem r i, .reg s], o.InRange f := by
  simp [Operand.InRange, hr, hs, hi]

theorem inRange_regRegImm (hr : r < 32) (hs : s < 32) (hi : f.Carries i) :
    ∀ o ∈ [Operand.reg r, .reg s, .imm i], o.InRange f := by
  simp [Operand.InRange, hr, hs, hi]

theorem inRange_regs (hr : r < 32) (hs : s < 32) (ht : t < 32) :
    ∀ o ∈ [Operand.reg r, .reg s, .reg t], o.InRange f := by
  simp [Operand.InRange, hr, hs, ht]

theorem branchOpcode_format {n : ℕ} {op : Opcode} (h : branchOpcode n = some op) :
    formatOf op = some .B := by
  unfold branchOpcode at h
  split at h <;> cases h <;> rfl

theorem loadOpcode_format {n : ℕ} {op : Opcode} (h : loadOpcode n = some op) :
    formatOf op = some .I := by
  unfold loadOpcode at h
  split at h <;> cases h <;> rfl

theorem storeOpcode_format {n : ℕ} {op : Opcode} (h : storeOpcode n = some op) :
    formatOf op = some .S := by
  unfold storeOpcode at h
  split at h <;> cases h <;> rfl

theorem opReg_format {f7 n : ℕ} {op : Opcode} (h : opReg f7 n = some op) :
    formatOf op = some .R := by
  unfold opReg at h
  split at h <;> cases h <;> first | rfl | split_ifs <;> rfl

theorem opReg32_format {f7 n : ℕ} {op : Opcode} (h : opReg32 f7 n = some op) :
    formatOf op = some .R := by
  unfold opReg32 at h
  split at h <;> cases h <;> first | rfl | split_ifs <;> rfl

/-- OP-IMM has immediates and six-bit shift amounts. -/
theorem opImm_format {w : BitVec 32} {n : ℕ} {p : Opcode × BitVec 64} (h : opImm w n = some p) :
    formatOf p.1 = some .I ∧ p.2 = iImm w ∨ formatOf p.1 = some .shiftImm ∧ p.2 = shamt6 w := by
  unfold opImm at h
  split at h <;> (try split_ifs at h) <;> cases h <;>
    first
      | exact Or.inl ⟨rfl, rfl⟩
      | exact Or.inr ⟨rfl, rfl⟩

/-- OP-IMM-32 has immediates and five-bit shift amounts. -/
theorem opImm32_format {w : BitVec 32} {n : ℕ} {p : Opcode × BitVec 64}
    (h : opImm32 w n = some p) :
    formatOf p.1 = some .I ∧ p.2 = iImm w ∨ formatOf p.1 = some .shiftImmW ∧ p.2 = shamt5 w := by
  unfold opImm32 at h
  split at h <;> (try split_ifs at h) <;> cases h <;>
    first
      | exact Or.inl ⟨rfl, rfl⟩
      | exact Or.inr ⟨rfl, rfl⟩

end Faithful

/-- The operands of every accepted word, but for FENCE and SYSTEM, go back into it. -/
theorem decodeFields_faithful {w : BitVec 32} {op : Opcode} {operands : List Operand}
    (h : decodeFields w = some (op, operands)) (hop : op ∉ [Opcode.FENCE, .ECALL, .EBREAK]) :
    Faithful w op operands := by
  obtain ⟨f7, r2, r1, f3, d, opc, rfl⟩ : ∃ f7 r2 r1 f3 d opc, w = encodeR f7 r2 r1 f3 d opc :=
    ⟨_, _, _, _, _, _, (encodeR_extract w).symm⟩
  have hd : d.toNat < 32 := d.isLt
  have hr1 : r1.toNat < 32 := r1.isLt
  have hr2 : r2.toNat < 32 := r2.isLt
  unfold decodeFields at h
  rw [rd_encodeR, rs1_encodeR, rs2_encodeR] at h
  split at h
  case h_1 | h_2 =>
    cases h
    exact ⟨.U, rfl, place_U, inRange_regImm hd carries_uImm⟩
  case h_3 =>
    cases h
    exact ⟨.J, rfl, place_J, inRange_regImm hd carries_jImm⟩
  case h_4 =>
    cases h
    exact ⟨.I, rfl, place_I_mem, inRange_regMem hd hr1 carries_iImm⟩
  case h_5 =>
    obtain ⟨o, ho, he⟩ := Option.map_eq_some_iff.mp h
    cases he
    exact ⟨.B, branchOpcode_format ho, place_B, inRange_regRegImm hr1 hr2 carries_bImm⟩
  case h_6 =>
    obtain ⟨o, ho, he⟩ := Option.map_eq_some_iff.mp h
    cases he
    exact ⟨.I, loadOpcode_format ho, place_I_mem, inRange_regMem hd hr1 carries_iImm⟩
  case h_7 =>
    obtain ⟨o, ho, he⟩ := Option.map_eq_some_iff.mp h
    cases he
    exact ⟨.S, storeOpcode_format ho, place_S, inRange_memReg hr1 hr2 carries_sImm⟩
  case h_8 =>
    obtain ⟨⟨o, imm⟩, ho, he⟩ := Option.map_eq_some_iff.mp h
    cases he
    rcases opImm_format ho with ⟨hf, rfl⟩ | ⟨hf, rfl⟩
    · exact ⟨.I, hf, place_I_imm, inRange_regRegImm hd hr1 carries_iImm⟩
    · exact ⟨.shiftImm, hf, place_shiftImm, inRange_regRegImm hd hr1 carries_shamt6⟩
  case h_9 =>
    obtain ⟨⟨o, imm⟩, ho, he⟩ := Option.map_eq_some_iff.mp h
    cases he
    rcases opImm32_format ho with ⟨hf, rfl⟩ | ⟨hf, rfl⟩
    · exact ⟨.I, hf, place_I_imm, inRange_regRegImm hd hr1 carries_iImm⟩
    · exact ⟨.shiftImmW, hf, place_shiftImmW, inRange_regRegImm hd hr1 carries_shamt5⟩
  case h_10 =>
    obtain ⟨o, ho, he⟩ := Option.map_eq_some_iff.mp h
    cases he
    exact ⟨.R, opReg_format ho, place_R, inRange_regs hd hr1 hr2⟩
  case h_11 =>
    obtain ⟨o, ho, he⟩ := Option.map_eq_some_iff.mp h
    cases he
    exact ⟨.R, opReg32_format ho, place_R, inRange_regs hd hr1 hr2⟩
  case h_12 =>
    cases h
    exact absurd (by simp) hop
  case h_13 =>
    obtain ⟨o, ho, he⟩ := Option.map_eq_some_iff.mp h
    cases he
    have hm := system_mem ho
    exact absurd (by simp only [List.mem_cons] at hm ⊢; tauto) hop
  case h_14 => cases h

theorem Shaped.unpacked {inst : DecodedInst} (h : Shaped inst) : Unpacked inst :=
  ⟨h.exits, fun code => ⟨_, liftInst_run code h⟩⟩

theorem not_unpacked_of_exit {inst : DecodedInst} {fault : Fault}
    (h : exitOf inst = .error fault) : ¬ Unpacked inst := by
  rintro ⟨⟨exit, he⟩, -⟩
  rw [h] at he
  cases he

theorem not_unpacked_of_lift {inst : DecodedInst} {fault : Fault}
    (h : (liftInst inst).run [] = .error fault) : ¬ Unpacked inst := by
  rintro ⟨-, hl⟩
  obtain ⟨code, hl⟩ := hl []
  rw [h] at hl
  cases hl

/-- Without its last operand an instruction cannot be lifted, or its block not be ended. -/
theorem Shaped.needed {inst : DecodedInst} (h : Shaped inst) (hop : inst.opcode ∉ dropped) :
    ∀ k < inst.operands.length, ¬ Unpacked (inst.firstOperands k) := by
  intro k hk
  cases h with
  | regImm pc raw op rd i hmem =>
    simp only [List.mem_cons, List.not_mem_nil, or_false] at hmem
    have hsplit : k = 0 ∨ k = 1 := by
      change k < 2 at hk
      omega
    rcases hmem with rfl | rfl | rfl <;> first
      | exact absurd (List.mem_of_elem_eq_true rfl) hop
      | rcases hsplit with rfl | rfl <;> first
        | exact not_unpacked_of_lift rfl
        | exact not_unpacked_of_exit rfl
  | regMem pc raw op rd base off hmem =>
    simp only [List.mem_cons, List.not_mem_nil, or_false] at hmem
    have hsplit : k = 0 ∨ k = 1 := by
      change k < 2 at hk
      omega
    rcases hmem with rfl | rfl | rfl | rfl | rfl | rfl | rfl | rfl <;> first
      | exact absurd (List.mem_of_elem_eq_true rfl) hop
      | rcases hsplit with rfl | rfl <;> exact not_unpacked_of_lift rfl
  | memReg pc raw op base rs off hmem =>
    simp only [List.mem_cons, List.not_mem_nil, or_false] at hmem
    have hsplit : k = 0 ∨ k = 1 := by
      change k < 2 at hk
      omega
    rcases hmem with rfl | rfl | rfl | rfl <;> first
      | exact absurd (List.mem_of_elem_eq_true rfl) hop
      | rcases hsplit with rfl | rfl <;> exact not_unpacked_of_lift rfl
  | regRegImm pc raw op r s i hmem =>
    simp only [List.mem_cons, List.not_mem_nil, or_false] at hmem
    have hsplit : k = 0 ∨ k = 1 ∨ k = 2 := by
      change k < 3 at hk
      omega
    rcases hmem with rfl | rfl | rfl | rfl | rfl | rfl | rfl | rfl | rfl | rfl | rfl | rfl |
      rfl | rfl | rfl | rfl | rfl | rfl | rfl <;> first
      | exact absurd (List.mem_of_elem_eq_true rfl) hop
      | rcases hsplit with rfl | rfl | rfl <;> first
        | exact not_unpacked_of_lift rfl
        | exact not_unpacked_of_exit rfl
  | regRegReg pc raw op rd rs1 rs2 hmem =>
    simp only [List.mem_cons, List.not_mem_nil, or_false] at hmem
    have hsplit : k = 0 ∨ k = 1 ∨ k = 2 := by
      change k < 3 at hk
      omega
    rcases hmem with rfl | rfl | rfl | rfl | rfl | rfl | rfl | rfl | rfl | rfl | rfl | rfl |
      rfl | rfl | rfl <;> first
      | exact absurd (List.mem_of_elem_eq_true rfl) hop
      | rcases hsplit with rfl | rfl | rfl <;> exact not_unpacked_of_lift rfl
  | bare pc raw op hmem => exact absurd hk (Nat.not_lt_zero k)

/-- Decoding loses no operand bit. -/
theorem decodeNext_operands {mem : MemoryReader} {pc : BitVec 64} {inst : DecodedInst}
    (h : decodeNext mem pc = .ok inst) (hop : inst.opcode ∉ [Opcode.FENCE, .ECALL, .EBREAK]) :
    ∃ f, formatOf inst.opcode = some f ∧ OperandsExact inst f := by
  have hs := decodeNext_shaped h
  obtain ⟨f, hf, hplace, hrange⟩ := decodeFields_faithful (decodeNext_ok h).2.2.2 hop
  exact ⟨f, hf, hplace, hrange, hs.unpacked, hs.needed⟩

/-- `jal x1, -2`. -/
theorem jal_operands : ∃ f, formatOf .JAL = some f ∧
    OperandsExact ⟨0, 0xFFFFF0EF, .JAL, [.reg 1, .imm (-2)]⟩ f := by
  have hd : decodeNext (fun _ => some 0xFFFFF0EF) 0 =
      .ok ⟨0, 0xFFFFF0EF, .JAL, [.reg 1, .imm (-2)]⟩ := rfl
  exact decodeNext_operands hd (by decide)

end Riscy.RISCV
