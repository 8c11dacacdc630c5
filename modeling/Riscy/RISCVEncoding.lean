import Riscy.BitFields
import Riscy.RISCVDecoder

/-! The RV64I base instruction set with the encoding of the manual, independent of the
decoder: instructions carry their fields, so an ill-formed one cannot be written. -/
namespace Riscy.RISCV
open BitFields

/-- The fixed 32-bit layout: every format slices its immediate into these fields. -/
def encodeR (f7 : BitVec 7) (rs2 rs1 : BitVec 5) (f3 : BitVec 3) (rd : BitVec 5)
    (opc : BitVec 7) : BitVec 32 :=
  f7 ++ rs2 ++ rs1 ++ f3 ++ rd ++ opc

def encodeI (imm : BitVec 12) (rs1 : BitVec 5) (f3 : BitVec 3) (rd : BitVec 5)
    (opc : BitVec 7) : BitVec 32 :=
  encodeR (imm.extractLsb' 5 7) (imm.extractLsb' 0 5) rs1 f3 rd opc

def encodeS (imm : BitVec 12) (rs2 rs1 : BitVec 5) (f3 : BitVec 3) (opc : BitVec 7) :
    BitVec 32 :=
  encodeR (imm.extractLsb' 5 7) rs2 rs1 f3 (imm.extractLsb' 0 5) opc

/-- `imm` holds bits 12 down to 1 of the offset. -/
def encodeB (imm : BitVec 12) (rs2 rs1 : BitVec 5) (f3 : BitVec 3) (opc : BitVec 7) :
    BitVec 32 :=
  encodeR (imm.extractLsb' 11 1 ++ imm.extractLsb' 4 6) rs2 rs1 f3
    (imm.extractLsb' 0 4 ++ imm.extractLsb' 10 1) opc

def encodeU (imm : BitVec 20) (rd : BitVec 5) (opc : BitVec 7) : BitVec 32 :=
  encodeR (imm.extractLsb' 13 7) (imm.extractLsb' 8 5) (imm.extractLsb' 3 5)
    (imm.extractLsb' 0 3) rd opc

/-- `imm` holds bits 20 down to 1 of the offset. -/
def encodeJ (imm : BitVec 20) (rd : BitVec 5) (opc : BitVec 7) : BitVec 32 :=
  encodeR (imm.extractLsb' 19 1 ++ imm.extractLsb' 4 6)
    (imm.extractLsb' 0 4 ++ imm.extractLsb' 10 1) (imm.extractLsb' 14 5)
    (imm.extractLsb' 11 3) rd opc

def branchOps : List Opcode := [.BEQ, .BNE, .BLT, .BGE, .BLTU, .BGEU]
def loadOps : List Opcode := [.LB, .LH, .LW, .LD, .LBU, .LHU, .LWU]
def storeOps : List Opcode := [.SB, .SH, .SW, .SD]
def immOps : List Opcode := [.ADDI, .SLTI, .SLTIU, .XORI, .ORI, .ANDI]
def shiftOps : List Opcode := [.SLLI, .SRLI, .SRAI]
def shiftOpsW : List Opcode := [.SLLIW, .SRLIW, .SRAIW]
def regOps : List Opcode :=
  [.ADD, .SUB, .SLL, .SLT, .SLTU, .XOR, .SRL, .SRA, .OR, .AND]
def regOpsW : List Opcode := [.ADDW, .SUBW, .SLLW, .SRLW, .SRAW]

def funct3Of : Opcode → BitVec 3
  | .BEQ | .LB | .SB | .ADDI | .ADD | .SUB | .ADDIW | .ADDW | .SUBW => 0
  | .BNE | .LH | .SH | .SLLI | .SLL | .SLLIW | .SLLW => 1
  | .LW | .SW | .SLTI | .SLT => 2
  | .LD | .SD | .SLTIU | .SLTU => 3
  | .BLT | .LBU | .XORI | .XOR => 4
  | .BGE | .LHU | .SRLI | .SRAI | .SRL | .SRA | .SRLIW | .SRAIW | .SRLW | .SRAW => 5
  | .BLTU | .LWU | .ORI | .OR => 6
  | .BGEU | .ANDI | .AND => 7
  | _ => 0

def funct7Of : Opcode → BitVec 7
  | .SUB | .SRA | .SUBW | .SRAW | .SRAI | .SRAIW => 0x20
  | _ => 0

/-- RV64I base instructions with all their fields. -/
inductive BaseInst
  | lui (rd : BitVec 5) (imm : BitVec 20)
  | auipc (rd : BitVec 5) (imm : BitVec 20)
  | jal (rd : BitVec 5) (imm : BitVec 20)
  | jalr (rd rs1 : BitVec 5) (imm : BitVec 12)
  | branch (op : Opcode) (hop : op ∈ branchOps) (rs1 rs2 : BitVec 5) (imm : BitVec 12)
  | load (op : Opcode) (hop : op ∈ loadOps) (rd rs1 : BitVec 5) (imm : BitVec 12)
  | store (op : Opcode) (hop : op ∈ storeOps) (rs1 rs2 : BitVec 5) (imm : BitVec 12)
  | opImm (op : Opcode) (hop : op ∈ immOps) (rd rs1 : BitVec 5) (imm : BitVec 12)
  | shiftImm (op : Opcode) (hop : op ∈ shiftOps) (rd rs1 : BitVec 5) (shamt : BitVec 6)
  | addiw (rd rs1 : BitVec 5) (imm : BitVec 12)
  | shiftImmW (op : Opcode) (hop : op ∈ shiftOpsW) (rd rs1 : BitVec 5) (shamt : BitVec 5)
  | opReg (op : Opcode) (hop : op ∈ regOps) (rd rs1 rs2 : BitVec 5)
  | opRegW (op : Opcode) (hop : op ∈ regOpsW) (rd rs1 rs2 : BitVec 5)
  | fence (fields : BitVec 12) (rs1 rd : BitVec 5)
  | ecall
  | ebreak

def encode : BaseInst → BitVec 32
  | .lui rd imm => encodeU imm rd 0x37
  | .auipc rd imm => encodeU imm rd 0x17
  | .jal rd imm => encodeJ imm rd 0x6F
  | .jalr rd rs1 imm => encodeI imm rs1 0 rd 0x67
  | .branch op _ rs1 rs2 imm => encodeB imm rs2 rs1 (funct3Of op) 0x63
  | .load op _ rd rs1 imm => encodeI imm rs1 (funct3Of op) rd 0x03
  | .store op _ rs1 rs2 imm => encodeS imm rs2 rs1 (funct3Of op) 0x23
  | .opImm op _ rd rs1 imm => encodeI imm rs1 (funct3Of op) rd 0x13
  | .shiftImm op _ rd rs1 shamt =>
    -- on RV64 the sixth shift-amount bit is the lowest bit of funct7
    encodeR ((funct7Of op).extractLsb' 1 6 ++ shamt.extractLsb' 5 1) (shamt.extractLsb' 0 5)
      rs1 (funct3Of op) rd 0x13
  | .addiw rd rs1 imm => encodeI imm rs1 0 rd 0x1B
  | .shiftImmW op _ rd rs1 shamt => encodeR (funct7Of op) shamt rs1 (funct3Of op) rd 0x1B
  | .opReg op _ rd rs1 rs2 => encodeR (funct7Of op) rs2 rs1 (funct3Of op) rd 0x33
  | .opRegW op _ rd rs1 rs2 => encodeR (funct7Of op) rs2 rs1 (funct3Of op) rd 0x3B
  | .fence fields rs1 rd => encodeI fields rs1 0 rd 0x0F
  | .ecall => encodeI 0 0 0 0 0x73
  | .ebreak => encodeI 1 0 0 0 0x73

def BaseInst.opcode : BaseInst → Opcode
  | .lui .. => .LUI
  | .auipc .. => .AUIPC
  | .jal .. => .JAL
  | .jalr .. => .JALR
  | .branch op .. | .load op .. | .store op .. | .opImm op .. | .shiftImm op ..
  | .shiftImmW op .. | .opReg op .. | .opRegW op .. => op
  | .addiw .. => .ADDIW
  | .fence .. => .FENCE
  | .ecall => .ECALL
  | .ebreak => .EBREAK

/-- Operands in the documented order: destination first, memory first for stores. -/
def BaseInst.operands : BaseInst → List Operand
  | .lui rd imm | .auipc rd imm =>
    [.reg rd.toNat, .imm ((imm ++ (0 : BitVec 12)).signExtend 64)]
  | .jal rd imm => [.reg rd.toNat, .imm ((imm ++ (0 : BitVec 1)).signExtend 64)]
  | .jalr rd rs1 imm | .load _ _ rd rs1 imm =>
    [.reg rd.toNat, .mem rs1.toNat (imm.signExtend 64)]
  | .branch _ _ rs1 rs2 imm =>
    [.reg rs1.toNat, .reg rs2.toNat, .imm ((imm ++ (0 : BitVec 1)).signExtend 64)]
  | .store _ _ rs1 rs2 imm => [.mem rs1.toNat (imm.signExtend 64), .reg rs2.toNat]
  | .opImm _ _ rd rs1 imm | .addiw rd rs1 imm =>
    [.reg rd.toNat, .reg rs1.toNat, .imm (imm.signExtend 64)]
  | .shiftImm _ _ rd rs1 shamt => [.reg rd.toNat, .reg rs1.toNat, .imm (shamt.setWidth 64)]
  | .shiftImmW _ _ rd rs1 shamt => [.reg rd.toNat, .reg rs1.toNat, .imm (shamt.setWidth 64)]
  | .opReg _ _ rd rs1 rs2 | .opRegW _ _ rd rs1 rs2 =>
    [.reg rd.toNat, .reg rs1.toNat, .reg rs2.toNat]
  | .fence .. | .ecall | .ebreak => []

section Fields
variable (f7 : BitVec 7) (r2 r1 : BitVec 5) (f3 : BitVec 3) (d : BitVec 5) (opc : BitVec 7)

theorem toNat_encodeR : (encodeR f7 r2 r1 f3 d opc).toNat =
    f7.toNat * 2 ^ 25 + r2.toNat * 2 ^ 20 + r1.toNat * 2 ^ 15 + f3.toNat * 2 ^ 12 +
      d.toNat * 2 ^ 7 + opc.toNat := by
  change BitVec.toNat (f7 ++ r2 ++ r1 ++ f3 ++ d ++ opc) = _
  rw [toNat_append_add, toNat_append_add, toNat_append_add, toNat_append_add,
    toNat_append_add]
  ring

/-- Every word is laid out from its own fields. -/
theorem encodeR_extract (w : BitVec 32) :
    encodeR (w.extractLsb' 25 7) (w.extractLsb' 20 5) (w.extractLsb' 15 5)
      (w.extractLsb' 12 3) (w.extractLsb' 7 5) (w.extractLsb' 0 7) = w := by
  apply BitVec.eq_of_toNat_eq
  have hw := w.isLt
  rw [toNat_encodeR]
  simp only [BitVec.extractLsb'_toNat, Nat.shiftRight_eq_div_pow]
  omega

theorem shift_mask (x : BitVec 32) (s n : ℕ) (hn : n < 32) :
    ((x >>> s) &&& BitVec.ofNat 32 (2 ^ n - 1)).toNat = x.toNat / 2 ^ s % 2 ^ n := by
  have hp : 2 ^ n - 1 < 2 ^ 32 := by
    have := Nat.pow_lt_pow_right (a := 2) (by omega) hn
    omega
  rw [BitVec.toNat_and, BitVec.toNat_ofNat, Nat.mod_eq_of_lt hp,
    Nat.and_two_pow_sub_one_eq_mod, BitVec.toNat_ushiftRight, Nat.shiftRight_eq_div_pow]

@[simp] theorem opc_encodeR : (encodeR f7 r2 r1 f3 d opc &&& 0x7F).toNat = opc.toNat := by
  have h := shift_mask (encodeR f7 r2 r1 f3 d opc) 0 7 (by omega)
  rw [BitVec.ushiftRight_zero, toNat_encodeR] at h
  have := opc.isLt
  refine h.trans ?_
  omega

@[simp] theorem rd_encodeR : rd (encodeR f7 r2 r1 f3 d opc) = d.toNat := by
  have := opc.isLt
  have := d.isLt
  refine (shift_mask _ 7 5 (by omega)).trans ?_
  rw [toNat_encodeR]
  omega

@[simp] theorem funct3_encodeR : funct3 (encodeR f7 r2 r1 f3 d opc) = f3.toNat := by
  have := opc.isLt
  have := d.isLt
  have := f3.isLt
  refine (shift_mask _ 12 3 (by omega)).trans ?_
  rw [toNat_encodeR]
  omega

@[simp] theorem rs1_encodeR : rs1 (encodeR f7 r2 r1 f3 d opc) = r1.toNat := by
  have := opc.isLt
  have := d.isLt
  have := f3.isLt
  have := r1.isLt
  refine (shift_mask _ 15 5 (by omega)).trans ?_
  rw [toNat_encodeR]
  omega

@[simp] theorem rs2_encodeR : rs2 (encodeR f7 r2 r1 f3 d opc) = r2.toNat := by
  have := opc.isLt
  have := d.isLt
  have := f3.isLt
  have := r1.isLt
  have := r2.isLt
  refine (shift_mask _ 20 5 (by omega)).trans ?_
  rw [toNat_encodeR]
  omega

@[simp] theorem funct7_encodeR : funct7 (encodeR f7 r2 r1 f3 d opc) = f7.toNat := by
  have := opc.isLt
  have := d.isLt
  have := f3.isLt
  have := r1.isLt
  have := r2.isLt
  have := f7.isLt
  refine (shift_mask _ 25 7 (by omega)).trans ?_
  rw [toNat_encodeR]
  omega

/-- `getBits` is a quotient and a remainder. -/
theorem toNat_getBits (x : BitVec 32) {hi lo : ℕ} (hl : lo ≤ hi) (hh : hi < 32) :
    (getBits x hi lo).toNat = x.toNat / 2 ^ lo % 2 ^ (hi - lo + 1) := by
  have hx := x.isLt
  unfold getBits
  rw [BitVec.toNat_ushiftRight, BitVec.toNat_and, Nat.shiftRight_eq_div_pow,
    ← and_mask_div]
  congr 2
  split_ifs with h
  · obtain ⟨rfl, rfl⟩ := h
    decide
  · have hn : hi - lo + 1 < 32 := by omega
    have hp := Nat.pow_lt_pow_right (a := 2) (by omega) hn
    have hm : ((1#32 <<< (hi - lo + 1)) - 1#32).toNat = 2 ^ (hi - lo + 1) - 1 := by
      rw [BitVec.toNat_sub, BitVec.toNat_shiftLeft, Nat.shiftLeft_eq]
      have h1 : (1#32).toNat = 1 := rfl
      have := Nat.one_le_two_pow (n := hi - lo + 1)
      rw [h1, Nat.one_mul, Nat.mod_eq_of_lt hp]
      omega
    rw [BitVec.toNat_shiftLeft, hm, Nat.shiftLeft_eq, Nat.mod_eq_of_lt]
    have he : 2 ^ (hi - lo + 1) * 2 ^ lo = 2 ^ (hi + 1) := by
      rw [← Nat.pow_add]
      congr 1
      omega
    have := Nat.pow_le_pow_right (n := 2) (by omega) (show hi + 1 ≤ 32 by omega)
    have := Nat.two_pow_pos lo
    rw [Nat.sub_mul, he]
    omega

/-- A field read as a number below `2 ^ n` is the setWidth of its `n`-bit vector. -/
theorem sext_of_toNat {n : ℕ} (hn : 0 < n) (hw : n < 64) (x : BitVec 64) (v : BitVec n)
    (h : x.toNat = v.toNat) : sext x n = v.signExtend 64 := by
  have hx : x = v.setWidth 64 := by
    apply BitVec.eq_of_toNat_eq
    have := Nat.pow_lt_pow_right (a := 2) (by omega) hw
    have := v.isLt
    rw [h, BitVec.toNat_setWidth, Nat.mod_eq_of_lt (by omega)]
  rw [hx]
  exact xor_sub_signExtend hn hw v

/-- Small non-negative 32-bit values keep their value as 64-bit ones. -/
theorem toNat_signExtend_small {x : BitVec 32} (h : x.toNat < 2 ^ 31) :
    (x.signExtend 64).toNat = x.toNat := by
  rw [BitVec.signExtend_eq_setWidth_of_msb_false (BitVec.msb_eq_false_iff_two_mul_lt.mpr
    (by omega)), BitVec.toNat_setWidth]
  omega

theorem iImm_encodeR :
    iImm (encodeR f7 r2 r1 f3 d opc) = (f7 ++ r2 : BitVec 12).signExtend 64 := by
  have := opc.isLt
  have := d.isLt
  have := f3.isLt
  have := r1.isLt
  have := r2.isLt
  have := f7.isLt
  apply sext_of_toNat (by omega) (by omega)
  rw [BitVec.toNat_setWidth]
  refine (Nat.mod_eq_of_lt ?_).trans ?_
  · exact lt_of_lt_of_le (BitVec.isLt _) (by omega)
  · refine (shift_mask _ 20 12 (by omega)).trans ?_
    rw [toNat_encodeR, toNat_append_add]
    omega

theorem uImm_encodeR : uImm (encodeR f7 r2 r1 f3 d opc) =
    ((f7 ++ r2 ++ r1 ++ f3 : BitVec 20) ++ (0 : BitVec 12)).signExtend 64 := by
  have := opc.isLt
  have := d.isLt
  have := f3.isLt
  have := r1.isLt
  have := r2.isLt
  have := f7.isLt
  apply sext_of_toNat (by omega) (by omega)
  rw [BitVec.toNat_setWidth]
  refine (Nat.mod_eq_of_lt ?_).trans ?_
  · exact lt_of_lt_of_le (BitVec.isLt _) (by omega)
  · have hm := @and_high_mask _ 20 12 (encodeR f7 r2 r1 f3 d opc).isLt
    refine hm.trans ?_
    rw [toNat_encodeR, toNat_append_add, toNat_append_add, toNat_append_add,
      toNat_append_add]
    change _ = _ * 2 ^ 12 + 0
    omega

theorem toNat_getBits_shift (x : BitVec 32) {hi lo k : ℕ} (hl : lo ≤ hi) (hh : hi < 32)
    (hk : hi - lo + 1 + k ≤ 32) :
    (getBits x hi lo <<< k).toNat = x.toNat / 2 ^ lo % 2 ^ (hi - lo + 1) * 2 ^ k := by
  rw [BitVec.toNat_shiftLeft, toNat_getBits x hl hh, Nat.shiftLeft_eq, Nat.mod_eq_of_lt]
  have hlt := Nat.mod_lt (x.toNat / 2 ^ lo) (Nat.two_pow_pos (hi - lo + 1))
  have hle := Nat.pow_le_pow_right (n := 2) (by omega) hk
  rw [Nat.pow_add] at hle
  exact lt_of_lt_of_le (Nat.mul_lt_mul_of_pos_right hlt (Nat.two_pow_pos k)) hle

theorem sImm_encodeR :
    sImm (encodeR f7 r2 r1 f3 d opc) = (f7 ++ d : BitVec 12).signExtend 64 := by
  have := opc.isLt
  have := d.isLt
  have := f3.isLt
  have := r1.isLt
  have := r2.isLt
  have := f7.isLt
  set w := encodeR f7 r2 r1 f3 d opc with hw
  have hhi : (getBits w 31 25 <<< 5).toNat = f7.toNat * 2 ^ 5 := by
    rw [toNat_getBits_shift w (by omega) (by omega) (by omega), hw, toNat_encodeR]
    omega
  have hlo : (getBits w 11 7).toNat = d.toNat := by
    rw [toNat_getBits w (by omega) (by omega), hw, toNat_encodeR]
    omega
  have hv : ((getBits w 31 25 <<< 5) ||| getBits w 11 7).toNat =
      f7.toNat * 2 ^ 5 + d.toNat := by
    rw [BitVec.toNat_or, hhi, hlo, or_eq_add (k := 5) (by omega) (by omega)]
  apply sext_of_toNat (by omega) (by omega)
  rw [toNat_signExtend_small (by omega), hv, toNat_append_add]

theorem bImm_encodeR : bImm (encodeR f7 r2 r1 f3 d opc) =
    (f7.extractLsb' 6 1 ++ d.extractLsb' 0 1 ++ f7.extractLsb' 0 6 ++ d.extractLsb' 1 4 ++
      (0 : BitVec 1) : BitVec 13).signExtend 64 := by
  have := opc.isLt
  have := d.isLt
  have := f3.isLt
  have := r1.isLt
  have := r2.isLt
  have := f7.isLt
  set w := encodeR f7 r2 r1 f3 d opc with hw
  have h12 : (getBits w 31 31 <<< 12).toNat = f7.toNat / 64 * 2 ^ 12 := by
    rw [toNat_getBits_shift w (by omega) (by omega) (by omega), hw, toNat_encodeR]
    omega
  have h11 : (getBits w 7 7 <<< 11).toNat = d.toNat % 2 * 2 ^ 11 := by
    rw [toNat_getBits_shift w (by omega) (by omega) (by omega), hw, toNat_encodeR]
    omega
  have h5 : (getBits w 30 25 <<< 5).toNat = f7.toNat % 64 * 2 ^ 5 := by
    rw [toNat_getBits_shift w (by omega) (by omega) (by omega), hw, toNat_encodeR]
    omega
  have h1 : (getBits w 11 8 <<< 1).toNat = d.toNat / 2 * 2 ^ 1 := by
    rw [toNat_getBits_shift w (by omega) (by omega) (by omega), hw, toNat_encodeR]
    omega
  have hv : ((getBits w 31 31 <<< 12) ||| (getBits w 7 7 <<< 11) |||
      (getBits w 30 25 <<< 5) ||| (getBits w 11 8 <<< 1)).toNat =
      f7.toNat / 64 * 2 ^ 12 + d.toNat % 2 * 2 ^ 11 + f7.toNat % 64 * 2 ^ 5 +
        d.toNat / 2 * 2 ^ 1 := by
    rw [BitVec.toNat_or, BitVec.toNat_or, BitVec.toNat_or, h12, h11, h5, h1,
      or_fields (i := 12) (j := 11) (k := 5) (by omega) (by omega) (by omega) (by omega)
        (by omega) (by omega) (by omega) (by omega)]
  apply sext_of_toNat (by omega) (by omega)
  rw [toNat_signExtend_small (by omega), hv]
  simp only [toNat_append_add, BitVec.extractLsb'_toNat, Nat.shiftRight_eq_div_pow,
    Nat.div_one, Nat.reducePow]
  change _ = _ * 2 ^ 1 + 0
  have hs : f7.toNat / 64 % 2 = f7.toNat / 64 := Nat.mod_eq_of_lt (by omega)
  have hd : d.toNat / 2 % 16 = d.toNat / 2 := Nat.mod_eq_of_lt (by omega)
  rw [hs, hd]
  omega

theorem jImm_encodeR : jImm (encodeR f7 r2 r1 f3 d opc) =
    (f7.extractLsb' 6 1 ++ r1 ++ f3 ++ r2.extractLsb' 0 1 ++ f7.extractLsb' 0 6 ++
      r2.extractLsb' 1 4 ++ (0 : BitVec 1) : BitVec 21).signExtend 64 := by
  have := opc.isLt
  have := d.isLt
  have := f3.isLt
  have := r1.isLt
  have := r2.isLt
  have := f7.isLt
  set w := encodeR f7 r2 r1 f3 d opc with hw
  have h20 : (getBits w 31 31 <<< 20).toNat = f7.toNat / 64 * 2 ^ 20 := by
    rw [toNat_getBits_shift w (by omega) (by omega) (by omega), hw, toNat_encodeR]
    omega
  have h12 : (getBits w 19 12 <<< 12).toNat = (r1.toNat * 8 + f3.toNat) * 2 ^ 12 := by
    rw [toNat_getBits_shift w (by omega) (by omega) (by omega), hw, toNat_encodeR]
    omega
  have h11 : (getBits w 20 20 <<< 11).toNat = r2.toNat % 2 * 2 ^ 11 := by
    rw [toNat_getBits_shift w (by omega) (by omega) (by omega), hw, toNat_encodeR]
    omega
  have h1 : (getBits w 30 21 <<< 1).toNat = (f7.toNat % 64 * 16 + r2.toNat / 2) * 2 ^ 1 := by
    rw [toNat_getBits_shift w (by omega) (by omega) (by omega), hw, toNat_encodeR]
    omega
  have hv : ((getBits w 31 31 <<< 20) ||| (getBits w 19 12 <<< 12) |||
      (getBits w 20 20 <<< 11) ||| (getBits w 30 21 <<< 1)).toNat =
      f7.toNat / 64 * 2 ^ 20 + (r1.toNat * 8 + f3.toNat) * 2 ^ 12 + r2.toNat % 2 * 2 ^ 11 +
        (f7.toNat % 64 * 16 + r2.toNat / 2) * 2 ^ 1 := by
    rw [BitVec.toNat_or, BitVec.toNat_or, BitVec.toNat_or, h20, h12, h11, h1,
      or_fields (i := 20) (j := 12) (k := 11) (by omega) (by omega) (by omega) (by omega)
        (by omega) (by omega) (by omega) (by omega)]
  apply sext_of_toNat (by omega) (by omega)
  rw [toNat_signExtend_small (by omega), hv]
  simp only [toNat_append_add, BitVec.extractLsb'_toNat, Nat.shiftRight_eq_div_pow,
    Nat.div_one, Nat.reducePow]
  change _ = _ * 2 ^ 1 + 0
  have hs : f7.toNat / 64 % 2 = f7.toNat / 64 := Nat.mod_eq_of_lt (by omega)
  have hd : r2.toNat / 2 % 16 = r2.toNat / 2 := Nat.mod_eq_of_lt (by omega)
  rw [hs, hd]
  omega

theorem shamt6_encodeR : shamt6 (encodeR f7 r2 r1 f3 d opc) =
    (f7.extractLsb' 0 1 ++ r2 : BitVec 6).setWidth 64 := by
  have := opc.isLt
  have := d.isLt
  have := f3.isLt
  have := r1.isLt
  have := r2.isLt
  apply BitVec.eq_of_toNat_eq
  rw [shamt6, BitVec.toNat_setWidth, toNat_getBits _ (by omega) (by omega), toNat_encodeR,
    BitVec.toNat_setWidth, toNat_append_add, BitVec.extractLsb'_toNat]
  omega

theorem shamt5_encodeR : shamt5 (encodeR f7 r2 r1 f3 d opc) = r2.setWidth 64 := by
  have := opc.isLt
  have := d.isLt
  have := f3.isLt
  have := r1.isLt
  have := r2.isLt
  apply BitVec.eq_of_toNat_eq
  rw [shamt5, BitVec.toNat_setWidth, toNat_getBits _ (by omega) (by omega), toNat_encodeR,
    BitVec.toNat_setWidth]
  omega

end Fields

end Riscy.RISCV
