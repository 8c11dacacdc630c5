import Riscy.RISCVInst

/-! `Decoder::decodeNext`. The word is taken apart with the shifts and masks of the
source, on 32-bit and 64-bit vectors. -/
namespace Riscy.RISCV

/-- A reader yields the 32-bit word at an address, or nothing where it is unmapped. -/
abbrev MemoryReader := BitVec 64 → Option (BitVec 32)

/-- `DecodeError::None` is the success case of `Except`. -/
inductive DecodeError
  | MisalignedPC
  | OOBRead
  | InvalidOpcode
  deriving DecidableEq, Repr

def rd (x : BitVec 32) : ℕ := ((x >>> 7) &&& 0x1F).toNat
def funct3 (x : BitVec 32) : ℕ := ((x >>> 12) &&& 0x7).toNat
def rs1 (x : BitVec 32) : ℕ := ((x >>> 15) &&& 0x1F).toNat
def rs2 (x : BitVec 32) : ℕ := ((x >>> 20) &&& 0x1F).toNat
def funct7 (x : BitVec 32) : ℕ := ((x >>> 25) &&& 0x7F).toNat

def getBits (x : BitVec 32) (hi lo : ℕ) : BitVec 32 :=
  let mask : BitVec 32 :=
    if hi = 31 ∧ lo = 0 then 0xFFFFFFFF else ((1#32 <<< (hi - lo + 1)) - 1#32) <<< lo
  (x &&& mask) >>> lo

def sext (x : BitVec 64) (bits : ℕ) : BitVec 64 :=
  let m := 1#64 <<< (bits - 1)
  (x ^^^ m) - m

def uImm (insn : BitVec 32) : BitVec 64 := sext ((insn &&& 0xFFFFF000).setWidth 64) 32

def iImm (insn : BitVec 32) : BitVec 64 := sext (((insn >>> 20) &&& 0xFFF).setWidth 64) 12

def sImm (insn : BitVec 32) : BitVec 64 :=
  let imm := (getBits insn 31 25 <<< 5) ||| getBits insn 11 7
  sext (imm.signExtend 64) 12

def bImm (insn : BitVec 32) : BitVec 64 :=
  let imm := (getBits insn 31 31 <<< 12) ||| (getBits insn 7 7 <<< 11) |||
    (getBits insn 30 25 <<< 5) ||| (getBits insn 11 8 <<< 1)
  sext (imm.signExtend 64) 13

def jImm (insn : BitVec 32) : BitVec 64 :=
  let imm := (getBits insn 31 31 <<< 20) ||| (getBits insn 19 12 <<< 12) |||
    (getBits insn 20 20 <<< 11) ||| (getBits insn 30 21 <<< 1)
  sext (imm.signExtend 64) 21

/-- Six-bit and five-bit shift amounts of OP-IMM and OP-IMM-32. -/
def shamt6 (insn : BitVec 32) : BitVec 64 := (getBits insn 25 20).setWidth 64
def shamt5 (insn : BitVec 32) : BitVec 64 := (getBits insn 24 20).setWidth 64

def branchOpcode : ℕ → Option Opcode
  | 0x0 => some .BEQ
  | 0x1 => some .BNE
  | 0x4 => some .BLT
  | 0x5 => some .BGE
  | 0x6 => some .BLTU
  | 0x7 => some .BGEU
  | _ => none

def loadOpcode : ℕ → Option Opcode
  | 0x0 => some .LB
  | 0x1 => some .LH
  | 0x2 => some .LW
  | 0x3 => some .LD
  | 0x4 => some .LBU
  | 0x5 => some .LHU
  | 0x6 => some .LWU
  | _ => none

def storeOpcode : ℕ → Option Opcode
  | 0x0 => some .SB
  | 0x1 => some .SH
  | 0x2 => some .SW
  | 0x3 => some .SD
  | _ => none

/-- OP-IMM: opcode and third operand. Only the right shifts look at `funct7`. -/
def opImm (insn : BitVec 32) : ℕ → Option (Opcode × BitVec 64)
  | 0x0 => some (.ADDI, iImm insn)
  | 0x2 => some (.SLTI, iImm insn)
  | 0x3 => some (.SLTIU, iImm insn)
  | 0x4 => some (.XORI, iImm insn)
  | 0x6 => some (.ORI, iImm insn)
  | 0x7 => some (.ANDI, iImm insn)
  | 0x1 => some (.SLLI, shamt6 insn)
  | 0x5 =>
    if funct7 insn = 0x00 then some (.SRLI, shamt6 insn)
    else if funct7 insn = 0x20 then some (.SRAI, shamt6 insn)
    else none
  | _ => none

/-- OP-IMM-32: opcode and third operand. -/
def opImm32 (insn : BitVec 32) : ℕ → Option (Opcode × BitVec 64)
  | 0x0 => some (.ADDIW, iImm insn)
  | 0x1 => if funct7 insn = 0x00 then some (.SLLIW, shamt5 insn) else none
  | 0x5 =>
    if funct7 insn = 0x00 then some (.SRLIW, shamt5 insn)
    else if funct7 insn = 0x20 then some (.SRAIW, shamt5 insn)
    else none
  | _ => none

/-- OP: `funct7` only separates SUB from ADD and SRA from SRL. -/
def opReg (f7 : ℕ) : ℕ → Option Opcode
  | 0x0 => some (if f7 = 0x20 then .SUB else .ADD)
  | 0x1 => some .SLL
  | 0x2 => some .SLT
  | 0x3 => some .SLTU
  | 0x4 => some .XOR
  | 0x5 => some (if f7 = 0x20 then .SRA else .SRL)
  | 0x6 => some .OR
  | 0x7 => some .AND
  | _ => none

def opReg32 (f7 : ℕ) : ℕ → Option Opcode
  | 0x0 => some (if f7 = 0x20 then .SUBW else .ADDW)
  | 0x1 => some .SLLW
  | 0x5 => some (if f7 = 0x20 then .SRAW else .SRLW)
  | _ => none

def system (insn : BitVec 32) : Option Opcode :=
  if funct3 insn = 0 then
    if getBits insn 31 20 = 0 then some .ECALL
    else if getBits insn 31 20 = 1 then some .EBREAK
    else none
  else none

/-- The switch of `decodeNext` over the major opcode: opcode and operand list. -/
def decodeFields (insn : BitVec 32) : Option (Opcode × List Operand) :=
  match (insn &&& 0x7F).toNat with
  | 0x37 => some (.LUI, [.reg (rd insn), .imm (uImm insn)])
  | 0x17 => some (.AUIPC, [.reg (rd insn), .imm (uImm insn)])
  | 0x6F => some (.JAL, [.reg (rd insn), .imm (jImm insn)])
  | 0x67 => some (.JALR, [.reg (rd insn), .mem (rs1 insn) (iImm insn)])
  | 0x63 => (branchOpcode (funct3 insn)).map fun op =>
      (op, [.reg (rs1 insn), .reg (rs2 insn), .imm (bImm insn)])
  | 0x03 => (loadOpcode (funct3 insn)).map fun op =>
      (op, [.reg (rd insn), .mem (rs1 insn) (iImm insn)])
  | 0x23 => (storeOpcode (funct3 insn)).map fun op =>
      (op, [.mem (rs1 insn) (sImm insn), .reg (rs2 insn)])
  | 0x13 => (opImm insn (funct3 insn)).map fun p =>
      (p.1, [.reg (rd insn), .reg (rs1 insn), .imm p.2])
  | 0x1B => (opImm32 insn (funct3 insn)).map fun p =>
      (p.1, [.reg (rd insn), .reg (rs1 insn), .imm p.2])
  | 0x33 => (opReg (funct7 insn) (funct3 insn)).map fun op =>
      (op, [.reg (rd insn), .reg (rs1 insn), .reg (rs2 insn)])
  | 0x3B => (opReg32 (funct7 insn) (funct3 insn)).map fun op =>
      (op, [.reg (rd insn), .reg (rs1 insn), .reg (rs2 insn)])
  | 0x0F => some (.FENCE, [])
  | 0x73 => (system insn).map fun op => (op, [])
  | _ => none

def decodeNext (mem : MemoryReader) (pc : BitVec 64) : Except DecodeError DecodedInst :=
  if pc &&& 0x3 ≠ 0 then .error .MisalignedPC
  else match mem pc with
    | none => .error .OOBRead
    | some insn => match decodeFields insn with
      | none => .error .InvalidOpcode
      | some (op, operands) => .ok ⟨pc, insn, op, operands⟩

theorem decodeNext_ok {mem : MemoryReader} {pc : BitVec 64} {inst : DecodedInst}
    (h : decodeNext mem pc = .ok inst) :
    pc &&& 0x3 = 0 ∧ inst.pc = pc ∧ mem pc = some inst.raw ∧
      decodeFields inst.raw = some (inst.opcode, inst.operands) := by
  unfold decodeNext at h
  split at h
  · cases h
  next ha =>
    split at h
    · cases h
    next insn hm =>
      split at h
      · cases h
      next op operands hd =>
        cases h
        exact ⟨not_not.mp ha, rfl, hm, hd⟩

private theorem and_toNat_lt (x : BitVec 32) {m : ℕ} (hm : m < 2 ^ 32) :
    (x &&& BitVec.ofNat 32 m).toNat < m + 1 := by
  have h := Nat.and_le_right (n := x.toNat) (m := m)
  rw [BitVec.toNat_and, BitVec.toNat_ofNat, Nat.mod_eq_of_lt hm]
  omega

theorem rd_lt (x : BitVec 32) : rd x < 32 := and_toNat_lt (x >>> 7) (m := 31) (by decide)
theorem rs1_lt (x : BitVec 32) : rs1 x < 32 := and_toNat_lt (x >>> 15) (m := 31) (by decide)
theorem rs2_lt (x : BitVec 32) : rs2 x < 32 := and_toNat_lt (x >>> 20) (m := 31) (by decide)

theorem branchOpcode_mem {f : ℕ} {op : Opcode} (h : branchOpcode f = some op) :
    op ∈ [Opcode.BEQ, .BNE, .BLT, .BGE, .BLTU, .BGEU] := by
  unfold branchOpcode at h
  split at h <;> cases h <;> simp

theorem loadOpcode_mem {f : ℕ} {op : Opcode} (h : loadOpcode f = some op) :
    op ∈ [Opcode.LB, .LH, .LW, .LD, .LBU, .LHU, .LWU] := by
  unfold loadOpcode at h
  split at h <;> cases h <;> simp

theorem storeOpcode_mem {f : ℕ} {op : Opcode} (h : storeOpcode f = some op) :
    op ∈ [Opcode.SB, .SH, .SW, .SD] := by
  unfold storeOpcode at h
  split at h <;> cases h <;> simp

theorem opImm_mem {insn : BitVec 32} {f : ℕ} {p : Opcode × BitVec 64}
    (h : opImm insn f = some p) :
    p.1 ∈ [Opcode.ADDI, .SLTI, .SLTIU, .XORI, .ORI, .ANDI, .SLLI, .SRLI, .SRAI] := by
  unfold opImm at h
  split at h <;> (try split_ifs at h) <;> cases h <;> simp

theorem opImm32_mem {insn : BitVec 32} {f : ℕ} {p : Opcode × BitVec 64}
    (h : opImm32 insn f = some p) : p.1 ∈ [Opcode.ADDIW, .SLLIW, .SRLIW, .SRAIW] := by
  unfold opImm32 at h
  split at h <;> (try split_ifs at h) <;> cases h <;> simp

theorem opReg_mem {f7 f : ℕ} {op : Opcode} (h : opReg f7 f = some op) :
    op ∈ [Opcode.ADD, .SUB, .SLL, .SLT, .SLTU, .XOR, .SRL, .SRA, .OR, .AND] := by
  unfold opReg at h
  split at h <;> cases h <;> (try split_ifs) <;> simp

theorem opReg32_mem {f7 f : ℕ} {op : Opcode} (h : opReg32 f7 f = some op) :
    op ∈ [Opcode.ADDW, .SUBW, .SLLW, .SRLW, .SRAW] := by
  unfold opReg32 at h
  split at h <;> cases h <;> (try split_ifs) <;> simp

theorem system_mem {insn : BitVec 32} {op : Opcode} (h : system insn = some op) :
    op ∈ [Opcode.ECALL, .EBREAK] := by
  unfold system at h
  split_ifs at h <;> cases h <;> simp

/-- Whatever the decoder accepts has the operand list of its opcode. -/
theorem decodeFields_shaped {insn : BitVec 32} {op : Opcode} {operands : List Operand}
    (pc : BitVec 64) (h : decodeFields insn = some (op, operands)) :
    Shaped ⟨pc, insn, op, operands⟩ := by
  have hrd := rd_lt insn
  have hrs1 := rs1_lt insn
  have hrs2 := rs2_lt insn
  unfold decodeFields at h
  split at h
  case h_1 | h_2 | h_3 => cases h; exact .regImm _ _ _ _ _ (by simp) hrd
  case h_4 => cases h; exact .regMem _ _ _ _ _ _ (by simp) hrd hrs1
  case h_5 =>
    obtain ⟨o, ho, he⟩ := Option.map_eq_some_iff.mp h
    cases he
    have hm := branchOpcode_mem ho
    exact .regRegImm _ _ _ _ _ _ (by simp only [List.mem_cons] at hm ⊢; tauto) hrs1 hrs2
  case h_6 =>
    obtain ⟨o, ho, he⟩ := Option.map_eq_some_iff.mp h
    cases he
    have hm := loadOpcode_mem ho
    exact .regMem _ _ _ _ _ _ (by simp only [List.mem_cons] at hm ⊢; tauto) hrd hrs1
  case h_7 =>
    obtain ⟨o, ho, he⟩ := Option.map_eq_some_iff.mp h
    cases he
    exact .memReg _ _ _ _ _ _ (storeOpcode_mem ho) hrs1 hrs2
  case h_8 =>
    obtain ⟨o, ho, he⟩ := Option.map_eq_some_iff.mp h
    cases he
    have hm := opImm_mem ho
    exact .regRegImm _ _ _ _ _ _ (by simp only [List.mem_cons] at hm ⊢; tauto) hrd hrs1
  case h_9 =>
    obtain ⟨o, ho, he⟩ := Option.map_eq_some_iff.mp h
    cases he
    have hm := opImm32_mem ho
    exact .regRegImm _ _ _ _ _ _ (by simp only [List.mem_cons] at hm ⊢; tauto) hrd hrs1
  case h_10 =>
    obtain ⟨o, ho, he⟩ := Option.map_eq_some_iff.mp h
    cases he
    have hm := opReg_mem ho
    exact .regRegReg _ _ _ _ _ _ (by simp only [List.mem_cons] at hm ⊢; tauto) hrd hrs1 hrs2
  case h_11 =>
    obtain ⟨o, ho, he⟩ := Option.map_eq_some_iff.mp h
    cases he
    have hm := opReg32_mem ho
    exact .regRegReg _ _ _ _ _ _ (by simp only [List.mem_cons] at hm ⊢; tauto) hrd hrs1 hrs2
  case h_12 => cases h; exact .bare _ _ _ (by simp)
  case h_13 =>
    obtain ⟨o, ho, he⟩ := Option.map_eq_some_iff.mp h
    cases he
    have hm := system_mem ho
    exact .bare _ _ _ (by simp only [List.mem_cons] at hm ⊢; tauto)
  case h_14 => cases h

theorem decodeNext_shaped {mem : MemoryReader} {pc : BitVec 64} {inst : DecodedInst}
    (h : decodeNext mem pc = .ok inst) : Shaped inst :=
  decodeFields_shaped inst.pc (decodeNext_ok h).2.2.2

end Riscy.RISCV
