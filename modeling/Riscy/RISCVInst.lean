import Mathlib

/-! Decoded RISC-V instructions. Every operand access of the passes goes through
`getReg`, `getImm`, `getMem` and `operand`, so a wrong variant or a missing operand
is an explicit fault of the translator and never a default value. -/
namespace Riscy

/-- Internal errors of the translator: `std::get` on another alternative, an operand
that is not there, and the two calls of `abort()`. -/
inductive Fault
  | badVariantAccess
  | operandOutOfRange
  | abort
  deriving DecidableEq, Repr

end Riscy

namespace Riscy.RISCV

inductive Opcode
  | LUI | AUIPC | JAL | JALR
  | BEQ | BNE | BLT | BGE | BLTU | BGEU
  | LB | LH | LW | LD | LBU | LHU | LWU
  | SB | SH | SW | SD
  | ADDI | SLTI | SLTIU | XORI | ORI | ANDI | SLLI | SRLI | SRAI
  | ADD | SUB | SLL | SLT | SLTU | XOR | SRL | SRA | OR | AND
  | ADDIW | SLLIW | SRLIW | SRAIW
  | ADDW | SUBW | SLLW | SRLW | SRAW
  | FENCE | ECALL | EBREAK
  | UNKNOWN
  deriving DecidableEq, Repr

/-- The variant of `Reg`, `Imm` and `Mem`; 64-bit immediates are two's complement. -/
inductive Operand
  | reg (index : ℕ)
  | imm (value : BitVec 64)
  | mem (base : ℕ) (offset : BitVec 64)
  deriving DecidableEq, Repr

structure DecodedInst where
  pc : BitVec 64
  raw : BitVec 32
  opcode : Opcode
  operands : List Operand
  deriving DecidableEq, Repr

def getReg : Operand → Except Fault ℕ
  | .reg r => .ok r
  | _ => .error .badVariantAccess

def getImm : Operand → Except Fault (BitVec 64)
  | .imm v => .ok v
  | _ => .error .badVariantAccess

def getMem : Operand → Except Fault (ℕ × BitVec 64)
  | .mem b off => .ok (b, off)
  | _ => .error .badVariantAccess

def DecodedInst.operand (inst : DecodedInst) (i : ℕ) : Except Fault Operand :=
  match inst.operands[i]? with
  | some op => .ok op
  | none => .error .operandOutOfRange

/-- The operand lists that the decoder builds, one constructor for each shape. -/
inductive Shaped : DecodedInst → Prop
  | regImm (pc raw op) (rd : ℕ) (i : BitVec 64)
      (hop : op ∈ [Opcode.LUI, .AUIPC, .JAL]) (hrd : rd < 32) :
      Shaped ⟨pc, raw, op, [.reg rd, .imm i]⟩
  | regMem (pc raw op) (rd base : ℕ) (off : BitVec 64)
      (hop : op ∈ [Opcode.JALR, .LB, .LH, .LW, .LD, .LBU, .LHU, .LWU])
      (hrd : rd < 32) (hbase : base < 32) :
      Shaped ⟨pc, raw, op, [.reg rd, .mem base off]⟩
  | memReg (pc raw op) (base rs : ℕ) (off : BitVec 64)
      (hop : op ∈ [Opcode.SB, .SH, .SW, .SD]) (hbase : base < 32) (hrs : rs < 32) :
      Shaped ⟨pc, raw, op, [.mem base off, .reg rs]⟩
  | regRegImm (pc raw op) (r s : ℕ) (i : BitVec 64)
      (hop : op ∈ [Opcode.BEQ, .BNE, .BLT, .BGE, .BLTU, .BGEU, .ADDI, .SLTI, .SLTIU,
        .XORI, .ORI, .ANDI, .SLLI, .SRLI, .SRAI, .ADDIW, .SLLIW, .SRLIW, .SRAIW])
      (hr : r < 32) (hs : s < 32) :
      Shaped ⟨pc, raw, op, [.reg r, .reg s, .imm i]⟩
  | regRegReg (pc raw op) (rd rs1 rs2 : ℕ)
      (hop : op ∈ [Opcode.ADD, .SUB, .SLL, .SLT, .SLTU, .XOR, .SRL, .SRA, .OR, .AND,
        .ADDW, .SUBW, .SLLW, .SRLW, .SRAW])
      (hrd : rd < 32) (hrs1 : rs1 < 32) (hrs2 : rs2 < 32) :
      Shaped ⟨pc, raw, op, [.reg rd, .reg rs1, .reg rs2]⟩
  | bare (pc raw op) (hop : op ∈ [Opcode.FENCE, .ECALL, .EBREAK]) :
      Shaped ⟨pc, raw, op, []⟩

end Riscy.RISCV
