import Riscy.ByteMemory
import Riscy.RISCVDecoder

/-! The RV64I reference machine: registers with `x0` fixed at zero, a byte memory and a
program counter. Instructions are fetched from the immutable reader. -/
namespace Riscy.RISCV
open ByteMemory

structure RegFile where
  x : ℕ → BitVec 64
  zero : x 0 = 0

def RegFile.set (f : RegFile) (r : ℕ) (v : BitVec 64) : RegFile :=
  if h : r = 0 then f
  else ⟨Function.update f.x r v, by rw [Function.update_of_ne (Ne.symm h)]; exact f.zero⟩

theorem RegFile.set_x (f : RegFile) (r : ℕ) (v : BitVec 64) :
    (f.set r v).x = if r = 0 then f.x else Function.update f.x r v := by
  unfold RegFile.set
  split_ifs <;> rfl

structure Machine where
  pc : BitVec 64
  regs : RegFile
  mem : Memory 64

/-- A 32-bit result of the word instructions, sign-extended. -/
def word (v : BitVec 32) : BitVec 64 := v.signExtend 64

def low (a : BitVec 64) : BitVec 32 := a.setWidth 32

/-- Register and immediate forms of an operation are the same function. -/
def alu : Opcode → Option (BitVec 64 → BitVec 64 → BitVec 64)
  | .ADD | .ADDI => some fun a b => a + b
  | .SUB => some fun a b => a - b
  | .SLL | .SLLI => some fun a b => a <<< (b.toNat % 64)
  | .SLT | .SLTI => some fun a b => if a.slt b then 1 else 0
  | .SLTU | .SLTIU => some fun a b => if a.ult b then 1 else 0
  | .XOR | .XORI => some fun a b => a ^^^ b
  | .SRL | .SRLI => some fun a b => a >>> (b.toNat % 64)
  | .SRA | .SRAI => some fun a b => a.sshiftRight (b.toNat % 64)
  | .OR | .ORI => some fun a b => a ||| b
  | .AND | .ANDI => some fun a b => a &&& b
  | .ADDW | .ADDIW => some fun a b => word (low a + low b)
  | .SUBW => some fun a b => word (low a - low b)
  | .SLLW | .SLLIW => some fun a b => word (low a <<< (b.toNat % 32))
  | .SRLW | .SRLIW => some fun a b => word (low a >>> (b.toNat % 32))
  | .SRAW | .SRAIW => some fun a b => word ((low a).sshiftRight (b.toNat % 32))
  | _ => none

def branchTaken : Opcode → Option (BitVec 64 → BitVec 64 → Bool)
  | .BEQ => some fun a b => a = b
  | .BNE => some fun a b => a ≠ b
  | .BLT => some fun a b => a.slt b
  | .BGE => some fun a b => b.sle a
  | .BLTU => some fun a b => a.ult b
  | .BGEU => some fun a b => b.ule a
  | _ => none

def loaded (m : Memory 64) (a : BitVec 64) : Opcode → Option (BitVec 64)
  | .LB => some ((BitVec.ofNat 8 (read m a 1)).signExtend 64)
  | .LH => some ((BitVec.ofNat 16 (read m a 2)).signExtend 64)
  | .LW => some ((BitVec.ofNat 32 (read m a 4)).signExtend 64)
  | .LD => some (BitVec.ofNat 64 (read m a 8))
  | .LBU => some (BitVec.ofNat 64 (read m a 1))
  | .LHU => some (BitVec.ofNat 64 (read m a 2))
  | .LWU => some (BitVec.ofNat 64 (read m a 4))
  | _ => none

def storeBytes : Opcode → Option ℕ
  | .SB => some 1
  | .SH => some 2
  | .SW => some 4
  | .SD => some 8
  | _ => none

/-- Go on with the next instruction after writing `rd`. -/
def Machine.put (m : Machine) (rd : ℕ) (v : BitVec 64) : Machine :=
  ⟨m.pc + 4, m.regs.set rd v, m.mem⟩

/-- One instruction. ECALL and EBREAK leave the machine and have no successor. -/
def execute (inst : DecodedInst) (m : Machine) : Option Machine :=
  let x := m.regs.x
  match inst.operands with
  | [.reg rd, .imm i] =>
    match inst.opcode with
    | .LUI => some (m.put rd i)
    | .AUIPC => some (m.put rd (m.pc + i))
    | .JAL => some ⟨m.pc + i, m.regs.set rd (m.pc + 4), m.mem⟩
    | _ => none
  | [.reg rd, .mem base off] =>
    if inst.opcode = .JALR then
      some ⟨(x base + off) &&& ~~~1, m.regs.set rd (m.pc + 4), m.mem⟩
    else (loaded m.mem (x base + off) inst.opcode).map fun v => m.put rd v
  | [.mem base off, .reg rs] =>
    (storeBytes inst.opcode).map fun n =>
      ⟨m.pc + 4, m.regs, write m.mem (x base + off) (x rs).toNat n⟩
  | [.reg r, .reg s, .imm i] =>
    match branchTaken inst.opcode with
    | some taken => some ⟨if taken (x r) (x s) then m.pc + i else m.pc + 4, m.regs, m.mem⟩
    | none => (alu inst.opcode).map fun f => m.put r (f (x s) i)
  | [.reg rd, .reg rs1, .reg rs2] =>
    (alu inst.opcode).map fun f => m.put rd (f (x rs1) (x rs2))
  | [] => if inst.opcode = .FENCE then some ⟨m.pc + 4, m.regs, m.mem⟩ else none
  | _ => none

/-- Fetch and execute. -/
def step (reader : MemoryReader) (m : Machine) : Option Machine :=
  match decodeNext reader m.pc with
  | .error _ => none
  | .ok inst => execute inst m

end Riscy.RISCV
