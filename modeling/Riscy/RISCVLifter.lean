import Riscy.IRBlock
import Riscy.RISCVCFG

/-! `Lifter::lift`. Lowering appends to the block under construction; a value is named
by the length of the block at the time, as a 32-bit number. -/
namespace Riscy.RISCV
open IR (ValueId TypeKind BinOpKind ICmpCond)

/-- Lowering in progress: the instructions emitted so far. -/
abbrev LiftM := StateT (List IR.Instr) (Except Fault)

def isX0 (r : ℕ) : Bool := r = 0

def nextId : LiftM ValueId := do return (← get).length % 2 ^ 32

def pushBack (i : IR.Instr) : LiftM Unit := modify (· ++ [i])

/-- Append a value-producing instruction under the next number. -/
def produce (p : IR.Payload) : LiftM ValueId := do
  let id ← nextId
  pushBack ⟨some id, p⟩
  return id

def readReg (r : ℕ) : LiftM ValueId := produce (.ReadReg r)

def writeReg (r : ℕ) (v : ValueId) : LiftM Unit :=
  if isX0 r then pure () else pushBack ⟨none, .WriteReg r v⟩

def imm (ty : TypeKind) (v : BitVec 64) : LiftM ValueId := produce (.Const ty v)

def bin (k : BinOpKind) (ty : TypeKind) (a b : ValueId) : LiftM ValueId :=
  produce (.BinOp k a b ty)

def icmp (c : ICmpCond) (a b : ValueId) : LiftM ValueId := produce (.ICmp c a b)

def load (ty : TypeKind) (base : ValueId) (off : BitVec 64) : LiftM ValueId :=
  produce (.Load base off ty)

def store (ty : TypeKind) (v base : ValueId) (off : BitVec 64) : LiftM Unit :=
  pushBack ⟨none, .Store v base off ty⟩

def getpc : LiftM ValueId := produce .GetPC

/-- Truncate to 32 bits and sign-extend again, as ADDIW and ADDW do. -/
def signExtendWord (v : ValueId) : LiftM ValueId := do
  let t32 ← produce (.Trunc v .I32)
  produce (.SExt t32 .I64)

def regOperand (inst : DecodedInst) (i : ℕ) : LiftM ℕ := do
  return ← getReg (← inst.operand i)

def immOperand (inst : DecodedInst) (i : ℕ) : LiftM (BitVec 64) := do
  return ← getImm (← inst.operand i)

def memOperand (inst : DecodedInst) (i : ℕ) : LiftM (ℕ × BitVec 64) := do
  return ← getMem (← inst.operand i)

def liftBinImm (k : BinOpKind) (inst : DecodedInst) : LiftM Unit := do
  let rd ← regOperand inst 0
  let rs1 ← regOperand inst 1
  let immv ← immOperand inst 2
  let v1 ← readReg rs1
  let c ← imm .I64 immv
  let r ← bin k .I64 v1 c
  writeReg rd r

def liftBinReg (k : BinOpKind) (inst : DecodedInst) : LiftM Unit := do
  let rd ← regOperand inst 0
  let rs1 ← regOperand inst 1
  let rs2 ← regOperand inst 2
  let v1 ← readReg rs1
  let v2 ← readReg rs2
  let r ← bin k .I64 v1 v2
  writeReg rd r

def liftADDIW (inst : DecodedInst) : LiftM Unit := do
  let rd ← regOperand inst 0
  let rs1 ← regOperand inst 1
  let immv ← immOperand inst 2
  let v1 ← readReg rs1
  let c ← imm .I64 immv
  let sum64 ← bin .Add .I64 v1 c
  let t64 ← signExtendWord sum64
  writeReg rd t64

def liftADDW (inst : DecodedInst) : LiftM Unit := do
  let rd ← regOperand inst 0
  let rs1 ← regOperand inst 1
  let rs2 ← regOperand inst 2
  let v1 ← readReg rs1
  let v2 ← readReg rs2
  let sum64 ← bin .Add .I64 v1 v2
  let t64 ← signExtendWord sum64
  writeReg rd t64

/-- LW and LWU: `ext` is the extension to 64 bits. -/
def liftLoadWord (ext : ValueId → TypeKind → IR.Payload) (inst : DecodedInst) :
    LiftM Unit := do
  let rd ← regOperand inst 0
  let m ← memOperand inst 1
  let base ← readReg m.1
  let v32 ← load .I32 base m.2
  let id ← produce (ext v32 .I64)
  writeReg rd id

def liftLD (inst : DecodedInst) : LiftM Unit := do
  let rd ← regOperand inst 0
  let m ← memOperand inst 1
  let base ← readReg m.1
  let v ← load .I64 base m.2
  writeReg rd v

def liftStore (ty : TypeKind) (inst : DecodedInst) : LiftM Unit := do
  let m ← memOperand inst 0
  let rs ← regOperand inst 1
  let base ← readReg m.1
  let val ← readReg rs
  store ty val base m.2

def liftBranch (c : ICmpCond) (inst : DecodedInst) : LiftM Unit := do
  let rs1 ← regOperand inst 0
  let rs2 ← regOperand inst 1
  let v1 ← readReg rs1
  let v2 ← readReg rs2
  let _ ← icmp c v1 v2

def liftAUIPC (inst : DecodedInst) : LiftM Unit := do
  let rd ← regOperand inst 0
  let immv ← immOperand inst 1
  let pcv ← getpc
  let c ← imm .I64 immv
  let sum ← bin .Add .I64 pcv c
  writeReg rd sum

def liftJAL (inst : DecodedInst) : LiftM Unit := do
  let rd ← regOperand inst 0
  let ra ← imm .I64 (inst.pc + 4)
  writeReg rd ra

def liftJALR (inst : DecodedInst) : LiftM Unit := do
  let rd ← regOperand inst 0
  let m ← memOperand inst 1
  let base ← readReg m.1
  let off ← imm .I64 m.2
  let tgt ← bin .Add .I64 base off
  let ones ← imm .I64 (~~~1)
  let _ ← bin .And .I64 tgt ones
  let ra ← imm .I64 (inst.pc + 4)
  writeReg rd ra

/-- The opcode switch. What is not listed falls into `default` and emits nothing. -/
def liftInst (inst : DecodedInst) : LiftM Unit :=
  match inst.opcode with
  | .ADDI => liftBinImm .Add inst
  | .ADDIW => liftADDIW inst
  | .ADD => liftBinReg .Add inst
  | .ADDW => liftADDW inst
  | .SUB => liftBinReg .Sub inst
  | .AND => liftBinReg .And inst
  | .OR => liftBinReg .Or inst
  | .XOR => liftBinReg .Xor inst
  | .ANDI => liftBinImm .And inst
  | .ORI => liftBinImm .Or inst
  | .XORI => liftBinImm .Xor inst
  | .SLLI => liftBinImm .Shl inst
  | .SRLI => liftBinImm .LShr inst
  | .SRAI => liftBinImm .AShr inst
  | .SLL => liftBinReg .Shl inst
  | .SRL => liftBinReg .LShr inst
  | .SRA => liftBinReg .AShr inst
  | .LW => liftLoadWord .SExt inst
  | .LWU => liftLoadWord .ZExt inst
  | .LD => liftLD inst
  | .SW => liftStore .I32 inst
  | .SD => liftStore .I64 inst
  | .BEQ => liftBranch .EQ inst
  | .BNE => liftBranch .NE inst
  | .BLT => liftBranch .SLT inst
  | .BGE => liftBranch .SGE inst
  | .BLTU => liftBranch .ULT inst
  | .BGEU => liftBranch .UGE inst
  | .AUIPC => liftAUIPC inst
  | .JAL => liftJAL inst
  | .JALR => liftJALR inst
  | .ECALL | .EBREAK => pure ()
  | _ => pure ()

def liftInsts (insts : List DecodedInst) : LiftM Unit := insts.forM liftInst

def isICmp : IR.Payload → Bool
  | .ICmp .. => true
  | _ => false

/-- The search for the branch condition. It runs down from `static_cast<int>(size) - 1`,
so it sees only as many instructions as the size has as a signed 32-bit number. -/
def branchCond (insts : List IR.Instr) : ValueId :=
  let size : ℤ := (BitVec.ofNat 32 insts.length).toInt
  let found := (insts.take size.toNat).reverse.find? fun i => i.dest.isSome && isICmp i.payload
  (found.bind IR.Instr.dest).getD 0

/-- The last instruction's value, or value 0 if it has none. -/
def indirectTarget (insts : List IR.Instr) : ValueId :=
  (insts.getLast?.bind IR.Instr.dest).getD 0

def liftTerm (bb : BasicBlock) (insts : List IR.Instr) : IR.Terminator :=
  match bb.term with
  | .Branch => ⟨.CBr, .cbr (branchCond insts) (bb.succs[0]?.getD 0) (bb.succs[1]?.getD 0)⟩
  | .Jump => ⟨.Br, .br (bb.succs[0]?.getD 0)⟩
  | .IndirectJump => ⟨.BrIndirect, .brIndirect (indirectTarget insts)⟩
  | .Return => ⟨.Ret, .monostate⟩
  | .Trap => ⟨.Trap, .monostate⟩
  | .Fallthrough | .None => ⟨.Br, .br (bb.succs[0]?.getD 0)⟩

def lift (bb : BasicBlock) : Except Fault IR.Block := do
  let (_, insts) ← (liftInsts bb.insts).run []
  return ⟨bb.start, insts, liftTerm bb insts⟩

end Riscy.RISCV
