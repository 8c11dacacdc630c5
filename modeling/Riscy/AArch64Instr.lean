import Riscy.RISCVInst

/-! AArch64 instructions over virtual registers, as instruction selection builds them.
Operands are read through accessors that fault on another alternative. -/
namespace Riscy.AArch64

/-- Virtual register, a 32-bit number. As the base of a memory operand, 0 is host `x0`. -/
abbrev VReg := ℕ

/-- Physical register `x0` to `x30`. -/
abbrev PReg := ℕ

inductive Op
  | Mov | MovZ | MovK
  | Add | Sub | And | Orr | Eor | Lsl | Lsr | Asr
  | LdrX | LdrW | LdrB | LdrH | LdrSW
  | StrX | StrW | StrB | StrH
  | Cmp
  | CsetEq | CsetNe | CsetLo | CsetLs | CsetHi | CsetHs | CsetLt | CsetLe | CsetGt | CsetGe
  | Sxtw | Uxtw
  | Bl | Br | B | Bne | Beq | Ret | Brk
  | Label
  deriving DecidableEq, Repr

inductive Operand
  | regV (id : VReg)
  | regP (id : PReg)
  | imm (value : BitVec 64)
  | mem (base : VReg) (offset : BitVec 32)
  | label (name : String)
  deriving DecidableEq, Repr

structure Instr where
  op : Op
  ops : List Operand
  deriving DecidableEq, Repr

inductive TermKind
  | None | Br | CBr | BrIndirect | Ret | Trap
  deriving DecidableEq, Repr

inductive TermData
  | monostate
  | br (target : String)
  | cbr (cond : VReg) (t f : String)
  | brIndirect (target : VReg)
  deriving DecidableEq, Repr

structure Terminator where
  kind : TermKind
  data : TermData
  deriving DecidableEq, Repr

structure Block where
  guestPc : BitVec 64
  instrs : List Instr
  term : Terminator
  deriving DecidableEq, Repr

def getRegV : Operand → Except Fault VReg
  | .regV v => .ok v
  | _ => .error .badVariantAccess

def getImm : Operand → Except Fault (BitVec 64)
  | .imm v => .ok v
  | _ => .error .badVariantAccess

def getMem : Operand → Except Fault (VReg × BitVec 32)
  | .mem b off => .ok (b, off)
  | _ => .error .badVariantAccess

def Instr.operand (i : Instr) (k : ℕ) : Except Fault Operand :=
  match i.ops[k]? with
  | some op => .ok op
  | none => .error .operandOutOfRange

/-- Hexadecimal digits of an address, as `std::hex` prints them. -/
def pcHex (pc : BitVec 64) : String := String.ofList (Nat.toDigits 16 pc.toNat)

def blockLabel (pc : BitVec 64) : String := "__riscy_block_0x" ++ pcHex pc

end Riscy.AArch64
