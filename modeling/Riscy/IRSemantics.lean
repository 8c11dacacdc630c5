import Riscy.ByteMemory
import Riscy.IRBlock

/-! Interpretation of a block. Values carry their type, shift counts are taken modulo
the width, and an ill-typed operation has no result. -/
namespace Riscy.IR
open ByteMemory

@[reducible] def TypeKind.width : TypeKind → ℕ
  | .I1 => 1
  | .I8 => 8
  | .I16 => 16
  | .I32 => 32
  | .I64 => 64

def TypeKind.bytes (ty : TypeKind) : ℕ := (ty.width + 7) / 8

structure Val where
  ty : TypeKind
  bits : BitVec ty.width

def evalBin {w : ℕ} (k : BinOpKind) (a b : BitVec w) : BitVec w :=
  match k with
  | .Add => a + b
  | .Sub => a - b
  | .And => a &&& b
  | .Or => a ||| b
  | .Xor => a ^^^ b
  | .Shl => a <<< (b.toNat % w)
  | .LShr => a >>> (b.toNat % w)
  | .AShr => a.sshiftRight (b.toNat % w)

def evalCmp {w : ℕ} (c : ICmpCond) (a b : BitVec w) : Bool :=
  match c with
  | .EQ => a = b
  | .NE => a ≠ b
  | .ULT => a.ult b
  | .ULE => a.ule b
  | .UGT => b.ult a
  | .UGE => b.ule a
  | .SLT => a.slt b
  | .SLE => a.sle b
  | .SGT => b.slt a
  | .SGE => b.sle a

def Val.bitsAs (v : Val) (ty : TypeKind) : Option (BitVec ty.width) :=
  if h : v.ty = ty then some (v.bits.cast (congrArg TypeKind.width h)) else none

@[simp] theorem Val.bitsAs_mk (ty : TypeKind) (x : BitVec ty.width) :
    Val.bitsAs ⟨ty, x⟩ ty = some x := by
  simp [Val.bitsAs]

structure State where
  regs : ℕ → BitVec 64
  mem : Memory 64
  env : ValueId → Option Val

def State.get (s : State) (ty : TypeKind) (v : ValueId) : Option (BitVec ty.width) :=
  (s.env v).bind fun x => x.bitsAs ty

def State.define (s : State) (dest : Option ValueId) (v : Val) : State :=
  match dest with
  | none => s
  | some d => { s with env := Function.update s.env d (some v) }

/-- Result of a payload that produces a value. -/
def eval (start : BitVec 64) (s : State) : Payload → Option Val
  | .Const ty v => some ⟨ty, v.setWidth _⟩
  | .ReadReg r => some ⟨.I64, s.regs r⟩
  | .BinOp k l r ty => do
    let a ← s.get ty l
    let b ← s.get ty r
    return ⟨ty, evalBin k a b⟩
  | .ICmp c l r => do
    let a ← s.env l
    let b ← s.get a.ty r
    return ⟨.I1, BitVec.ofBool (evalCmp c a.bits b)⟩
  | .ZExt src dst => do
    let a ← s.env src
    if a.ty.width < dst.width then return ⟨dst, a.bits.setWidth _⟩ else none
  | .SExt src dst => do
    let a ← s.env src
    if a.ty.width < dst.width then return ⟨dst, a.bits.signExtend _⟩ else none
  | .Trunc src dst => do
    let a ← s.env src
    if dst.width < a.ty.width then return ⟨dst, a.bits.setWidth _⟩ else none
  | .Load b off ty => do
    let a ← s.get .I64 b
    return ⟨ty, BitVec.ofNat _ (read s.mem (a + off) ty.bytes)⟩
  | .GetPC => some ⟨.I64, start⟩
  | .WriteReg .. => none
  | .Store .. => none

def exec (start : BitVec 64) (s : State) (i : Instr) : Option State :=
  match i.payload with
  | .WriteReg r v => do
    let x ← s.get .I64 v
    return { s with regs := Function.update s.regs r x }
  | .Store v b off ty => do
    let a ← s.get .I64 b
    let x ← s.env v
    if ty.width ≤ x.ty.width then
      return { s with mem := write s.mem (a + off) x.bits.toNat ty.bytes }
    else none
  | p => (eval start s p).map (s.define i.dest)

def run (start : BitVec 64) (insts : List Instr) (s : State) : Option State :=
  insts.foldlM (exec start) s

@[simp] theorem run_nil (start : BitVec 64) (s : State) : run start [] s = some s := rfl

@[simp] theorem run_cons (start : BitVec 64) (i : Instr) (is : List Instr) (s : State) :
    run start (i :: is) s = (exec start s i).bind (run start is) := rfl

theorem run_append (start : BitVec 64) (is js : List Instr) (s : State) :
    run start (is ++ js) s = (run start is s).bind (run start js) :=
  List.foldlM_append

/-- Where a terminator sends control; a condition is any nonzero value. -/
inductive Exit
  | goto (target : BitVec 64)
  | indirect (target : BitVec 64)
  | ret
  | trap
  deriving DecidableEq

def exitOf (t : Terminator) (s : State) : Option Exit :=
  match t.kind, t.data with
  | .Br, .br target => some (.goto target)
  | .CBr, .cbr cond t f => (s.env cond).map fun c => .goto (if c.bits = 0 then f else t)
  | .BrIndirect, .brIndirect target => (s.get .I64 target).map .indirect
  | .Ret, _ => some .ret
  | .Trap, _ => some .trap
  | _, _ => none

def Block.run (b : Block) (regs : ℕ → BitVec 64) (mem : Memory 64) : Option (State × Exit) := do
  let s ← IR.run b.start b.insts ⟨regs, mem, fun _ => none⟩
  let e ← exitOf b.term s
  return (s, e)

end Riscy.IR
