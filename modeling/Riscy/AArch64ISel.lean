import Riscy.AArch64Instr
import Riscy.IRBlock

/-! `ISel::select`. The map from values to virtual registers grows with every address
temporary, which takes the slot behind the last one. -/
namespace Riscy.AArch64
open IR (ValueId TypeKind BinOpKind ICmpCond)

structure SelState where
  vmap : List VReg
  instrs : List Instr

abbrev SelM := StateT SelState (Except Fault)

/-- `std::vector::resize` with zeros. -/
def resize (vmap : List VReg) (n : ℕ) : List VReg :=
  vmap.take n ++ List.replicate (n - vmap.length) 0

def vregOf (id : ValueId) : SelM VReg := do
  let s ← get
  let vmap := if id ≥ s.vmap.length then resize s.vmap ((id + 1) % 2 ^ 32) else s.vmap
  match vmap[id]? with
  | none => throw .operandOutOfRange
  | some v =>
    if v = 0 then
      set { s with vmap := vmap.set id ((id + 1) % 2 ^ 32) }
      return (id + 1) % 2 ^ 32
    else
      set { s with vmap := vmap }
      return v

def pushBack (i : Instr) : SelM Unit := modify fun s => { s with instrs := s.instrs ++ [i] }

/-- The address temporary of a load or store. -/
def newAddr : SelM VReg := do
  let s ← get
  let vaddr := (s.vmap.length + 1) % 2 ^ 32
  set { s with vmap := s.vmap ++ [vaddr] }
  return vaddr

def guestRegOffsetBytes (r : ℕ) : BitVec 32 := BitVec.ofNat 32 (r * 8)

def movK (v : VReg) (part : BitVec 64) (lsl : BitVec 64) : List Instr :=
  if part ≠ 0 then [⟨.MovK, [.regV v, .imm part, .imm lsl]⟩] else []

/-- Mov for 16 bits, else MovZ and a MovK for each nonzero part. -/
def constCode (v : VReg) (val : BitVec 64) : List Instr :=
  if val >>> 16 = 0 then [⟨.Mov, [.regV v, .imm val]⟩]
  else
    [⟨.MovZ, [.regV v, .imm (val &&& 0xffff)]⟩] ++ movK v ((val >>> 16) &&& 0xffff) 16 ++
      movK v ((val >>> 32) &&& 0xffff) 32 ++ movK v ((val >>> 48) &&& 0xffff) 48

def binOp : BinOpKind → Op
  | .Add => .Add
  | .Sub => .Sub
  | .And => .And
  | .Or => .Orr
  | .Xor => .Eor
  | .Shl => .Lsl
  | .LShr => .Lsr
  | .AShr => .Asr

def csetOp : ICmpCond → Op
  | .EQ => .CsetEq
  | .NE => .CsetNe
  | .ULT => .CsetLo
  | .ULE => .CsetLs
  | .UGT => .CsetHi
  | .UGE => .CsetHs
  | .SLT => .CsetLt
  | .SLE => .CsetLe
  | .SGT => .CsetGt
  | .SGE => .CsetGe

def loadOp : TypeKind → Op
  | .I64 => .LdrX
  | .I32 => .LdrW
  | .I16 => .LdrH
  | .I8 => .LdrB
  | .I1 => .LdrX

def storeOp : TypeKind → Op
  | .I64 => .StrX
  | .I32 => .StrW
  | .I16 => .StrH
  | .I8 => .StrB
  | .I1 => .StrX

/-- ZExt and SExt: `op` if the result is 64 bits wide, else a move. -/
def selectExt (op : Op) (d src : ValueId) (dst : TypeKind) : SelM Unit := do
  let vd ← vregOf d
  let ps ← vregOf src
  pushBack ⟨if dst = .I64 then op else .Mov, [.regV vd, .regV ps]⟩

def selectConst (d : ValueId) (val : BitVec 64) : SelM Unit := do
  let v ← vregOf d
  (constCode v val).forM pushBack

def selectReadReg (d : ValueId) (r : ℕ) : SelM Unit := do
  let v ← vregOf d
  pushBack ⟨.LdrX, [.regV v, .mem 0 (guestRegOffsetBytes r)]⟩

def selectWriteReg (r : ℕ) (value : ValueId) : SelM Unit := do
  let v ← vregOf value
  pushBack ⟨.StrX, [.regV v, .mem 0 (guestRegOffsetBytes r)]⟩

def selectBinOp (k : BinOpKind) (d lhs rhs : ValueId) : SelM Unit := do
  let vd ← vregOf d
  let vl ← vregOf lhs
  let vr ← vregOf rhs
  pushBack ⟨binOp k, [.regV vd, .regV vl, .regV vr]⟩

def selectICmp (c : ICmpCond) (dest : Option ValueId) (lhs rhs : ValueId) : SelM Unit := do
  let vl ← vregOf lhs
  let vr ← vregOf rhs
  pushBack ⟨.Cmp, [.regV vl, .regV vr]⟩
  match dest with
  | some d =>
    let vd ← vregOf d
    pushBack ⟨csetOp c, [.regV vd]⟩
  | none => pure ()

def selectTrunc (d src : ValueId) : SelM Unit := do
  let vd ← vregOf d
  let ps ← vregOf src
  pushBack ⟨.Mov, [.regV vd, .regV ps]⟩

def selectLoad (d base : ValueId) (off : BitVec 64) (ty : TypeKind) : SelM Unit := do
  let vd ← vregOf d
  let vbase ← vregOf base
  let vaddr ← newAddr
  pushBack ⟨.Add, [.regV vaddr, .regV vbase, .regP 21]⟩
  pushBack ⟨loadOp ty, [.regV vd, .mem vaddr (off.setWidth 32)]⟩

def selectStore (value base : ValueId) (off : BitVec 64) (ty : TypeKind) : SelM Unit := do
  let vbase ← vregOf base
  let vaddr ← newAddr
  pushBack ⟨.Add, [.regV vaddr, .regV vbase, .regP 21]⟩
  let v ← vregOf value
  pushBack ⟨storeOp ty, [.regV v, .mem vaddr (off.setWidth 32)]⟩

def selectGetPC (d : ValueId) (start : BitVec 64) : SelM Unit := do
  let vd ← vregOf d
  pushBack ⟨.Mov, [.regV vd, .imm start]⟩

/-- One instruction. A value that is not kept in a destination selects nothing. -/
def selectInst (start : BitVec 64) (i : IR.Instr) : SelM Unit :=
  match i.payload, i.dest with
  | .Const _ v, some d => selectConst d v
  | .ReadReg r, some d => selectReadReg d r
  | .WriteReg r v, _ => selectWriteReg r v
  | .BinOp k l r _, some d => selectBinOp k d l r
  | .ICmp c l r, dest => selectICmp c dest l r
  | .ZExt src dst, some d => selectExt .Uxtw d src dst
  | .SExt src dst, some d => selectExt .Sxtw d src dst
  | .Trunc src _, some d => selectTrunc d src
  | .Load b off ty, some d => selectLoad d b off ty
  | .Store v b off ty, _ => selectStore v b off ty
  | .GetPC, some d => selectGetPC d start
  | _, none => pure ()

def selectTerm (t : IR.Terminator) : SelM Terminator :=
  match t.kind, t.data with
  | .Br, .br target => return ⟨.Br, .br (blockLabel target)⟩
  | .CBr, .cbr cond tt ff => do
    return ⟨.CBr, .cbr (← vregOf cond) (blockLabel tt) (blockLabel ff)⟩
  | .BrIndirect, .brIndirect target => do return ⟨.BrIndirect, .brIndirect (← vregOf target)⟩
  | .Ret, _ => return ⟨.Ret, .monostate⟩
  | .Trap, _ => return ⟨.Trap, .monostate⟩
  | .None, _ => return ⟨.None, .monostate⟩
  | _, _ => throw .badVariantAccess

def selectAll (bb : IR.Block) : SelM Terminator := do
  bb.insts.forM (selectInst bb.start)
  selectTerm bb.term

def select (bb : IR.Block) : Except Fault Block := do
  let (term, s) ← (selectAll bb).run ⟨List.replicate (bb.insts.length + 1) 0, []⟩
  return ⟨bb.start, s.instrs, term⟩

end Riscy.AArch64
