import Mathlib

/-! The intermediate representation: typed payloads, instructions with an optional
destination, terminators and blocks. -/
namespace Riscy.IR

inductive TypeKind
  | I1 | I8 | I16 | I32 | I64
  deriving DecidableEq, Repr

/-- Virtual register of a block, a 32-bit number. -/
abbrev ValueId := ℕ

inductive BinOpKind
  | Add | Sub | And | Or | Xor | Shl | LShr | AShr
  deriving DecidableEq, Repr

inductive ICmpCond
  | EQ | NE | ULT | ULE | UGT | UGE | SLT | SLE | SGT | SGE
  deriving DecidableEq, Repr

inductive Payload
  | Const (ty : TypeKind) (value : BitVec 64)
  | ReadReg (reg : ℕ)
  | WriteReg (reg : ℕ) (value : ValueId)
  | BinOp (kind : BinOpKind) (lhs rhs : ValueId) (ty : TypeKind)
  | ICmp (cond : ICmpCond) (lhs rhs : ValueId)
  | ZExt (src : ValueId) (dst : TypeKind)
  | SExt (src : ValueId) (dst : TypeKind)
  | Trunc (src : ValueId) (dst : TypeKind)
  | Load (base : ValueId) (offset : BitVec 64) (ty : TypeKind)
  | Store (value base : ValueId) (offset : BitVec 64) (ty : TypeKind)
  | GetPC
  deriving DecidableEq, Repr

structure Instr where
  dest : Option ValueId
  payload : Payload
  deriving DecidableEq, Repr

inductive TermKind
  | None | Br | CBr | BrIndirect | Ret | Trap
  deriving DecidableEq, Repr

inductive TermData
  | monostate
  | br (target : BitVec 64)
  | cbr (cond : ValueId) (t f : BitVec 64)
  | brIndirect (target : ValueId)
  deriving DecidableEq, Repr

structure Terminator where
  kind : TermKind
  data : TermData
  deriving DecidableEq, Repr

structure Block where
  start : BitVec 64
  insts : List Instr
  term : Terminator
  deriving DecidableEq, Repr

end Riscy.IR
