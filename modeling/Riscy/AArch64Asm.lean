import Riscy.AArch64Instr
import Riscy.ByteMemory

/-! Assembly lines and their execution, over any set of register names. With physical
registers these are the lines that the emitter prints; with one name for each virtual
register they give the meaning of a block before allocation. -/
namespace Riscy.AArch64
open ByteMemory

inductive Alu
  | add | sub | and | orr | eor | lsl | lsr | asr
  deriving DecidableEq, Repr

inductive Cond
  | eq | ne | lo | ls | hi | hs | lt | le | gt | ge
  deriving DecidableEq, Repr

/-- Access sizes; `sw` is the sign-extending word load. -/
inductive Size
  | x | w | b | h | sw
  deriving DecidableEq, Repr

inductive Line (ρ : Type)
  | mov (d s : ρ)
  | movImm (d : ρ) (v : BitVec 64)
  | movz (d : ρ) (v : BitVec 64)
  | movk (d : ρ) (v lsl : BitVec 64)
  | alu (op : Alu) (d a b : ρ)
  | ldr (size : Size) (d base : ρ) (off : BitVec 32)
  | str (size : Size) (v base : ρ) (off : BitVec 32)
  | cmp (a b : ρ)
  | cmpZero (a : ρ)
  | cset (d : ρ) (c : Cond)
  | sxtw (d s : ρ)
  | uxtw (d s : ρ)
  deriving DecidableEq, Repr

/-- The lines that leave a block. -/
inductive Jump
  | b (target : String)
  | bne (target : String)
  | bl
  | ret
  | brk
  deriving DecidableEq, Repr

structure AsmBlock (ρ : Type) where
  label : String
  lines : List (Line ρ)
  jumps : List Jump

section Print
variable {ρ : Type} (phys : PReg → ρ) (mapV : VReg → Except Fault ρ)

def mapAnyReg : Operand → Except Fault ρ
  | .regV v => mapV v
  | .regP p => .ok (phys p)
  | _ => .ok (phys 9)

/-- Base of a memory operand: virtual register 0 is `x0`. -/
def mapBase (base : VReg) : Except Fault ρ :=
  if base = 0 then .ok (phys 0) else mapV base

def printMov (i : Instr) : Except Fault (List (Line ρ)) := do
  let a ← i.operand 0
  let b0 ← i.operand 1
  let pd ← mapV (← getRegV a)
  match b0 with
  | .regV _ | .regP _ => return [.mov pd (← mapAnyReg phys mapV b0)]
  | .imm v => return [.movImm pd v]
  | _ => return []

def printMovZ (i : Instr) : Except Fault (List (Line ρ)) := do
  let pd ← mapV (← getRegV (← i.operand 0))
  let imm ← getImm (← i.operand 1)
  return [.movz pd imm]

def printMovK (i : Instr) : Except Fault (List (Line ρ)) := do
  let pd ← mapV (← getRegV (← i.operand 0))
  let imm ← getImm (← i.operand 1)
  let lsl ← getImm (← i.operand 2)
  return [.movk pd imm lsl]

def printAlu (op : Alu) (i : Instr) : Except Fault (List (Line ρ)) := do
  let pd ← mapV (← getRegV (← i.operand 0))
  let pa ← mapAnyReg phys mapV (← i.operand 1)
  let pb ← mapAnyReg phys mapV (← i.operand 2)
  return [.alu op pd pa pb]

def printLdr (size : Size) (i : Instr) : Except Fault (List (Line ρ)) := do
  let pd ← mapV (← getRegV (← i.operand 0))
  let m ← getMem (← i.operand 1)
  let pbase ← mapBase phys mapV m.1
  return [.ldr size pd pbase m.2]

def printStr (size : Size) (i : Instr) : Except Fault (List (Line ρ)) := do
  let pv ← mapV (← getRegV (← i.operand 0))
  let m ← getMem (← i.operand 1)
  let pbase ← mapBase phys mapV m.1
  return [.str size pv pbase m.2]

def printCmp (i : Instr) : Except Fault (List (Line ρ)) := do
  let pa ← mapAnyReg phys mapV (← i.operand 0)
  let pb ← mapAnyReg phys mapV (← i.operand 1)
  return [.cmp pa pb]

def printCset (c : Cond) (i : Instr) : Except Fault (List (Line ρ)) := do
  let pd ← mapV (← getRegV (← i.operand 0))
  return [.cset pd c]

def printExt (line : ρ → ρ → Line ρ) (i : Instr) : Except Fault (List (Line ρ)) := do
  let pd ← mapV (← getRegV (← i.operand 0))
  let ps ← mapV (← getRegV (← i.operand 1))
  return [line pd ps]

/-- The opcode switch of `Emitter::emit`. Its default case prints nothing. -/
def printInstr (i : Instr) : Except Fault (List (Line ρ)) :=
  match i.op with
  | .Mov => printMov phys mapV i
  | .MovZ => printMovZ mapV i
  | .MovK => printMovK mapV i
  | .Add => printAlu phys mapV .add i
  | .Sub => printAlu phys mapV .sub i
  | .And => printAlu phys mapV .and i
  | .Orr => printAlu phys mapV .orr i
  | .Eor => printAlu phys mapV .eor i
  | .Lsl => printAlu phys mapV .lsl i
  | .Lsr => printAlu phys mapV .lsr i
  | .Asr => printAlu phys mapV .asr i
  | .LdrX => printLdr phys mapV .x i
  | .LdrW => printLdr phys mapV .w i
  | .LdrB => printLdr phys mapV .b i
  | .LdrH => printLdr phys mapV .h i
  | .LdrSW => printLdr phys mapV .sw i
  | .StrX => printStr phys mapV .x i
  | .StrW => printStr phys mapV .w i
  | .StrB => printStr phys mapV .b i
  | .StrH => printStr phys mapV .h i
  | .Cmp => printCmp phys mapV i
  | .CsetEq => printCset mapV .eq i
  | .CsetNe => printCset mapV .ne i
  | .CsetLo => printCset mapV .lo i
  | .CsetLs => printCset mapV .ls i
  | .CsetHi => printCset mapV .hi i
  | .CsetHs => printCset mapV .hs i
  | .CsetLt => printCset mapV .lt i
  | .CsetLe => printCset mapV .le i
  | .CsetGt => printCset mapV .gt i
  | .CsetGe => printCset mapV .ge i
  | .Sxtw => printExt mapV .sxtw i
  | .Uxtw => printExt mapV .uxtw i
  | .Bl | .Br | .B | .Bne | .Beq | .Ret | .Brk | .Label => .ok []

def printInstrs (is : List Instr) : Except Fault (List (Line ρ)) := do
  return (← is.mapM (printInstr phys mapV)).flatten

/-- The terminator: lines that prepare it, and the jumps. -/
def printTerm (t : Terminator) : Except Fault (List (Line ρ) × List Jump) :=
  match t.kind, t.data with
  | .Br, .br target => .ok ([], [.b target])
  | .CBr, .cbr cond tt ff => do return ([.cmpZero (← mapV cond)], [.bne tt, .b ff])
  | .BrIndirect, .brIndirect target => do
    return ([.mov (phys 1) (← mapV target)], [.bl])
  | .Ret, _ => .ok ([], [.ret])
  | .Trap, _ => .ok ([], [.brk])
  | .None, _ => .ok ([], [])
  | _, _ => .error .badVariantAccess

/-- `ldr x21, [x0, #256]`: the guest memory base follows the 32 guest registers. -/
def prologue : Line ρ := .ldr .x (phys 21) (phys 0) 256

/-- What the emitter prints for a block. -/
def printBlock (b : Block) : Except Fault (AsmBlock ρ) := do
  let body ← printInstrs phys mapV b.instrs
  let (before, jumps) ← printTerm phys mapV b.term
  return ⟨blockLabel b.guestPc, prologue phys :: body ++ before, jumps⟩

end Print

/-- The condition flags. -/
structure Flags where
  n : Bool
  z : Bool
  c : Bool
  v : Bool

def compare (a b : BitVec 64) : Flags :=
  ⟨(a - b).msb, a = b, b.ule a, BitVec.ssubOverflow a b⟩

def Flags.holds (f : Flags) : Cond → Bool
  | .eq => f.z
  | .ne => !f.z
  | .lo => !f.c
  | .ls => !f.c || f.z
  | .hi => f.c && !f.z
  | .hs => f.c
  | .lt => f.n != f.v
  | .le => f.z || f.n != f.v
  | .gt => !f.z && f.n == f.v
  | .ge => f.n == f.v

/-- The host: registers, flags, the words of the state struct at `addr` (32 guest
registers and the memory base), and the bytes outside the struct. -/
structure Host (ρ : Type) where
  r : ρ → BitVec 64
  flags : Flags
  addr : BitVec 64
  words : ℕ → BitVec 64
  mem : Memory 64

section Exec
variable {ρ : Type} [DecidableEq ρ]

def Host.set (s : Host ρ) (d : ρ) (v : BitVec 64) : Host ρ :=
  { s with r := Function.update s.r d v }

def Alu.eval (op : Alu) (a b : BitVec 64) : BitVec 64 :=
  match op with
  | .add => a + b
  | .sub => a - b
  | .and => a &&& b
  | .orr => a ||| b
  | .eor => a ^^^ b
  | .lsl => a <<< (b.toNat % 64)
  | .lsr => a >>> (b.toNat % 64)
  | .asr => a.sshiftRight (b.toNat % 64)

def Size.bytes : Size → ℕ
  | .x => 8
  | .w | .sw => 4
  | .h => 2
  | .b => 1

def Size.extend (size : Size) (v : ℕ) : BitVec 64 :=
  match size with
  | .sw => (BitVec.ofNat 32 v).signExtend 64
  | _ => BitVec.ofNat 64 v

/-- The word of the struct at a byte offset; only whole words are accessed. -/
def structWord (off : BitVec 32) : Option ℕ :=
  if off.toNat % 8 = 0 ∧ off.toNat / 8 < 33 then some (off.toNat / 8) else none

/-- Loads and stores through `x0` access the struct, all others the bytes outside it. -/
def Line.exec (x0 : ρ) (s : Host ρ) : Line ρ → Option (Host ρ)
  | .mov d a => some (s.set d (s.r a))
  | .movImm d v => some (s.set d v)
  | .movz d v => some (s.set d v)
  | .movk d v lsl =>
    some (s.set d ((s.r d &&& ~~~((0xffff : BitVec 64) <<< lsl.toNat)) ||| (v <<< lsl.toNat)))
  | .alu op d a b => some (s.set d (op.eval (s.r a) (s.r b)))
  | .ldr size d base off =>
    if base = x0 then
      if s.r x0 = s.addr ∧ size = .x then
        (structWord off).map fun k => s.set d (s.words k)
      else none
    else some (s.set d (size.extend (read s.mem (s.r base + off.signExtend 64) size.bytes)))
  | .str size v base off =>
    if base = x0 then
      if s.r x0 = s.addr ∧ size = .x then
        (structWord off).map fun k => { s with words := Function.update s.words k (s.r v) }
      else none
    else some { s with
      mem := write s.mem (s.r base + off.signExtend 64) (s.r v).toNat size.bytes }
  | .cmp a b => some { s with flags := compare (s.r a) (s.r b) }
  | .cmpZero a => some { s with flags := compare (s.r a) 0 }
  | .cset d c => some (s.set d (if s.flags.holds c then 1 else 0))
  | .sxtw d a => some (s.set d (((s.r a).setWidth 32).signExtend 64))
  | .uxtw d a => some (s.set d (((s.r a).setWidth 32).setWidth 64))

def runLines (x0 : ρ) (ls : List (Line ρ)) (s : Host ρ) : Option (Host ρ) :=
  ls.foldlM (Line.exec x0) s

@[simp] theorem runLines_nil (x0 : ρ) (s : Host ρ) : runLines x0 [] s = some s := rfl

@[simp] theorem runLines_cons (x0 : ρ) (l : Line ρ) (ls : List (Line ρ)) (s : Host ρ) :
    runLines x0 (l :: ls) s = (l.exec x0 s).bind (runLines x0 ls) := rfl

theorem runLines_append (x0 : ρ) (ls ms : List (Line ρ)) (s : Host ρ) :
    runLines x0 (ls ++ ms) s = (runLines x0 ls s).bind (runLines x0 ms) :=
  List.foldlM_append

/-- Where the jumps of a block send control. -/
inductive Exit
  | goto (target : String)
  | indirect (target : BitVec 64)
  | ret
  | trap
  deriving DecidableEq

/-- The first jump that is taken; a block without one has no exit. -/
def exitOf (x1 : ρ) (s : Host ρ) : List Jump → Option Exit
  | [] => none
  | .b t :: _ => some (.goto t)
  | .bne t :: js => if s.flags.holds .ne then some (.goto t) else exitOf x1 s js
  | .bl :: _ => some (.indirect (s.r x1))
  | .ret :: _ => some .ret
  | .brk :: _ => some .trap

def AsmBlock.run (x0 x1 : ρ) (b : AsmBlock ρ) (s : Host ρ) : Option (Host ρ × Exit) := do
  let s ← runLines x0 b.lines s
  let e ← exitOf x1 s b.jumps
  return (s, e)

end Exec

/-- Names that never interfere: the virtual registers and the physical ones. -/
inductive VName
  | virt (v : VReg)
  | phys (p : PReg)
  deriving DecidableEq, Repr

/-- A block over virtual registers. -/
def virtualBlock (b : Block) : Except Fault (AsmBlock VName) :=
  printBlock .phys (fun v => .ok (.virt v)) b

end Riscy.AArch64
