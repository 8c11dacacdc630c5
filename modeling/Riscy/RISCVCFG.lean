import Riscy.RISCVDecoder

/-! `CFGBuilder`: leaders, the worklist and the block loop. Both loops take fuel; a
result is always of the form `some`, and `Builds` asks for some amount that is enough. -/
namespace Riscy.RISCV

inductive TermKind
  | None
  | Fallthrough
  | Branch
  | Jump
  | IndirectJump
  | Return
  | Trap
  deriving DecidableEq, Repr

structure BasicBlock where
  start : BitVec 64
  insts : List DecodedInst
  term : TermKind
  succs : List (BitVec 64)
  deriving DecidableEq, Repr

/-- Block index by start address. -/
abbrev AddrIndex := AList (fun _ : BitVec 64 => ℕ)

structure CFG where
  entry : BitVec 64
  blocks : List BasicBlock
  indexByAddr : AddrIndex

def isCondBranch (op : Opcode) : Bool :=
  op ∈ [Opcode.BEQ, .BNE, .BLT, .BGE, .BLTU, .BGEU]

def isJump (op : Opcode) : Bool := op = .JAL

/-- JALR x0, 0(ra). -/
def isReturn (inst : DecodedInst) : Except Fault Bool :=
  if inst.opcode ≠ .JALR ∨ inst.operands.length < 2 then .ok false
  else do
    let rd ← getReg (← inst.operand 0)
    match ← inst.operand 1 with
    | .mem base offset => .ok (rd = 0 ∧ base = 1 ∧ offset = 0)
    | _ => .ok false

def isIndirect (inst : DecodedInst) : Except Fault Bool := do
  if inst.opcode = .JALR then return !(← isReturn inst) else return false

def isTrap (op : Opcode) : Bool := op = .ECALL ∨ op = .EBREAK

/-- The tests after `push_back`: terminator kind and successors if the instruction
ends its block. The successors are also what is enqueued. -/
def exitOf (inst : DecodedInst) : Except Fault (Option (TermKind × List (BitVec 64))) := do
  if isCondBranch inst.opcode then
    let off ← getImm (← inst.operand 2)
    return some (.Branch, [inst.pc + off, inst.pc + 4])
  if isJump inst.opcode then
    let off ← getImm (← inst.operand 1)
    return some (.Jump, [inst.pc + off])
  if ← isIndirect inst then return some (.IndirectJump, [])
  if ← isReturn inst then return some (.Return, [])
  if isTrap inst.opcode then return some (.Trap, [])
  return none

/-- The instruction loop of `build`; `known` holds of leaders and built addresses. -/
def scan (mem : MemoryReader) (known : BitVec 64 → Bool) (start : BitVec 64) :
    ℕ → BitVec 64 → List DecodedInst → Option (Except Fault BasicBlock)
  | 0, _, _ => none
  | fuel + 1, pc, insts =>
    if pc ≠ start ∧ known pc then some (.ok ⟨start, insts, .Fallthrough, [pc]⟩)
    else match decodeNext mem pc with
      | .error _ => some (.ok ⟨start, insts, .Trap, []⟩)
      | .ok inst => match exitOf inst with
        | .error e => some (.error e)
        | .ok (some (term, succs)) => some (.ok ⟨start, insts ++ [inst], term, succs⟩)
        | .ok none => scan mem known start fuel (pc + 4) (insts ++ [inst])

/-- The variables of `build` between two turns of the worklist loop. -/
structure BuildState where
  worklist : List (BitVec 64)
  leaders : Finset (BitVec 64)
  blocks : List BasicBlock
  indexByAddr : AddrIndex

def BuildState.enqueue (s : BuildState) (addr : BitVec 64) : BuildState :=
  if addr ∈ s.leaders then s
  else { s with worklist := s.worklist ++ [addr], leaders := insert addr s.leaders }

def BuildState.known (s : BuildState) (pc : BitVec 64) : Bool :=
  pc ∈ s.leaders ∨ pc ∈ s.indexByAddr

/-- The end of a turn: successors are enqueued and the block is recorded. -/
def BuildState.record (s : BuildState) (bb : BasicBlock) : BuildState :=
  let s := bb.succs.foldl BuildState.enqueue s
  { s with
    indexByAddr := s.indexByAddr.insert bb.start s.blocks.length
    blocks := s.blocks ++ [bb] }

/-- The worklist loop. -/
def buildLoop (mem : MemoryReader) (entry : BitVec 64) :
    ℕ → BuildState → Option (Except Fault CFG)
  | 0, _ => none
  | fuel + 1, s => match s.worklist with
    | [] => some (.ok ⟨entry, s.blocks, s.indexByAddr⟩)
    | start :: rest =>
      let s := { s with worklist := rest }
      if start ∈ s.indexByAddr then buildLoop mem entry fuel s
      else match scan mem s.known start (fuel + 1) start [] with
        | none => none
        | some (.error e) => some (.error e)
        | some (.ok bb) => buildLoop mem entry fuel (s.record bb)

def BuildState.initial (entry : BitVec 64) : BuildState :=
  ⟨[entry], {entry}, [], ∅⟩

def build (fuel : ℕ) (mem : MemoryReader) (entry : BitVec 64) : Option (Except Fault CFG) :=
  buildLoop mem entry fuel (.initial entry)

/-- `build` terminates and returns `cfg`. -/
def Builds (mem : MemoryReader) (entry : BitVec 64) (cfg : CFG) : Prop :=
  ∃ fuel, build fuel mem entry = some (.ok cfg)

end Riscy.RISCV
