import Riscy.AArch64RegAlloc

/-! `Emitter::emit`: the module text as data. The blocks stand one after another in the
order in which they are given; the tables list them in the same order. -/
namespace Riscy.AArch64

/-- Physical register of a virtual one; the emitter aborts where there is none. -/
def mapV (asg : RegAssignment) (v : VReg) : Except Fault PReg :=
  match asg v with
  | some p => .ok p
  | none => .error .abort

structure ModuleAsm where
  entryPc : BitVec 64
  addrs : List (BitVec 64)
  ptrs : List String
  blocks : List (AsmBlock PReg)

def emitBlock (b : Block) (asg : RegAssignment) : Except Fault (AsmBlock PReg) :=
  printBlock id (mapV asg) b

/-- The loop over the blocks, each with the assignment at its index. -/
def emitBlocks : List Block → List RegAssignment → Except Fault (List (AsmBlock PReg))
  | [], _ => .ok []
  | _ :: _, [] => .error .operandOutOfRange
  | b :: bs, asg :: asgs => do
    let asm ← emitBlock b asg
    let rest ← emitBlocks bs asgs
    return asm :: rest

def emit (blocks : List Block) (assignments : List RegAssignment) (entryPc : BitVec 64) :
    Except Fault ModuleAsm := do
  let asm ← emitBlocks blocks assignments
  return ⟨entryPc, blocks.map Block.guestPc, blocks.map fun b => blockLabel b.guestPc, asm⟩

/-- The names that an assignment gives to the virtual registers. -/
def names (asg : RegAssignment) : VName → PReg
  | .virt v => (asg v).getD 0
  | .phys p => p

theorem mapV_eq {asg : RegAssignment} {v : VReg} {p : PReg} (h : asg v = some p) :
    mapV asg v = .ok (names asg (.virt v)) := by
  simp [mapV, names, h]

/-- A block is emitted if every register that it mentions is assigned. -/
theorem emitBlock_eq {bb : IR.Block} {asg : RegAssignment} (hterm : TermOk bb.term)
    (h : ∀ c ∈ (selectedBlock bb).instrs, ∀ v ∈ c.vregs, ∃ p, asg v = some p)
    (ht : ∀ v ∈ (selectedBlock bb).term.vregs, ∃ p, asg v = some p) :
    emitBlock (selectedBlock bb) asg = .ok ⟨blockLabel bb.start,
      (blockLines bb).map (Line.map (names asg)), termJumps (selectedTerm bb.term)⟩ := by
  have hnamed : ∀ c ∈ (selectedBlock bb).instrs, Named (mapV asg) (names asg) c := by
    intro c hc v hv
    obtain ⟨p, hp⟩ := h c hc v hv
    exact mapV_eq hp
  have hend : ∀ v ∈ (selectedBlock bb).term.vregs,
      mapV asg v = .ok (names asg (.virt v)) := by
    intro v hv
    obtain ⟨p, hp⟩ := ht v hv
    exact mapV_eq hp
  have hphys : ∀ p, names asg (.phys p) = id p := fun _ => rfl
  exact printBlock_eq hphys hterm hnamed hend

end Riscy.AArch64
