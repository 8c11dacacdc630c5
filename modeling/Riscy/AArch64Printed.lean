import Riscy.Translate

/-! What is printed for a block of any length. Virtual registers are 32-bit numbers, so the
lines are those of the selected block with the registers renamed to these. -/
namespace Riscy.AArch64
open IR (TypeKind BinOpKind ICmpCond Payload)
open RISCV

section Wrap
variable {ρ : Type} {phys : PReg → ρ} {mapV : VReg → Except Fault ρ}

/-- The name of the register that a number wraps to. -/
def wrapV (mapV : VReg → Except Fault ρ) (v : VReg) : Except Fault ρ := mapV (v % 2 ^ 32)

/-- Bases of memory operands are 32-bit numbers. -/
def Based (i : Instr) : Prop := ∀ base off, .mem base off ∈ i.ops → base % 2 ^ 32 = base

theorem operand_mem {i : Instr} {k : ℕ} {o : Operand} (h : i.operand k = .ok o) : o ∈ i.ops := by
  unfold Instr.operand at h
  split at h
  next hget =>
    cases h
    exact List.mem_of_getElem? hget
  · cases h

theorem wrap_operand (i : Instr) (k : ℕ) : i.wrap.operand k = (i.operand k).map Operand.wrap := by
  unfold Instr.operand Instr.wrap
  rw [List.getElem?_map]
  cases i.ops[k]? <;> rfl

theorem mapBase_wrap {base : VReg} (h : base % 2 ^ 32 = base) :
    mapBase phys mapV (base % 2 ^ 32) = mapBase phys (wrapV mapV) base := by
  unfold mapBase wrapV
  rw [h]

theorem printMov_wrap (i : Instr) : printMov phys mapV i.wrap = printMov phys (wrapV mapV) i := by
  unfold printMov
  rw [wrap_operand, wrap_operand]
  cases i.operand 0 with
  | error e => rfl
  | ok a =>
    cases i.operand 1 with
    | error e => rfl
    | ok b => cases a <;> cases b <;> rfl

theorem printMovZ_wrap (i : Instr) : printMovZ mapV i.wrap = printMovZ (wrapV mapV) i := by
  unfold printMovZ
  rw [wrap_operand, wrap_operand]
  cases i.operand 0 with
  | error e => rfl
  | ok a =>
    cases i.operand 1 with
    | error e => cases a <;> rfl
    | ok b => cases a <;> cases b <;> rfl

theorem printMovK_wrap (i : Instr) : printMovK mapV i.wrap = printMovK (wrapV mapV) i := by
  unfold printMovK
  rw [wrap_operand, wrap_operand, wrap_operand]
  cases i.operand 0 with
  | error e => rfl
  | ok a =>
    cases i.operand 1 with
    | error e => cases a <;> rfl
    | ok b =>
      cases i.operand 2 with
      | error e => cases a <;> cases b <;> rfl
      | ok c => cases a <;> cases b <;> cases c <;> rfl

theorem printAlu_wrap (op : Alu) (i : Instr) :
    printAlu phys mapV op i.wrap = printAlu phys (wrapV mapV) op i := by
  unfold printAlu
  rw [wrap_operand, wrap_operand, wrap_operand]
  cases i.operand 0 with
  | error e => rfl
  | ok a =>
    cases i.operand 1 with
    | error e => cases a <;> rfl
    | ok b =>
      cases i.operand 2 with
      | error e => cases a <;> cases b <;> rfl
      | ok c => cases a <;> cases b <;> cases c <;> rfl

/-- Loads and stores are printed alike. -/
theorem access_wrap {i : Instr} (h : Based i) (line : ρ → ρ → BitVec 32 → Line ρ) :
    (do
      let p ← mapV (← getRegV (← i.wrap.operand 0))
      let m ← getMem (← i.wrap.operand 1)
      let pbase ← mapBase phys mapV m.1
      return [line p pbase m.2]) = (do
      let p ← wrapV mapV (← getRegV (← i.operand 0))
      let m ← getMem (← i.operand 1)
      let pbase ← mapBase phys (wrapV mapV) m.1
      return [line p pbase m.2]) := by
  rw [wrap_operand, wrap_operand]
  cases i.operand 0 with
  | error e => rfl
  | ok a =>
    cases hb : i.operand 1 with
    | error e => cases a <;> rfl
    | ok b =>
      cases b with
      | mem base off =>
        have hbase : mapBase phys mapV _ = _ := mapBase_wrap (h base off (operand_mem hb))
        cases a <;> simp only [Except.map, Operand.wrap, getMem, bind, Except.bind, hbase] <;> rfl
      | _ => cases a <;> rfl

theorem printLdr_wrap {i : Instr} (h : Based i) (size : Size) :
    printLdr phys mapV size i.wrap = printLdr phys (wrapV mapV) size i :=
  access_wrap h (.ldr size)

theorem printStr_wrap {i : Instr} (h : Based i) (size : Size) :
    printStr phys mapV size i.wrap = printStr phys (wrapV mapV) size i :=
  access_wrap h (.str size)

theorem printCmp_wrap (i : Instr) : printCmp phys mapV i.wrap = printCmp phys (wrapV mapV) i := by
  unfold printCmp
  rw [wrap_operand, wrap_operand]
  cases i.operand 0 with
  | error e => rfl
  | ok a =>
    cases i.operand 1 with
    | error e => cases a <;> rfl
    | ok b => cases a <;> cases b <;> rfl

theorem printCset_wrap (c : Cond) (i : Instr) :
    printCset mapV c i.wrap = printCset (wrapV mapV) c i := by
  unfold printCset
  rw [wrap_operand]
  cases i.operand 0 with
  | error e => rfl
  | ok a => cases a <;> rfl

theorem printExt_wrap (line : ρ → ρ → Line ρ) (i : Instr) :
    printExt mapV line i.wrap = printExt (wrapV mapV) line i := by
  unfold printExt
  rw [wrap_operand, wrap_operand]
  cases i.operand 0 with
  | error e => rfl
  | ok a =>
    cases i.operand 1 with
    | error e => cases a <;> rfl
    | ok b => cases a <;> cases b <;> rfl

/-- An instruction is printed with wrapped registers as it is with wrapped names. -/
theorem printInstr_wrap {i : Instr} (h : Based i) :
    printInstr phys mapV i.wrap = printInstr phys (wrapV mapV) i := by
  have hop : i.wrap.op = i.op := rfl
  unfold printInstr
  rw [hop]
  cases i.op with
  | Mov => exact printMov_wrap i
  | MovZ => exact printMovZ_wrap i
  | MovK => exact printMovK_wrap i
  | Add | Sub | And | Orr | Eor | Lsl | Lsr | Asr => exact printAlu_wrap _ i
  | LdrX | LdrW | LdrB | LdrH | LdrSW => exact printLdr_wrap h _
  | StrX | StrW | StrB | StrH => exact printStr_wrap h _
  | Cmp => exact printCmp_wrap i
  | CsetEq | CsetNe | CsetLo | CsetLs | CsetHi | CsetHs | CsetLt | CsetLe | CsetGt | CsetGe =>
    exact printCset_wrap _ i
  | Sxtw | Uxtw => exact printExt_wrap _ i
  | Bl | Br | B | Bne | Beq | Ret | Brk | Label => rfl

theorem printInstrs_wrap {is : List Instr} (h : ∀ i ∈ is, Based i) :
    printInstrs phys mapV (is.map Instr.wrap) = printInstrs phys (wrapV mapV) is := by
  have hm : (is.map Instr.wrap).mapM (printInstr phys mapV) =
      is.mapM (printInstr phys (wrapV mapV)) := by
    induction is with
    | nil => rfl
    | cons i is ih =>
      rw [List.map_cons, List.mapM_cons, List.mapM_cons, printInstr_wrap (h i (by simp)),
        ih fun j hj => h j (by simp [hj])]
  rw [printInstrs, hm]
  rfl

theorem printTerm_wrap (t : Terminator) :
    printTerm phys mapV t.wrap = printTerm phys (wrapV mapV) t := by
  obtain ⟨kind, data⟩ := t
  cases kind <;> cases data <;> rfl

theorem printBlock_wrap {b : Block} (h : ∀ i ∈ b.instrs, Based i) :
    printBlock phys mapV b.wrap = printBlock phys (wrapV mapV) b := by
  have hbody : printInstrs phys mapV b.wrap.instrs = _ := printInstrs_wrap h
  have hterm : printTerm phys mapV b.wrap.term = _ := printTerm_wrap b.term
  unfold printBlock
  rw [hbody, hterm]
  rfl

/-- In selected code the base of an access is the state pointer or an address temporary. -/
theorem selected_based {start : BitVec 64} {k : ℕ} {i : IR.Instr} {c : Instr}
    (hc : c ∈ selected start k i) : Based c := by
  have hconst : ∀ d v, c ∈ constCode d v → Based c := by
    intro d v hm base off ho
    have hk : ∀ part lsl, c ∈ movK d part lsl → ∀ base off, .mem base off ∉ c.ops := by
      intro part lsl hm
      unfold movK at hm
      split_ifs at hm
      · rw [List.mem_singleton.mp hm]
        simp
      · cases hm
    exfalso
    unfold constCode at hm
    split_ifs at hm
    · rw [List.mem_singleton.mp hm] at ho
      simp at ho
    · simp only [List.mem_append, List.mem_singleton] at hm
      rcases hm with ((rfl | hm) | hm) | hm
      · simp at ho
      · exact hk _ _ hm _ _ ho
      · exact hk _ _ hm _ _ ho
      · exact hk _ _ hm _ _ ho
  have haddr := addrReg_mod k
  obtain ⟨dest, payload⟩ := i
  cases payload <;> cases dest <;>
    simp only [selected, extCode, addrCode, List.mem_cons, List.not_mem_nil, or_false] at hc
  all_goals first
    | exact hconst _ _ hc
    | rcases hc with rfl | rfl
  all_goals
    intro base off ho
    simp only [List.mem_cons, List.not_mem_nil, or_false, reduceCtorEq, Operand.mem.injEq, false_or,
      or_self] at ho
  all_goals
    rw [ho.1]
    first
      | rfl
      | exact haddr

theorem selectedAll_based {start : BitVec 64} {k : ℕ} {is : List IR.Instr} {c : Instr}
    (hc : c ∈ selectedAll start k is) : Based c := by
  induction is generalizing k with
  | nil => cases hc
  | cons i is ih =>
    rcases List.mem_append.mp hc with hc | hc
    · exact selected_based hc
    · exact ih hc

theorem wrap_vregs {c : Instr} (h : Based c) : c.wrap.vregs = c.vregs.map (· % 2 ^ 32) := by
  have hop : ∀ o ∈ c.ops, o.wrap.vregs = o.vregs.map (· % 2 ^ 32) := by
    intro o ho
    cases o with
    | mem base off =>
      have hb := h base off ho
      simp only [Operand.wrap, Operand.vregs, hb]
      split_ifs with h0
      · rfl
      · exact (congrArg (fun b => [b]) hb).symm
    | _ => rfl
  unfold Instr.vregs Instr.wrap
  rw [List.flatMap_map, List.map_flatMap]
  exact List.flatMap_congr hop

theorem wrap_term_vregs (t : Terminator) : t.wrap.vregs = t.vregs.map (· % 2 ^ 32) := by
  obtain ⟨kind, data⟩ := t
  cases kind <;> cases data <;> rfl

theorem wrap_complete {t : Terminator} (h : t.Complete) : t.wrap.Complete := by
  obtain ⟨kind, data⟩ := t
  cases kind <;> cases data <;> trivial

end Wrap

section Pipeline
variable {mem : MemoryReader} {bb : BasicBlock}

/-- The block that selection returns for a lifted block. -/
def pipelineBlock (bb : BasicBlock) : Block := (selectedBlock (lifted bb)).wrap

/-- The live ranges of the block. -/
def pipelineLive (bb : BasicBlock) : LivenessMap := touchAll ∅ (touches (pipelineBlock bb))

theorem select_lifted (bb : BasicBlock) : select (lifted bb) = .ok (pipelineBlock bb) :=
  select_wraps (lifted_mapped bb)

theorem analyze_pipeline (bb : BasicBlock) :
    analyze (pipelineBlock bb) = .ok (pipelineLive bb) :=
  analyze_eq (wrap_complete (selectedTerm_complete _))

/-- A block passes through the pipeline unless registers run out. -/
theorem translateBlock_inv (h : WellBuilt mem bb) {o : ItemOrders} {blk : Block}
    {asg : RegAssignment} (ht : translateBlock o bb = .ok (blk, asg)) :
    blk = pipelineBlock bb ∧ allocate (o.order blk (pipelineLive bb)) = .ok asg := by
  have hsel := select_lifted bb
  have hlive := analyze_pipeline bb
  simp only [translateBlock, h.lift_eq] at ht
  change (select (lifted bb) >>= _) = _ at ht
  simp only [hsel, hlive, bind, Except.bind] at ht
  cases ha : allocate (o.order (pipelineBlock bb) (pipelineLive bb)) with
  | error e =>
    rw [ha] at ht
    cases ht
  | ok asg' =>
    rw [ha] at ht
    cases ht
    exact ⟨rfl, ha⟩

/-- The physical names of the registers, taken as 32-bit numbers. -/
def wrapNames (asg : RegAssignment) : VName → PReg
  | .virt v => (asg (v % 2 ^ 32)).getD 0
  | .phys p => p

/-- Every register that is touched has a register of the pool. -/
theorem allocated_pool {items : List Item} {asg : RegAssignment}
    (ho : ItemOrder (pipelineLive bb) items) (ha : allocate items = .ok asg) {v p : ℕ}
    (hv : (v, p) ∈ touches (pipelineBlock bb)) : ∃ q ∈ initialPool, asg v = some q := by
  cases hl : (pipelineLive bb).lookup v with
  | none => exact absurd hv ((lookup_touchAll _ v).2 hl p)
  | some lr => exact (ho.allocated ha).1 v lr hl

/-- Registers of selected code are touched under their wrapped number. -/
theorem touches_wrapped {c : Instr} (hc : c ∈ (selectedBlock (lifted bb)).instrs) {v : ℕ}
    (hv : v ∈ c.vregs) : ∃ p, (v % 2 ^ 32, p) ∈ touches (pipelineBlock bb) := by
  have hw : c.wrap ∈ (pipelineBlock bb).instrs := List.mem_map_of_mem hc
  obtain ⟨j, hj⟩ := List.mem_iff_getElem?.mp hw
  have hvw : v % 2 ^ 32 ∈ c.wrap.vregs := by
    rw [wrap_vregs (selectedAll_based hc)]
    exact List.mem_map_of_mem hv
  exact ⟨_, List.mem_append_left _ (mem_touchesFrom.mpr ⟨j, c.wrap, hj, hvw, rfl⟩)⟩

/-- The instructions of a translated block mention assigned registers only. -/
theorem instrs_named (h : WellBuilt mem bb) {o : ItemOrders} {blk : Block} {asg : RegAssignment}
    (ht : translateBlock o bb = .ok (blk, asg)) :
    ∀ c ∈ (selectedBlock (lifted bb)).instrs, Named (wrapV (mapV asg)) (wrapNames asg) c := by
  obtain ⟨rfl, ha⟩ := translateBlock_inv h ht
  intro c hc v hv
  obtain ⟨p, hp⟩ := touches_wrapped hc hv
  obtain ⟨q, -, hq⟩ := allocated_pool (o.ordered _ _) ha hp
  exact mapV_eq hq

theorem term_named (h : WellBuilt mem bb) {o : ItemOrders} {blk : Block} {asg : RegAssignment}
    (ht : translateBlock o bb = .ok (blk, asg)) :
    ∀ v ∈ (selectedBlock (lifted bb)).term.vregs,
      wrapV (mapV asg) v = .ok (wrapNames asg (.virt v)) := by
  obtain ⟨rfl, ha⟩ := translateBlock_inv h ht
  intro v hv
  have hw : v % 2 ^ 32 ∈ (pipelineBlock bb).term.vregs := by
    change v % 2 ^ 32 ∈ (selectedTerm (lifted bb).term).wrap.vregs
    rw [wrap_term_vregs]
    exact List.mem_map_of_mem hv
  obtain ⟨q, -, hq⟩ := allocated_pool (o.ordered _ _) ha
    (List.mem_append_right _ (List.mem_map_of_mem hw))
  exact mapV_eq hq

/-- The body of a translated block is printed line by line under its assignment. -/
theorem printBody_lines (h : WellBuilt mem bb) {o : ItemOrders} {blk : Block}
    {asg : RegAssignment} (ht : translateBlock o bb = .ok (blk, asg)) :
    printInstrs id (mapV asg) blk.instrs = .ok
      ((linesAll bb.start ((lifted bb).insts.length + 1) (lifted bb).insts).map
        (Line.map (wrapNames asg))) := by
  have hnamed := instrs_named h ht
  obtain ⟨rfl, -⟩ := translateBlock_inv h ht
  have hwrap : ∀ i ∈ (selectedBlock (lifted bb)).instrs, Based i := fun i hi => selectedAll_based hi
  change printInstrs id (mapV asg) ((selectedBlock (lifted bb)).instrs.map Instr.wrap) = _
  rw [printInstrs_wrap hwrap]
  exact (prints_selectedAll (fun p => rfl) hnamed).printInstrs

/-- A translated block is printed line by line under its assignment. -/
theorem emitBlock_lines (h : WellBuilt mem bb) {o : ItemOrders} {blk : Block}
    {asg : RegAssignment} (ht : translateBlock o bb = .ok (blk, asg)) :
    emitBlock blk asg = .ok ⟨blockLabel bb.start,
      (blockLines (lifted bb)).map (Line.map (wrapNames asg)),
      termJumps (selectedTerm (lifted bb).term)⟩ := by
  have hnamed := instrs_named h ht
  have hterm := term_named h ht
  obtain ⟨rfl, -⟩ := translateBlock_inv h ht
  rw [emitBlock, pipelineBlock, printBlock_wrap fun i hi => selectedAll_based hi]
  exact printBlock_eq (f := wrapNames asg) (fun p => rfl) (liftTerm_ok ..) hnamed hterm

end Pipeline

section Module
variable {mem : MemoryReader} {entry : BitVec 64} {cfg : CFG} {o : ItemOrders} {m : ModuleAsm}

theorem mapM_inv {α β : Type} {f : α → Except Fault β} {l : List α} {bs : List β}
    (h : l.mapM f = .ok bs) : List.Forall₂ (fun a b => f a = .ok b) l bs := by
  induction l generalizing bs with
  | nil =>
    cases h
    exact .nil
  | cons a l ih =>
    rw [List.mapM_cons] at h
    cases ha : f a with
    | error e =>
      rw [ha] at h
      cases h
    | ok b =>
      cases hl : l.mapM f with
      | error e =>
        rw [ha, hl] at h
        cases h
      | ok bs' =>
        rw [ha, hl] at h
        cases h
        exact .cons ha (ih hl)

theorem emitBlocks_inv {pairs : List (Block × RegAssignment)} {asms : List (AsmBlock PReg)}
    (h : emitBlocks (pairs.map Prod.fst) (pairs.map Prod.snd) = .ok asms) :
    List.Forall₂ (fun p asm => emitBlock p.1 p.2 = .ok asm) pairs asms := by
  induction pairs generalizing asms with
  | nil =>
    cases h
    exact .nil
  | cons p pairs ih =>
    simp only [List.map_cons, emitBlocks, bind, Except.bind] at h
    cases ha : emitBlock p.1 p.2 with
    | error e =>
      rw [ha] at h
      cases h
    | ok asm =>
      cases hl : emitBlocks (pairs.map Prod.fst) (pairs.map Prod.snd) with
      | error e =>
        rw [ha, hl] at h
        cases h
      | ok asms' =>
        rw [ha, hl] at h
        cases h
        exact .cons ha (ih hl)

/-- The block `asm` is what the pipeline prints for `bb`. -/
def PrintedAs (o : ItemOrders) (bb : BasicBlock) (asm : AsmBlock PReg) : Prop :=
  ∃ blk asg, translateBlock o bb = .ok (blk, asg) ∧ emitBlock blk asg = .ok asm

theorem translateBlock_guestPc {bb : BasicBlock} (h : WellBuilt mem bb) {blk : Block}
    {asg : RegAssignment} (ht : translateBlock o bb = .ok (blk, asg)) : blk.guestPc = bb.start := by
  rw [(translateBlock_inv h ht).1]
  rfl

/-- A module lists the blocks of its CFG in address order, with their addresses and labels. -/
structure ModuleOf (o : ItemOrders) (cfg : CFG) (m : ModuleAsm) : Prop where
  entry : m.entryPc = cfg.entry
  addrs : m.addrs = addresses cfg
  ptrs : m.ptrs = (addresses cfg).map blockLabel
  blocks : List.Forall₂ (fun a asm => ∃ bb ∈ cfg.blocks, bb.start = a ∧ PrintedAs o bb asm)
    (addresses cfg) m.blocks

/-- The passes over the blocks, put together address by address. -/
theorem blocks_inv {as : List (BitVec 64)} {pairs : List (Block × RegAssignment)}
    {asms : List (AsmBlock PReg)}
    (hat : ∀ a ∈ as, ∀ p, translateAt o cfg a = .ok p →
      ∃ bb ∈ cfg.blocks, bb.start = a ∧ translateBlock o bb = .ok p ∧ p.1.guestPc = a)
    (hall : List.Forall₂ (fun a p => translateAt o cfg a = .ok p) as pairs)
    (hprint : List.Forall₂ (fun p asm => emitBlock p.1 p.2 = .ok asm) pairs asms) :
    pairs.map (fun p => p.1.guestPc) = as ∧
      List.Forall₂ (fun a asm => ∃ bb ∈ cfg.blocks, bb.start = a ∧ PrintedAs o bb asm) as asms := by
  induction hall generalizing asms with
  | nil =>
    cases hprint
    exact ⟨rfl, .nil⟩
  | @cons a p as pairs ha _ ih =>
    cases hprint with
    | cons hp hrest =>
      obtain ⟨hpc, hblocks⟩ := ih (fun x hx => hat x (List.mem_cons_of_mem _ hx)) hrest
      obtain ⟨bb, hmem, hstart, ht, hguest⟩ := hat a (by simp) p ha
      refine ⟨?_, .cons ⟨bb, hmem, hstart, p.1, p.2, ht, hp⟩ hblocks⟩
      rw [List.map_cons, hpc, hguest]

theorem translate_inv (h : Builds mem entry cfg) (hm : translate o cfg = .ok m) :
    ModuleOf o cfg m := by
  have hsound := h.sound
  have hat : ∀ a ∈ addresses cfg, ∀ p, translateAt o cfg a = .ok p →
      ∃ bb ∈ cfg.blocks, bb.start = a ∧ translateBlock o bb = .ok p ∧ p.1.guestPc = a := by
    intro a ha p hp
    obtain ⟨bb, hbb⟩ := hsound.blockAt_of_mem (mem_addresses.mp ha)
    obtain ⟨hmem, rfl⟩ := (hsound.blockAt_iff a bb).mp hbb
    rw [translateAt, hbb] at hp
    exact ⟨bb, hmem, rfl, hp, translateBlock_guestPc (hsound.built bb hmem) hp⟩
  cases hp : (addresses cfg).mapM (translateAt o cfg) with
  | error e =>
    rw [translate, hp] at hm
    cases hm
  | ok pairs =>
    simp only [translate, hp, bind, Except.bind, emit] at hm
    cases hasm : emitBlocks (pairs.map Prod.fst) (pairs.map Prod.snd) with
    | error e =>
      rw [hasm] at hm
      cases hm
    | ok asms =>
      rw [hasm] at hm
      cases hm
      obtain ⟨hpc, hblocks⟩ := blocks_inv hat (mapM_inv hp) (emitBlocks_inv hasm)
      refine ⟨rfl, ?_, ?_, hblocks⟩
      · rw [← hpc, List.map_map]
        rfl
      · change (pairs.map Prod.fst).map (fun b => blockLabel b.guestPc) = _
        rw [← hpc, List.map_map, List.map_map]
        rfl

theorem ModuleOf.printed (h : ModuleOf o cfg m) {asm : AsmBlock PReg} (ha : asm ∈ m.blocks) :
    ∃ bb ∈ cfg.blocks, PrintedAs o bb asm := by
  obtain ⟨a, -, bb, hbb, -, hp⟩ := forall₂_mem_right h.blocks ha
  exact ⟨bb, hbb, hp⟩

/-- The block that is printed for a block of the CFG. -/
theorem ModuleOf.printedFor (h : ModuleOf o cfg m) (hsound : cfg.Sound mem entry)
    {bb : BasicBlock} (hbb : bb ∈ cfg.blocks) : ∃ asm ∈ m.blocks, PrintedAs o bb asm := by
  have haddr : bb.start ∈ addresses cfg := mem_addresses.mpr (hsound.start_key hbb)
  obtain ⟨asm, hasm, bb', hbb', hstart, hp⟩ := forall₂_mem h.blocks haddr
  have hsame : cfg.blockAt bb.start = some bb := (hsound.blockAt_iff _ _).mpr ⟨hbb, rfl⟩
  rw [(hsound.blockAt_iff _ _).mpr ⟨hbb', hstart⟩] at hsame
  cases hsame
  exact ⟨asm, hasm, hp⟩

end Module

end Riscy.AArch64
