import Riscy.AArch64Printed
import Riscy.RISCVDropped
import Riscy.AArch64SelectCorrect

/-! The host code of one instruction of a block. For AUIPC it adds the immediate to the
start of the block, whatever the position of the instruction. -/
namespace Riscy.AArch64
open RISCV IR

/-- The code selected for the first `n` instructions of a lifted block. -/
def selectedFirst (irb : IR.Block) (n : ℕ) : List Instr :=
  match ((irb.insts.take n).forM (selectInst irb.start)).run
      ⟨List.replicate (irb.insts.length + 1) 0, []⟩ with
  | .ok (_, s) => s.instrs
  | .error _ => []

/-- The code selected for instruction `k` of a block. -/
def hostCodeAt (bb : BasicBlock) (k : ℕ) : List Instr :=
  match lift bb with
  | .ok irb => (selectedFirst irb (liftedInsts (bb.first (k + 1))).length).drop
      (selectedFirst irb (liftedInsts (bb.first k)).length).length
  | .error _ => []

/-- From every host state with the state pointer in `x0`, the code of instruction `k`
leaves `value` in guest register `rd`. -/
def LeavesReg (bb : BasicBlock) (k rd : ℕ) (value : BitVec 64) : Prop :=
  ∀ h : Host VName, h.r (.phys 0) = h.addr → ∃ lines h',
    printInstrs .phys (fun v => .ok (.virt v)) (hostCodeAt bb k) = .ok lines ∧
      runLines (.phys 0) lines h = some h' ∧ h'.words rd = value

theorem selectedFirst_eq {irb : IR.Block} (h : Mapped irb) (n : ℕ) :
    selectedFirst irb n =
      (selectedAll irb.start (irb.insts.length + 1) (irb.insts.take n)).map Instr.wrap := by
  have hall : Emits ((irb.insts.take n).forM (selectInst irb.start)) _ _ _ _ :=
    selectAll_emits fun i hi => h.insts i (List.mem_of_mem_take hi)
  have hzero : VmapOk (List.replicate (irb.insts.length + 1) 0) := fun i v hv =>
    Or.inl (List.eq_of_mem_replicate (List.mem_of_getElem? hv))
  obtain ⟨s, hr, -, -, hi⟩ :=
    hall ⟨List.replicate (irb.insts.length + 1) 0, []⟩ hzero (List.length_replicate ..)
  simp only [selectedFirst, hr]
  rw [hi, List.nil_append]

section Block
variable {mem : MemoryReader} {bb : BasicBlock}

/-- Instruction `k` is selected behind the code of the instructions before it. -/
theorem hostCodeAt_eq (h : WellBuilt mem bb) {k : ℕ} (hk : k < bb.insts.length) :
    hostCodeAt bb k = (segment bb.start (irSize (bb.insts.take k))
      (irSize bb.insts + 1 + addrCounts (bb.insts.take k)) (lowering bb.insts[k])).map
        Instr.wrap := by
  have hfirst : ∀ j, selectedFirst (lifted bb) (liftedInsts (bb.first j)).length =
      (selectedAll bb.start (irSize bb.insts + 1) (emitted 0 (bb.insts.take j))).map
        Instr.wrap := by
    intro j
    have htake : (lifted bb).insts.take (liftedInsts (bb.first j)).length =
        emitted 0 (bb.insts.take j) := by
      change (emitted 0 bb.insts).take _ = _
      rw [h.liftedInsts_first]
      nth_rewrite 2 [← List.take_append_drop j bb.insts]
      rw [emitted_append, List.take_left]
    rw [selectedFirst_eq (lifted_mapped bb), htake, lifted_length]
    rfl
  simp only [hostCodeAt, h.lift_eq]
  change (selectedFirst (lifted bb) _).drop (selectedFirst (lifted bb) _).length = _
  rw [hfirst, hfirst, List.take_succ_eq_append_getElem hk, emitted_snoc, selectedAll_append,
    List.map_append, List.drop_left, tempCount_emitted, Nat.zero_add]
  rfl

end Block

section Auipc

/-- The virtual register that a number wraps to. -/
def wrapName : VName → VName
  | .virt v => .virt (v % 2 ^ 32)
  | .phys p => .phys p

theorem constLines_wrap (d : VName) (v : BitVec 64) :
    (constLines d v).map (Line.map wrapName) = constLines (wrapName d) v := by
  have hk : ∀ part lsl, (movkLine d part lsl).map (Line.map wrapName) =
      movkLine (wrapName d) part lsl := by
    intro part lsl
    unfold movkLine
    split_ifs <;> rfl
  unfold constLines
  split_ifs
  · rfl
  · rw [List.map_append, List.map_append, List.map_append, hk, hk, hk]
    rfl

/-- Selected code is printed over virtual registers under their wrapped numbers. -/
theorem print_wrapped (start : BitVec 64) (k : ℕ) (is : List IR.Instr) :
    printInstrs .phys (fun v => .ok (.virt v)) ((selectedAll start k is).map Instr.wrap) =
      .ok ((linesAll start k is).map (Line.map wrapName)) := by
  rw [printInstrs_wrap fun i hi => selectedAll_based hi]
  exact (prints_selectedAll (f := wrapName) (fun p => rfl) fun c _ v _ => rfl).printInstrs

/-- Registers of values whose numbers differ by less than 2^32. -/
theorem wrapName_value_ne (n : ℕ) {i j : ℕ} (hi : i < 2 ^ 32) (hj : j < 2 ^ 32) (hij : i ≠ j) :
    wrapName (valueName (valueAt (n + i))) ≠ wrapName (valueName (valueAt (n + j))) := by
  intro he
  have hreg : ((n + i) % 2 ^ 32 + 1) % 2 ^ 32 = ((n + j) % 2 ^ 32 + 1) % 2 ^ 32 :=
    VName.virt.inj he
  omega

/-- Two constants are added and the sum is stored in a guest register. -/
theorem run_add_store {a b c : VName} {rd : ℕ} {x y : BitVec 64} {h : Host VName} (hrd : rd < 32)
    (hx : h.r (.phys 0) = h.addr) (hab : a ≠ b) (ha : .phys 0 ≠ a) (hb : .phys 0 ≠ b)
    (hc : .phys 0 ≠ c) :
    ∃ h', runLines (.phys 0) (.movImm a x :: (constLines b y ++
      [.alu .add c a b, .str .x c (.phys 0) (guestRegOffsetBytes rd)])) h = some h' ∧
        h'.words rd = x + y := by
  rw [runLines_cons, Line.exec, Option.bind_some, runLines_append, run_constLines,
    Option.bind_some]
  have hsum : (Line.alu .add c a b).exec (.phys 0) ((h.set a x).set b y) =
      some (((h.set a x).set b y).set c (x + y)) := by
    rw [Line.exec, Host.set_ne _ _ _ hab, Host.set_self, Host.set_self]
    rfl
  have hptr : (((h.set a x).set b y).set c (x + y)).r (.phys 0) = h.addr := by
    rw [Host.set_ne _ _ _ hc, Host.set_ne _ _ _ hb, Host.set_ne _ _ _ ha, hx]
  rw [runLines_cons, hsum, Option.bind_some, runLines_cons, Line.exec, if_pos rfl,
    if_pos ⟨hptr, rfl⟩, structWord_guestReg hrd]
  refine ⟨_, rfl, ?_⟩
  rw [Host.set_self]
  exact Function.update_self ..

/-- The code of AUIPC adds the immediate to the start of the block. -/
theorem run_auipc (start : BitVec 64) (n k : ℕ) {rd : ℕ} (imm : BitVec 64) (hrd : rd < 32)
    (h0 : rd ≠ 0) {h : Host VName} (hx : h.r (.phys 0) = h.addr) :
    ∃ h', runLines (.phys 0) ((linesAll start k ((Lowering.auipc rd imm).code n)).map
      (Line.map wrapName)) h = some h' ∧ h'.words rd = start + imm := by
  have hcode : (Lowering.auipc rd imm).code n =
      [⟨some (valueAt n), .GetPC⟩, ⟨some (valueAt (n + 1)), .Const .I64 imm⟩,
        ⟨some (valueAt (n + 2)), .BinOp .Add (valueAt n) (valueAt (n + 1)) .I64⟩,
        ⟨none, .WriteReg rd (valueAt (n + 2))⟩] := by
    rw [Lowering.code, Lowering.writes, writeBack, if_neg h0]
    rfl
  have hlines : (linesAll start k ((Lowering.auipc rd imm).code n)).map (Line.map wrapName) =
      .movImm (wrapName (valueName (valueAt n))) start ::
        (constLines (wrapName (valueName (valueAt (n + 1)))) imm ++
          [.alu .add (wrapName (valueName (valueAt (n + 2)))) (wrapName (valueName (valueAt n)))
            (wrapName (valueName (valueAt (n + 1)))),
          .str .x (wrapName (valueName (valueAt (n + 2)))) (.phys 0)
            (guestRegOffsetBytes rd)]) := by
    rw [hcode, ← constLines_wrap]
    simp only [linesAll, selectedLines, List.map_append, List.map_cons, List.map_nil,
      List.append_nil]
    rfl
  have hne : ∀ v, VName.phys 0 ≠ wrapName (valueName v) := fun v => VName.noConfusion
  rw [hlines]
  have hvalues := wrapName_value_ne n (i := 0) (j := 1) (by omega) (by omega) (by omega)
  exact run_add_store hrd hx hvalues (hne _) (hne _) (hne _)

variable {mem : MemoryReader} {entry : BitVec 64} {cfg : CFG} {bb : BasicBlock}

/-- Whatever its position, AUIPC leaves the start of the block plus the immediate. -/
theorem auipc_leaves_start (h : WellBuilt mem bb) {k rd : ℕ} {imm : BitVec 64}
    (hk : k < bb.insts.length) (hop : bb.insts[k].opcode = .AUIPC)
    (ho : bb.insts[k].operands = [.reg rd, .imm imm]) (h0 : rd ≠ 0) :
    LeavesReg bb k rd (bb.start + imm) := by
  have hrd : rd < 32 := by
    have hs := decodeNext_shaped (h.decoded k hk)
    generalize bb.insts[k] = inst at hs hop ho
    cases hs <;> simp_all
  have hlow : lowering bb.insts[k] = .auipc rd imm := by
    rw [lowering, ho]
    simp [hop]
  intro s hx
  obtain ⟨s', hr, hw⟩ := run_auipc bb.start (irSize (bb.insts.take k)) _ imm hrd h0 hx
  refine ⟨_, s', ?_, hr, hw⟩
  rw [hostCodeAt_eq h hk, hlow]
  exact print_wrapped ..

theorem LeavesReg.unique {k rd : ℕ} {v w : BitVec 64} (hv : LeavesReg bb k rd v)
    (hw : LeavesReg bb k rd w) : v = w := by
  let h : Host VName := ⟨fun _ => 0, ⟨false, false, false, false⟩, 0, fun _ => 0, fun _ => 0⟩
  obtain ⟨lines, h₁, hp, hr, hv⟩ := hv h rfl
  obtain ⟨lines', h₂, hp', hr', hw⟩ := hw h rfl
  rw [hp] at hp'
  cases hp'
  rw [hr] at hr'
  cases hr'
  exact hv.symm.trans hw

/-- AUIPC leaves its own address plus the immediate exactly at the start of a block. -/
theorem auipc_leaves_iff (h : Builds mem entry cfg) (hb : bb ∈ cfg.blocks) {k rd : ℕ}
    {imm : BitVec 64} (hk : k < bb.insts.length) (hop : bb.insts[k].opcode = .AUIPC)
    (ho : bb.insts[k].operands = [.reg rd, .imm imm]) (h0 : rd ≠ 0) :
    LeavesReg bb k rd (addrAt bb.start k + imm) ↔ k = 0 := by
  have hwell := h.sound.built bb hb
  have hstart := auipc_leaves_start hwell hk hop ho h0
  constructor
  · intro hl
    have haddr : addrAt bb.start k = addrAt bb.start 0 := by
      rw [addrAt_zero]
      exact (BitVec.add_left_inj _).mp (hl.unique hstart)
    have hlen := hwell.length_le
    exact addrAt_inj (by omega) (by omega) haddr
  · rintro rfl
    rw [addrAt_zero]
    exact hstart

/-- Two AUIPC and an ECALL. -/
def pairReader : MemoryReader := fun a =>
  if a = 0 then some 0x00000097
  else if a = 4 then some 0x00000117
  else if a = 8 then some 0x00000073
  else none

def pairBlock : BasicBlock :=
  ⟨0, [⟨0, 0x00000097, .AUIPC, [.reg 1, .imm 0]⟩, ⟨4, 0x00000117, .AUIPC, [.reg 2, .imm 0]⟩,
    ⟨8, 0x00000073, .ECALL, []⟩], .Trap, []⟩

def pairCFG : CFG := ⟨0, [pairBlock], (∅ : AddrIndex).insert 0 0⟩

theorem pair_builds : Builds pairReader 0 pairCFG := ⟨4, rfl⟩

theorem pair_leaves_iff : (LeavesReg pairBlock 0 1 (addrAt 0 0 + 0) ↔ 0 = 0) ∧
    (LeavesReg pairBlock 1 2 (addrAt 0 1 + 0) ↔ 1 = 0) :=
  ⟨auipc_leaves_iff pair_builds (List.mem_singleton_self _) (by decide) rfl rfl (by decide),
    auipc_leaves_iff pair_builds (List.mem_singleton_self _) (by decide) rfl rfl (by decide)⟩

/-- The second AUIPC leaves 0 where its own address is 4. -/
theorem second_auipc_not_relative : ¬ ∀ (mem : MemoryReader) entry cfg bb, Builds mem entry cfg →
    bb ∈ cfg.blocks → ∀ k rd imm, (∃ inst, bb.insts[k]? = some inst ∧ inst.opcode = .AUIPC ∧
      inst.operands = [.reg rd, .imm imm]) → rd ≠ 0 →
        LeavesReg bb k rd (addrAt bb.start k + imm) := by
  intro h
  have hclaim := h _ _ _ _ pair_builds (List.mem_singleton_self pairBlock) 1 2 0
    ⟨_, rfl, rfl, rfl⟩ (by decide)
  have hwell := pair_builds.sound.built _ (List.mem_singleton_self pairBlock)
  have hcode := auipc_leaves_start hwell (k := 1) (by decide) rfl rfl (by decide)
  exact absurd (hclaim.unique hcode) (by decide)

end Auipc

end Riscy.AArch64
