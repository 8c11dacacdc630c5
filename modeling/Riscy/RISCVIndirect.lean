import Riscy.RISCVSimulation

/-! Where the BrIndirect terminator of a lifted JALR points. It names the value of the last
emitted instruction: the link constant if nothing is written after it, and value 0 of the
block if the last instruction is the write of the link register. -/
namespace Riscy.RISCV
open IR (ValueId Payload Val)
open ByteMemory

/-- The block `body; jalr rd, off(base)` leaves for the address that JALR asks for, and `rd`
receives the link. -/
def JumpsRight (bb : BasicBlock) (body : List DecodedInst) (last : DecodedInst) (rd base : ℕ)
    (off : BitVec 64) (regs : RegFile) (mem : Memory 64) : Prop :=
  ∃ irb code before s, lift bb = .ok irb ∧ lift { bb with insts := body } = .ok code ∧
    IR.run bb.start code.insts (entryState regs.x mem) = some before ∧
    irb.run regs.x mem = some (s, .indirect ((before.regs base + off) &&& ~~~1)) ∧
    (rd ≠ 0 → s.regs rd = last.pc + 4)

/-- The values of a JALR lowered from register contents `b`. -/
def jumpValues (b off pc : BitVec 64) : List Val :=
  [i64 b, i64 off, i64 (b + off), i64 (~~~1), i64 ((b + off) &&& ~~~1), i64 (pc + 4)]

/-- How far position `n` is from the next one whose value has number 0. -/
def toZero (n : ℕ) : ℕ := (2 ^ 32 - n % 2 ^ 32) % 2 ^ 32

/-- Value 0 at the end of the block: the JALR's own value if one of its six positions from
`n` on has number 0, and otherwise the value 0 that the instructions before it left. -/
def valueZero (n : ℕ) (before : IR.State) (b off pc : BitVec 64) : Option Val :=
  ((jumpValues b off pc)[toZero n]?).or (before.env 0)

/-- The value that the first value-producing instruction computes. -/
def firstValue (start : BitVec 64) (s : IR.State) : List DecodedInst → Option Val
  | [] => none
  | i :: is =>
    ((lowering i).results start s.regs s.mem).head?.or (firstValue start s is)

/-- The value that the terminator names is the target of the jump: the link if `rd` is `x0`,
and otherwise the first value that the block computes from the registers at its entry. Only
in blocks of more than 2^32 IR instructions value 0 is a later one. -/
def NamesTarget (bb : BasicBlock) (body : List DecodedInst) (last : DecodedInst) (rd base : ℕ)
    (off : BitVec 64) (regs : RegFile) (mem : Memory 64) : Prop :=
  let entered := entryState regs.x mem
  let before := stateAfter bb.start 0 body entered
  let target := (before.regs base + off) &&& ~~~1
  if rd = 0 then last.pc + 4 = target
  else if irSize bb.insts ≤ 2 ^ 32 then firstValue bb.start entered bb.insts = some (i64 target)
  else valueZero (irSize body) before (before.regs base) off last.pc = some (i64 target)

theorem after_zero (start : BitVec 64) (n : ℕ) (s : IR.State) (rd base : ℕ)
    (off pc : BitVec 64) :
    ((Lowering.jumpReg rd base off (pc + 4)).after start n s).env 0 =
      valueZero n s (s.regs base) off pc := by
  have hz : valueAt (n + toZero n) = 0 := by
    have h : (n + (2 ^ 32 - n % 2 ^ 32) % 2 ^ 32) % 2 ^ 32 = 0 := by omega
    exact h
  have hlen : (jumpValues (s.regs base) off pc).length = 6 := rfl
  unfold valueZero
  by_cases hj : toZero n < 6
  · have he := after_env start n s (.jumpReg rd base off (pc + 4)) (i := toZero n) hj
    rw [hz] at he
    rw [he, List.getElem?_eq_getElem (by omega)]
    rfl
  · rw [List.getElem?_eq_none (by omega), Option.none_or]
    refine defineAll_frame fun i hi he => hj ?_
    change i < 6 at hi
    rw [← hz] at he
    have hmod := (valueAt_add_eq n (toZero n) i).mp he
    have hlt : toZero n < 2 ^ 32 := Nat.mod_lt _ (by omega)
    rw [Nat.mod_eq_of_lt hlt, Nat.mod_eq_of_lt (by omega)] at hmod
    omega

theorem size_pos {l : Lowering} (h : l ≠ .nothing) (start : BitVec 64) (regs : ℕ → BitVec 64)
    (mem : Memory 64) : 0 < (l.results start regs mem).length := by
  cases l <;> first | exact absurd rfl h | simp [Lowering.results]

/-- In a block of fewer than 2^32 instructions value 0 is the first value computed. -/
theorem stateAfter_zero (start : BitVec 64) (s : IR.State) (is : List DecodedInst)
    (h0 : s.env 0 = none) (hsize : irSize is ≤ 2 ^ 32) :
    (stateAfter start 0 is s).env 0 = firstValue start s is := by
  induction is with
  | nil => exact h0
  | cons i is ih =>
    rw [irSize_cons] at hsize
    rw [stateAfter, firstValue]
    by_cases hn : lowering i = .nothing
    · rw [hn]
      exact ih (by omega)
    · have hpos := size_pos hn start s.regs s.mem
      have hle := results_length_le start s.regs s.mem (lowering i)
      rw [stateAfter_frame]
      · have he := after_env start 0 s (lowering i) hpos
        rw [List.head?_eq_getElem?, List.getElem?_eq_getElem hpos]
        exact he
      · intro j hj
        change 0 ≠ (0 + (lowering i).size + j) % 2 ^ 32
        omega

/-- A block whose code has at most 2^32 instructions leaves for its first computed value,
whenever JALR writes a link register. -/
theorem valueZero_first (start : BitVec 64) (regs : ℕ → BitVec 64) (mem : Memory 64)
    {body : List DecodedInst} {last : DecodedInst} {rd base : ℕ} {off : BitVec 64}
    (hl : lowering last = .jumpReg rd base off (last.pc + 4))
    (hsize : irSize (body ++ [last]) ≤ 2 ^ 32) :
    valueZero (irSize body) (stateAfter start 0 body (entryState regs mem))
      ((stateAfter start 0 body (entryState regs mem)).regs base) off last.pc =
        firstValue start (entryState regs mem) (body ++ [last]) := by
  rw [← stateAfter_zero start (entryState regs mem) _ rfl hsize, stateAfter_snoc, hl, after_zero,
    Nat.zero_add]

theorem indirectTarget_eq {body : List DecodedInst} {last : DecodedInst} {rd base : ℕ}
    {off ra : BitVec 64} (hl : lowering last = .jumpReg rd base off ra) :
    indirectTarget (emitted 0 (body ++ [last])) =
      if rd = 0 then valueAt (irSize body + 5) else 0 := by
  rw [indirectTarget, emitted_snoc, hl, Nat.zero_add]
  by_cases h : rd = 0 <;>
    simp [Lowering.code, Lowering.values, Lowering.writes, numbered, unnumbered, writeBack, h]

theorem bitsAs_eq_some (v : Val) (t : BitVec 64) : v.bitsAs .I64 = some t ↔ v = i64 t := by
  obtain ⟨ty, x⟩ := v
  constructor
  · intro h
    unfold Val.bitsAs at h
    split_ifs at h with ht
    change ty = .I64 at ht
    subst ht
    cases h
    rfl
  · rintro ⟨⟩
    exact Val.bitsAs_mk .I64 t

theorem exitOf_indirect (v : ValueId) (s : IR.State) (t : BitVec 64) :
    IR.exitOf ⟨.BrIndirect, .brIndirect v⟩ s = some (.indirect t) ↔ s.env v = some (i64 t) := by
  simp only [IR.exitOf, IR.State.get, Option.map_eq_some_iff, Option.bind_eq_some_iff]
  constructor
  · rintro ⟨x, ⟨y, hy, hyx⟩, hx⟩
    cases hx
    rw [hy, (bitsAs_eq_some y _).mp hyx]
  · exact fun h => ⟨t, ⟨_, h, (bitsAs_eq_some _ t).mpr rfl⟩, rfl⟩

section Target
variable {reader : MemoryReader} {bb : BasicBlock} (h : WellBuilt reader bb)
include h

/-- An indirect block ends in a JALR. -/
theorem WellBuilt.indirect_last (ht : bb.term = .IndirectJump) :
    ∃ body last rd base off, bb.insts = body ++ [last] ∧ last.opcode = .JALR ∧
      last.operands = [.reg rd, .mem base off] := by
  have hs := h.shaped
  cases h with
  | @control start body last term succs hst hd he =>
    cases (hs last (by simp)).controlCase he with
    | indirect hop ho hn => exact ⟨body, last, _, _, _, rfl, hop, ho⟩
    | branch hc ho => cases ht
    | jump hop ho => cases ht
    | ret hop ho => cases ht
    | trap hop ho => cases ht
  | undecoded hst hd => cases ht
  | cut hst hne hfresh => cases ht

theorem WellBuilt.jumpsRight_iff (ht : bb.term = .IndirectJump) {body : List DecodedInst}
    {last : DecodedInst} {rd base : ℕ} {off : BitVec 64} (hb : bb.insts = body ++ [last])
    (hop : last.opcode = .JALR) (ho : last.operands = [.reg rd, .mem base off])
    (regs : RegFile) (mem : Memory 64) :
    JumpsRight bb body last rd base off regs mem ↔
      NamesTarget bb body last rd base off regs mem := by
  have hlow : lowering last = .jumpReg rd base off (last.pc + 4) := by
    simp only [lowering, ho, hop]
  have hbody : lift { bb with insts := body } = .ok ⟨bb.start, emitted 0 body,
      liftTerm { bb with insts := body } (emitted 0 body)⟩ :=
    lift_of_shaped fun i hi => h.shaped i (by rw [hb]; exact List.mem_append_left _ hi)
  have hafter : stateAfter bb.start 0 bb.insts (entryState regs.x mem) =
      (Lowering.jumpReg rd base off (last.pc + 4)).after bb.start (irSize body)
        (stateAfter bb.start 0 body (entryState regs.x mem)) := by
    rw [hb, stateAfter_snoc, hlow, Nat.zero_add]
  have hterm : liftTerm bb (emitted 0 bb.insts) =
      ⟨.BrIndirect, .brIndirect (if rd = 0 then valueAt (irSize body + 5) else 0)⟩ := by
    simp only [liftTerm, ht]
    rw [hb, indirectTarget_eq hlow]
  have hnamed : ∀ t, IR.exitOf (liftTerm bb (emitted 0 bb.insts))
      (stateAfter bb.start 0 bb.insts (entryState regs.x mem)) = some (.indirect t) ↔
        if rd = 0 then last.pc + 4 = t
        else if irSize bb.insts ≤ 2 ^ 32 then
          firstValue bb.start (entryState regs.x mem) bb.insts = some (i64 t)
        else valueZero (irSize body) (stateAfter bb.start 0 body (entryState regs.x mem))
          ((stateAfter bb.start 0 body (entryState regs.x mem)).regs base) off last.pc =
            some (i64 t) := by
    intro t
    rw [hterm, hafter, exitOf_indirect]
    by_cases h0 : rd = 0
    · rw [if_pos h0, if_pos h0, after_env _ _ _ _ (i := 5) (by simp [Lowering.results])]
      simp [Lowering.results]
    · rw [if_neg h0, if_neg h0, after_zero]
      by_cases hsize : irSize bb.insts ≤ 2 ^ 32
      · rw [if_pos hsize, hb, valueZero_first bb.start regs.x mem hlow (hb ▸ hsize)]
      · rw [if_neg hsize]
  unfold JumpsRight NamesTarget
  constructor
  · rintro ⟨irb, code, before, s, hl, hl', hr, hrun, -⟩
    rw [h.lift_eq] at hl
    rw [hbody] at hl'
    cases hl
    cases hl'
    rw [run_emitted] at hr
    cases hr
    rw [lifted_run, Option.map_eq_some_iff] at hrun
    obtain ⟨e, he, hpair⟩ := hrun
    cases hpair
    exact (hnamed _).mp he
  · intro hn
    refine ⟨_, _, _, stateAfter bb.start 0 bb.insts (entryState regs.x mem), h.lift_eq, hbody,
      run_emitted .., ?_, ?_⟩
    · rw [lifted_run, (hnamed _).mpr hn]
      rfl
    · intro h0
      rw [hafter]
      simp [Lowering.after, Lowering.regs, setReg, h0]

end Target

/-- A lifted JALR jumps right from a register file exactly if the value that its
terminator names is the target. -/
theorem indirect_target_iff {reader : MemoryReader} {entry : BitVec 64} {cfg : CFG}
    (h : Builds reader entry cfg) {bb : BasicBlock} (hbb : bb ∈ cfg.blocks)
    (ht : bb.term = .IndirectJump) :
    ∃ body last rd base off, bb.insts = body ++ [last] ∧ last.opcode = .JALR ∧
      last.operands = [.reg rd, .mem base off] ∧ ∀ regs mem,
        JumpsRight bb body last rd base off regs mem ↔
          NamesTarget bb body last rd base off regs mem := by
  have hw := h.sound.built bb hbb
  obtain ⟨body, last, rd, base, off, hb, hop, ho⟩ := hw.indirect_last ht
  exact ⟨body, last, rd, base, off, hb, hop, ho, hw.jumpsRight_iff ht hb hop ho⟩

/-- `jalr x0, 0(x6)`. -/
def jumpReader : MemoryReader := fun a => if a = 0 then some 0x00030067 else none

def jumpBlock : BasicBlock :=
  ⟨0, [⟨0, 0x00030067, .JALR, [.reg 0, .mem 6 0]⟩], .IndirectJump, []⟩

theorem jump_builds : Builds jumpReader 0 ⟨0, [jumpBlock], AList.insert 0 0 ∅⟩ := ⟨2, rfl⟩

theorem jump_target_iff : ∃ body last rd base off, jumpBlock.insts = body ++ [last] ∧
    last.opcode = .JALR ∧ last.operands = [.reg rd, .mem base off] ∧ ∀ regs mem,
      JumpsRight jumpBlock body last rd base off regs mem ↔
        NamesTarget jumpBlock body last rd base off regs mem :=
  indirect_target_iff jump_builds (List.mem_singleton_self _) rfl

/-- With `x6 = 0` the jump goes on at the next instruction instead of address 0. -/
theorem jump_not_right : ∃ reader entry cfg bb, Builds reader entry cfg ∧ bb ∈ cfg.blocks ∧
    bb.term = .IndirectJump ∧ ∃ body last rd base off regs mem, bb.insts = body ++ [last] ∧
      last.opcode = .JALR ∧ last.operands = [.reg rd, .mem base off] ∧
        ¬ JumpsRight bb body last rd base off regs mem := by
  refine ⟨jumpReader, 0, _, jumpBlock, jump_builds, List.mem_singleton_self _, rfl, [], _, 0, 6,
    0, ⟨fun _ => 0, rfl⟩, fun _ => 0, rfl, rfl, rfl, fun hj => ?_⟩
  have hw := jump_builds.sound.built jumpBlock (List.mem_singleton_self _)
  have hn := (hw.jumpsRight_iff rfl rfl rfl rfl _ _).mp hj
  have h4 : (0 : BitVec 64) + 4 = (0 + 0) &&& ~~~1 := hn
  simp at h4

end Riscy.RISCV
