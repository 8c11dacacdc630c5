import Riscy.RISCVSimulation

/-! Which instructions of a block have their effect in the lifted code. The lifter emits
nothing for the opcodes of its `default`, and AUIPC reads the block's start. -/
namespace Riscy.RISCV
open IR (Payload)
open ByteMemory

def liftedInsts (bb : BasicBlock) : List IR.Instr :=
  match lift bb with
  | .ok irb => irb.insts
  | .error _ => []

/-- What the lifter emits for instruction `k` of a block. -/
def BasicBlock.codeAt (bb : BasicBlock) (k : ℕ) : List IR.Instr :=
  (liftedInsts (bb.first (k + 1))).drop (liftedInsts (bb.first k)).length

/-- What the lifter emits after the first `k` instructions of a block. -/
def BasicBlock.codeFrom (bb : BasicBlock) (k : ℕ) : List IR.Instr :=
  (liftedInsts bb).drop (liftedInsts (bb.first k)).length

/-- From every register file and memory, the code of instruction `k` has the effect that
the reference gives to `inst`. -/
def GivesEffect (bb : BasicBlock) (k : ℕ) (inst : DecodedInst) : Prop :=
  ∀ (m m' : Machine) env, m.pc = inst.pc → execute inst m = some m' →
    ∃ s, IR.run bb.start (bb.codeAt k) ⟨m.regs.x, m.mem, env⟩ = some s ∧
      s.regs = m'.regs.x ∧ s.mem = m'.mem

def isWrite : Payload → Bool
  | .WriteReg .. | .Store .. => true
  | _ => false

/-- The block ends with Trap, and nothing after instruction `k` writes a register or
memory. -/
def StopsBefore (bb : BasicBlock) (k : ℕ) : Prop :=
  (∃ irb, lift bb = .ok irb ∧ irb.term.kind = .Trap) ∧
    ∀ i ∈ bb.codeFrom (k + 1), isWrite i.payload = false

/-- Instruction `k` of the block, `inst`, is not silently dropped. -/
def Handled (bb : BasicBlock) (k : ℕ) (inst : DecodedInst) : Prop :=
  GivesEffect bb k inst ∨ StopsBefore bb k

/-- The destination register is x0. -/
def destX0 (inst : DecodedInst) : Prop := inst.operands.head? = some (.reg 0)

/-- Neither a register nor memory is written for the instruction. -/
def Inert (inst : DecodedInst) : Prop :=
  inst.opcode ∈ dropped ∨ destX0 inst ∨ inst.opcode ∈ [Opcode.FENCE, .ECALL, .EBREAK]

/-- The instruction at position `k` of the block has a complete lowering, or none is
needed. -/
def Covered (bb : BasicBlock) (k : ℕ) (inst : DecodedInst) : Prop :=
  (inst.opcode ∉ dropped ∧ (inst.opcode = .AUIPC → k = 0)) ∨ destX0 inst ∨
    (bb.term = .Trap ∧ ∀ i ∈ bb.insts.drop (k + 1), Inert i)

section Code
variable {reader : MemoryReader} {bb : BasicBlock} (h : WellBuilt reader bb)
include h

theorem WellBuilt.liftedInsts_first (k : ℕ) :
    liftedInsts (bb.first k) = emitted 0 (bb.insts.take k) := by
  simp only [liftedInsts, h.first_lift k]

theorem WellBuilt.codeAt_eq {k : ℕ} (hk : k < bb.insts.length) :
    bb.codeAt k = (lowering bb.insts[k]).code (irSize (bb.insts.take k)) := by
  rw [BasicBlock.codeAt, h.liftedInsts_first, h.liftedInsts_first,
    List.take_succ_eq_append_getElem hk, emitted_snoc, List.drop_left, Nat.zero_add]

theorem WellBuilt.codeFrom_eq (k : ℕ) :
    bb.codeFrom k = emitted (irSize (bb.insts.take k)) (bb.insts.drop k) := by
  have hl : liftedInsts bb = emitted 0 (bb.insts.take k ++ bb.insts.drop k) := by
    rw [List.take_append_drop]
    simp only [liftedInsts, h.lift_eq]
  rw [BasicBlock.codeFrom, hl, h.liftedInsts_first, emitted_append, List.drop_left,
    emitted_length, Nat.zero_add]

/-- The effect of the code at a position, whatever the values before it. -/
theorem WellBuilt.givesEffect_iff {k : ℕ} (hk : k < bb.insts.length) :
    GivesEffect bb k bb.insts[k] ↔ ∀ m m' : Machine, m.pc = bb.insts[k].pc →
      execute bb.insts[k] m = some m' →
        (lowering bb.insts[k]).regs bb.start m.regs.x m.mem = m'.regs.x ∧
          (lowering bb.insts[k]).mem m.regs.x m.mem = m'.mem := by
  unfold GivesEffect
  rw [h.codeAt_eq hk]
  constructor
  · intro hg m m' hpc he
    obtain ⟨s, hr, hregs, hmem⟩ := hg m m' (fun _ => none) hpc he
    rw [run_code] at hr
    cases hr
    exact ⟨hregs, hmem⟩
  · intro hg m m' env hpc he
    exact ⟨_, run_code .., hg m m' hpc he⟩

end Code

theorem numbered_silent {n m : ℕ} {l : Lowering} :
    ∀ i ∈ numbered m (l.values n), isWrite i.payload = false := by
  cases l with
  | alu k rd rs1 src => cases src <;> simp [Lowering.values, numbered, isWrite, Source.payload]
  | addWord rd rs1 src => cases src <;> simp [Lowering.values, numbered, isWrite, Source.payload]
  | loadWord signed rd base off => cases signed <;> simp [Lowering.values, numbered, isWrite]
  | _ => simp [Lowering.values, numbered, isWrite]

theorem writes_isWrite {n : ℕ} {l : Lowering} {p : Payload} (h : p ∈ l.writes n) :
    isWrite p = true := by
  have hw : ∀ {rd v}, p ∈ writeBack rd v → isWrite p = true := by
    intro rd v hp
    unfold writeBack at hp
    split_ifs at hp
    · exact absurd hp List.not_mem_nil
    · rw [List.mem_singleton.mp hp]
      rfl
  cases l with
  | store ty base rs off =>
    rw [List.mem_singleton.mp h]
    rfl
  | compare c r s => exact absurd h List.not_mem_nil
  | nothing => exact absurd h List.not_mem_nil
  | _ => exact hw h

theorem writes_nil {n : ℕ} {l : Lowering} (h : l.writes n = []) (m : ℕ) : l.writes m = [] := by
  cases l <;> simp_all [Lowering.writes, writeBack]

theorem code_silent_iff (n : ℕ) (l : Lowering) :
    (∀ i ∈ l.code n, isWrite i.payload = false) ↔ l.writes 0 = [] := by
  constructor
  · intro h
    refine writes_nil (n := n) (List.eq_nil_iff_forall_not_mem.mpr fun p hp => ?_) 0
    have hf := h ⟨none, p⟩ (List.mem_append_right _ (List.mem_map.mpr ⟨p, hp, rfl⟩))
    rw [writes_isWrite hp] at hf
    cases hf
  · intro h i hi
    rw [Lowering.code, writes_nil h n, unnumbered, List.map_nil, List.append_nil] at hi
    exact numbered_silent i hi

theorem emitted_silent_iff (n : ℕ) (is : List DecodedInst) :
    (∀ i ∈ emitted n is, isWrite i.payload = false) ↔ ∀ i ∈ is, (lowering i).writes 0 = [] := by
  induction is generalizing n with
  | nil => simp [emitted]
  | cons j is ih =>
    rw [emitted_cons, List.forall_mem_append, code_silent_iff, ih, List.forall_mem_cons]

theorem writes_nil_iff {inst : DecodedInst} (hs : Shaped inst) (hc : condOf inst.opcode = none) :
    (lowering inst).writes 0 = [] ↔ Inert inst := by
  cases hs with
  | regImm pc raw op rd i hop hrd =>
    simp only [List.mem_cons, List.not_mem_nil, or_false] at hop
    rcases hop with rfl | rfl | rfl <;>
      simp [lowering, Lowering.writes, writeBack, Inert, dropped, destX0]
  | regMem pc raw op rd base off hop hrd hbase =>
    simp only [List.mem_cons, List.not_mem_nil, or_false] at hop
    rcases hop with rfl | rfl | rfl | rfl | rfl | rfl | rfl | rfl <;>
      simp [lowering, Lowering.writes, writeBack, Inert, dropped, destX0]
  | memReg pc raw op base rs off hop hbase hrs =>
    simp only [List.mem_cons, List.not_mem_nil, or_false] at hop
    rcases hop with rfl | rfl | rfl | rfl <;>
      simp [lowering, Lowering.writes, Inert, dropped, destX0]
  | regRegImm pc raw op r t i hop hr ht =>
    simp only [List.mem_cons, List.not_mem_nil, or_false] at hop
    rcases hop with rfl | rfl | rfl | rfl | rfl | rfl | rfl | rfl | rfl | rfl | rfl | rfl |
      rfl | rfl | rfl | rfl | rfl | rfl | rfl <;>
      first
        | (cases hc; done)
        | simp [lowering, condOf, aluLowering, binKind, Lowering.writes, writeBack, Inert, dropped,
            destX0]
  | regRegReg pc raw op rd rs1 rs2 hop hrd hrs1 hrs2 =>
    simp only [List.mem_cons, List.not_mem_nil, or_false] at hop
    rcases hop with rfl | rfl | rfl | rfl | rfl | rfl | rfl | rfl | rfl | rfl | rfl | rfl |
      rfl | rfl | rfl <;>
      simp [lowering, aluLowering, binKind, Lowering.writes, writeBack, Inert, dropped, destX0]
  | bare pc raw op hop =>
    simp only [List.mem_cons, List.not_mem_nil, or_false] at hop
    rcases hop with rfl | rfl | rfl <;> simp [lowering, Lowering.writes, Inert]

theorem WellBuilt.trap_members {reader : MemoryReader} {bb : BasicBlock} (h : WellBuilt reader bb)
    (ht : bb.term = .Trap) : ∀ i ∈ bb.insts, condOf i.opcode = none := by
  intro i hi
  obtain ⟨k, hk, rfl⟩ := List.getElem_of_mem hi
  cases (h.shaped _ hi).exitCase with
  | branch c r s i hc ho he =>
    obtain ⟨-, hterm, -⟩ := h.exit hk he
    rw [ht] at hterm
    cases hterm
  | jump rd i hop ho he => rw [hop]; rfl
  | indirect rd base off hop ho hn he => rw [hop]; rfl
  | ret hop ho he => rw [hop]; rfl
  | trap hop ho he => rcases hop with hop | hop <;> rw [hop] <;> rfl
  | inner hc hop he => exact hc

theorem WellBuilt.stopsBefore_iff {reader : MemoryReader} {bb : BasicBlock}
    (h : WellBuilt reader bb) (k : ℕ) :
    StopsBefore bb k ↔ bb.term = .Trap ∧ ∀ i ∈ bb.insts.drop (k + 1), Inert i := by
  have hterm : (∃ irb, lift bb = .ok irb ∧ irb.term.kind = .Trap) ↔ bb.term = .Trap := by
    rw [h.lift_eq]
    constructor
    · rintro ⟨irb, hl, ht⟩
      cases hl
      unfold liftTerm at ht
      split at ht <;> first | assumption | cases ht
    · intro ht
      exact ⟨_, rfl, by simp [liftTerm, ht]⟩
  unfold StopsBefore
  rw [hterm, h.codeFrom_eq, emitted_silent_iff]
  refine and_congr_right fun ht => forall₂_congr fun i hi => ?_
  have hmem := List.mem_of_mem_drop hi
  exact writes_nil_iff (h.shaped i hmem) (h.trap_members ht i hmem)

/-- A register file with `c` in every register but x0. -/
def spread (c : BitVec 64) : RegFile := ⟨fun r => if r = 0 then 0 else c, rfl⟩

theorem spread_put {pc c v : BitVec 64} {mem : Memory 64} {rd : ℕ} (hrd : rd ≠ 0) (hv : v ≠ c) :
    ¬ ((Machine.mk pc (spread c) mem).regs.x = ((Machine.mk pc (spread c) mem).put rd v).regs.x ∧
      mem = ((Machine.mk pc (spread c) mem).put rd v).mem) := by
  rintro ⟨hregs, -⟩
  have hat := congrFun hregs rd
  simp only [Machine.put, set_x_eq_setReg, setReg, if_neg hrd, Function.update_self, spread] at hat
  exact hv hat.symm

/-- No sign-extended field of up to 32 bits is the 33rd power of two. -/
theorem signExtend_ne {w : ℕ} (hw : w ≤ 32) (x : BitVec w) : x.signExtend 64 ≠ 1#64 <<< 32 := by
  intro h
  have hi := congrArg BitVec.toInt h
  rw [BitVec.toInt_signExtend_of_le (by omega)] at hi
  have hlt := BitVec.two_mul_toInt_lt (x := x)
  have hpow : (2 : ℤ) ^ w ≤ 2 ^ 32 := by
    exact_mod_cast Nat.pow_le_pow_right (by omega) hw
  have hc : (1#64 <<< 32).toInt = 2 ^ 32 := rfl
  omega

theorem ofNat_ne {v : ℕ} (h : v < 2 ^ 32) : BitVec.ofNat 64 v ≠ 1#64 <<< 32 := by
  intro he
  have ht := congrArg BitVec.toNat he
  have hc : (1#64 <<< 32).toNat = 2 ^ 32 := rfl
  rw [BitVec.toNat_ofNat, hc] at ht
  omega

theorem dropped_alu_ne {op : Opcode} {f : BitVec 64 → BitVec 64 → BitVec 64}
    (h : alu op = some f) (hd : op ∈ dropped) (a b : BitVec 64) : f a b ≠ 1#64 <<< 32 := by
  have hflag : ∀ c : Bool, (if c then 1 else 0 : BitVec 64) ≠ 1#64 <<< 32 := by
    intro c
    cases c <;> simp
  simp only [dropped, List.mem_cons, List.not_mem_nil, or_false] at hd
  rcases hd with rfl | rfl | rfl | rfl | rfl | rfl | rfl | rfl | rfl | rfl | rfl | rfl | rfl |
    rfl | rfl | rfl | rfl | rfl <;> cases h <;>
    first | exact hflag _ | exact signExtend_ne le_rfl _

theorem dropped_load_ne {op : Opcode} {mem : Memory 64} {a v : BitVec 64}
    (h : loaded mem a op = some v) (hd : op ∈ dropped) : v ≠ 1#64 <<< 32 := by
  have h1 := read_lt mem a 1
  have h2 := read_lt mem a 2
  simp only [dropped, List.mem_cons, List.not_mem_nil, or_false] at hd
  rcases hd with rfl | rfl | rfl | rfl | rfl | rfl | rfl | rfl | rfl | rfl | rfl | rfl | rfl |
    rfl | rfl | rfl | rfl | rfl <;> cases h
  · exact signExtend_ne (by omega) _
  · exact signExtend_ne (by omega) _
  · exact ofNat_ne (by omega)
  · exact ofNat_ne (by omega)

/-- A dropped instruction shows on some register file and memory, unless it writes x0. -/
theorem dropped_visible {inst : DecodedInst} (hs : Shaped inst) (hd : inst.opcode ∈ dropped)
    (hx : ¬ destX0 inst) : ∃ m m' : Machine, m.pc = inst.pc ∧ execute inst m = some m' ∧
      ¬ (m.regs.x = m'.regs.x ∧ m.mem = m'.mem) := by
  cases hs with
  | regImm pc raw op rd i hop hrd =>
    simp only [List.mem_cons, List.not_mem_nil, or_false] at hop
    have h0 : rd ≠ 0 := fun h => hx (by rw [h]; rfl)
    rcases hop with rfl | rfl | rfl
    · refine ⟨⟨pc, spread (i + 1), fun _ => 0⟩, _, rfl, rfl, spread_put h0 fun h => ?_⟩
      exact absurd (left_eq_add.mp h) (by simp)
    · simp [dropped] at hd
    · simp [dropped] at hd
  | regMem pc raw op rd base off hop hrd hbase =>
    have h0 : rd ≠ 0 := fun h => hx (by rw [h]; rfl)
    have hj : op ≠ .JALR := by
      rintro rfl
      simp [dropped] at hd
    obtain ⟨v, hv⟩ : ∃ v, loaded (fun _ => 0) ((spread (1#64 <<< 32)).x base + off) op =
        some v := by
      simp only [List.mem_cons, List.not_mem_nil, or_false] at hop
      rcases hop with rfl | rfl | rfl | rfl | rfl | rfl | rfl | rfl <;>
        first | exact absurd rfl hj | exact ⟨_, rfl⟩
    refine ⟨⟨pc, spread (1#64 <<< 32), fun _ => 0⟩, Machine.put _ rd v, rfl, ?_,
      spread_put h0 (dropped_load_ne hv hd)⟩
    simp only [execute, if_neg hj, hv, Option.map_some]
  | memReg pc raw op base rs off hop hbase hrs =>
    have hzero : ∀ r, (spread 0).x r = 0 := fun r => by simp [spread]
    have hwrite : ∀ n, 0 < n → n ≤ 2 → (fun _ => 1) ≠ write (fun _ => 1) (0 + off) 0 n := by
      intro n hn hn2 h
      have hat := congrFun h (0 + off)
      obtain rfl | rfl : n = 1 ∨ n = 2 := by omega
      · simp [write] at hat
      · simp [write] at hat
    simp only [List.mem_cons, List.not_mem_nil, or_false] at hop
    rcases hop with rfl | rfl | rfl | rfl
    · refine ⟨⟨pc, spread 0, fun _ => 1⟩, _, rfl, rfl, fun h => hwrite 1 (by omega) (by omega) ?_⟩
      have hm := h.2
      simp only [hzero] at hm
      exact hm
    · refine ⟨⟨pc, spread 0, fun _ => 1⟩, _, rfl, rfl, fun h => hwrite 2 (by omega) (by omega) ?_⟩
      have hm := h.2
      simp only [hzero] at hm
      exact hm
    · simp [dropped] at hd
    · simp [dropped] at hd
  | regRegImm pc raw op r t i hop hr ht =>
    have h0 : r ≠ 0 := fun h => hx (by rw [h]; rfl)
    obtain ⟨hb, f, hf⟩ : branchTaken op = none ∧ ∃ f, alu op = some f := by
      simp only [List.mem_cons, List.not_mem_nil, or_false] at hop
      rcases hop with rfl | rfl | rfl | rfl | rfl | rfl | rfl | rfl | rfl | rfl | rfl | rfl |
        rfl | rfl | rfl | rfl | rfl | rfl | rfl <;>
        first | exact ⟨rfl, _, rfl⟩ | simp [dropped] at hd
    refine ⟨⟨pc, spread (1#64 <<< 32), fun _ => 0⟩, Machine.put _ r _, rfl, ?_,
      spread_put h0 (dropped_alu_ne hf hd ((spread (1#64 <<< 32)).x t) i)⟩
    simp only [execute, hb, hf, Option.map_some]
  | regRegReg pc raw op rd rs1 rs2 hop hrd hrs1 hrs2 =>
    have h0 : rd ≠ 0 := fun h => hx (by rw [h]; rfl)
    obtain ⟨f, hf⟩ : ∃ f, alu op = some f := by
      simp only [List.mem_cons, List.not_mem_nil, or_false] at hop
      rcases hop with rfl | rfl | rfl | rfl | rfl | rfl | rfl | rfl | rfl | rfl | rfl | rfl |
        rfl | rfl | rfl <;> exact ⟨_, rfl⟩
    refine ⟨⟨pc, spread (1#64 <<< 32), fun _ => 0⟩, Machine.put _ rd _, rfl, ?_,
      spread_put h0 (dropped_alu_ne hf hd ((spread (1#64 <<< 32)).x rs1)
        ((spread (1#64 <<< 32)).x rs2))⟩
    simp only [execute, hf, Option.map_some]
  | bare pc raw op hop =>
    simp only [List.mem_cons, List.not_mem_nil, or_false] at hop
    rcases hop with rfl | rfl | rfl <;> simp [dropped] at hd

/-- An instruction for x0 leaves registers and memory alone. -/
theorem destX0_effect {inst : DecodedInst} {m m' : Machine} (hx : destX0 inst)
    (hs : Shaped inst) (hd : inst.opcode ∈ dropped) (h : execute inst m = some m') :
    m.regs.x = m'.regs.x ∧ m.mem = m'.mem := by
  have hput : ∀ v, m.regs.x = (m.put 0 v).regs.x ∧ m.mem = (m.put 0 v).mem := fun v => ⟨rfl, rfl⟩
  cases hs with
  | regImm pc raw op rd i hop hrd =>
    cases hx
    simp only [List.mem_cons, List.not_mem_nil, or_false] at hop
    rcases hop with rfl | rfl | rfl
    · cases h
      exact hput _
    · simp [dropped] at hd
    · simp [dropped] at hd
  | regMem pc raw op rd base off hop hrd hbase =>
    cases hx
    simp only [execute] at h
    split_ifs at h with hj
    · simp [hj, dropped] at hd
    · obtain ⟨v, -, rfl⟩ := Option.map_eq_some_iff.mp h
      exact hput v
  | memReg pc raw op base rs off hop hbase hrs => cases hx
  | regRegImm pc raw op r t i hop hr ht =>
    cases hx
    simp only [execute] at h
    split at h
    · cases h
      exact ⟨rfl, rfl⟩
    · obtain ⟨v, -, rfl⟩ := Option.map_eq_some_iff.mp h
      exact hput _
  | regRegReg pc raw op rd rs1 rs2 hop hrd hrs1 hrs2 =>
    cases hx
    obtain ⟨v, -, rfl⟩ := Option.map_eq_some_iff.mp h
    exact hput _
  | bare pc raw op hop => cases hx

theorem dropped_lowering {inst : DecodedInst} (hs : Shaped inst) (hd : inst.opcode ∈ dropped) :
    lowering inst = .nothing := by
  cases hs with
  | regImm pc raw op rd i hop hrd =>
    simp only [List.mem_cons, List.not_mem_nil, or_false] at hop
    rcases hop with rfl | rfl | rfl <;> first | rfl | simp [dropped] at hd
  | regMem pc raw op rd base off hop hrd hbase =>
    simp only [List.mem_cons, List.not_mem_nil, or_false] at hop
    rcases hop with rfl | rfl | rfl | rfl | rfl | rfl | rfl | rfl <;>
      first | rfl | simp [dropped] at hd
  | memReg pc raw op base rs off hop hbase hrs =>
    simp only [List.mem_cons, List.not_mem_nil, or_false] at hop
    rcases hop with rfl | rfl | rfl | rfl <;> first | rfl | simp [dropped] at hd
  | regRegImm pc raw op r t i hop hr ht =>
    simp only [List.mem_cons, List.not_mem_nil, or_false] at hop
    rcases hop with rfl | rfl | rfl | rfl | rfl | rfl | rfl | rfl | rfl | rfl | rfl | rfl |
      rfl | rfl | rfl | rfl | rfl | rfl | rfl <;> first | rfl | simp [dropped] at hd
  | regRegReg pc raw op rd rs1 rs2 hop hrd hrs1 hrs2 =>
    simp only [List.mem_cons, List.not_mem_nil, or_false] at hop
    rcases hop with rfl | rfl | rfl | rfl | rfl | rfl | rfl | rfl | rfl | rfl | rfl | rfl |
      rfl | rfl | rfl <;> first | rfl | simp [dropped] at hd
  | bare pc raw op hop => rfl

/-- AUIPC adds to the address of the block, which is its own address only at position 0. -/
theorem auipc_effect_iff {inst : DecodedInst} {start : BitVec 64} {k : ℕ} (hs : Shaped inst)
    (hop : inst.opcode = .AUIPC) (hpc : inst.pc = addrAt start k) (hk : k < 2 ^ 62) :
    (∀ m m' : Machine, m.pc = inst.pc → execute inst m = some m' →
      (lowering inst).regs start m.regs.x m.mem = m'.regs.x ∧
        (lowering inst).mem m.regs.x m.mem = m'.mem) ↔ k = 0 ∨ destX0 inst := by
  cases hs with
  | regImm pc raw op rd i hops hrd =>
    obtain rfl : op = .AUIPC := hop
    change pc = addrAt start k at hpc
    constructor
    · intro h
      have hreg := (h ⟨pc, spread 0, fun _ => 0⟩ _ rfl rfl).1
      by_cases h0 : rd = 0
      · exact Or.inr (by rw [h0]; rfl)
      · left
        have hat := congrFun hreg rd
        change setReg _ rd (start + i) rd = ((spread 0).set rd (pc + i)).x rd at hat
        rw [set_x_eq_setReg, setReg, setReg, if_neg h0, if_neg h0, Function.update_self,
          Function.update_self] at hat
        have hst := add_right_cancel hat
        rw [hpc, ← addrAt_zero start, addrAt_add, Nat.zero_add] at hst
        exact (addrAt_inj (by omega) hk hst).symm
    · intro h m m' hm he
      cases he
      change m.pc = pc at hm
      refine ⟨?_, rfl⟩
      change setReg m.regs.x rd (start + i) = (m.regs.set rd (m.pc + i)).x
      rw [set_x_eq_setReg]
      rcases h with rfl | h
      · rw [hm, hpc, addrAt_zero]
      · cases h
        rfl
  | regMem pc raw op rd base off hops hrd hbase => obtain rfl : op = .AUIPC := hop; simp at hops
  | memReg pc raw op base rs off hops hbase hrs => obtain rfl : op = .AUIPC := hop; simp at hops
  | regRegImm pc raw op r t i hops hr ht => obtain rfl : op = .AUIPC := hop; simp at hops
  | regRegReg pc raw op rd r s hops hrd hr hs => obtain rfl : op = .AUIPC := hop; simp at hops
  | bare pc raw op hops => obtain rfl : op = .AUIPC := hop; simp at hops

theorem WellBuilt.givesEffect_cases {reader : MemoryReader} {bb : BasicBlock}
    (h : WellBuilt reader bb) {k : ℕ} (hk : k < bb.insts.length) :
    GivesEffect bb k bb.insts[k] ↔ (bb.insts[k].opcode ∉ dropped ∧
      (bb.insts[k].opcode = .AUIPC → k = 0)) ∨ destX0 bb.insts[k] := by
  have hs := h.shaped _ (List.getElem_mem hk)
  rw [h.givesEffect_iff hk]
  by_cases hd : bb.insts[k].opcode ∈ dropped
  · rw [dropped_lowering hs hd]
    constructor
    · intro hg
      right
      by_contra hx
      obtain ⟨m, m', hpc, he, hne⟩ := dropped_visible hs hd hx
      exact hne (hg m m' hpc he)
    · rintro (hc | hx) m m' - he
      · exact absurd hd hc.1
      · exact destX0_effect hx hs hd he
  · by_cases ha : bb.insts[k].opcode = .AUIPC
    · have hpc := (decodeNext_ok (h.decoded k hk)).2.1
      have hlen := h.length_le
      rw [auipc_effect_iff hs ha hpc (by omega)]
      simp only [ha, true_implies]
      rw [ha] at hd
      simp only [hd, not_false_eq_true, true_and]
    · constructor
      · exact fun _ => Or.inl ⟨hd, fun h => absurd h ha⟩
      · exact fun _ m m' hpc he => lowering_effect hs hd ha hpc.symm he bb.start

theorem WellBuilt.handled_iff {reader : MemoryReader} {bb : BasicBlock}
    (h : WellBuilt reader bb) {k : ℕ} (hk : k < bb.insts.length) :
    Handled bb k bb.insts[k] ↔ Covered bb k bb.insts[k] := by
  rw [Handled, Covered, h.givesEffect_cases hk, h.stopsBefore_iff, or_assoc]

theorem instruction_handled_iff {reader : MemoryReader} {entry : BitVec 64} {cfg : CFG}
    (h : Builds reader entry cfg) {bb : BasicBlock} (hbb : bb ∈ cfg.blocks) {k : ℕ}
    (hk : k < bb.insts.length) : Handled bb k bb.insts[k] ↔ Covered bb k bb.insts[k] :=
  (h.sound.built bb hbb).handled_iff hk

/-- `lui x1, 1` and `jalr x0, 0(x1)`. -/
def luiReader : MemoryReader := fun a =>
  if a = 0 then some 0x000010B7 else if a = 4 then some 0x00008067 else none

def luiBlock : BasicBlock :=
  ⟨0, [⟨0, 0x000010B7, .LUI, [.reg 1, .imm 0x1000]⟩,
    ⟨4, 0x00008067, .JALR, [.reg 0, .mem 1 0]⟩], .Return, []⟩

theorem lui_builds : Builds luiReader 0 ⟨0, [luiBlock], AList.insert 0 0 ∅⟩ := ⟨3, rfl⟩

theorem lui_handled_iff :
    Handled luiBlock 0 luiBlock.insts[0] ↔ Covered luiBlock 0 luiBlock.insts[0] :=
  instruction_handled_iff lui_builds (List.mem_singleton_self _) (k := 0) (by decide)

/-- The block goes on to its return although LUI has left `x1` as it was. -/
theorem lui_not_handled : ∃ reader entry cfg bb, Builds reader entry cfg ∧ bb ∈ cfg.blocks ∧
    ∃ (k : ℕ) (hk : k < bb.insts.length), ¬ Handled bb k bb.insts[k] := by
  refine ⟨luiReader, 0, _, luiBlock, lui_builds, List.mem_singleton_self _, 0, by decide, ?_⟩
  have hbuilt := lui_builds.sound.built luiBlock (List.mem_singleton_self _)
  rw [hbuilt.handled_iff (k := 0) (by decide)]
  rintro (h | h | h)
  · exact h.1 (by simp [luiBlock, dropped])
  · simp [destX0, luiBlock] at h
  · cases h.1

end Riscy.RISCV
