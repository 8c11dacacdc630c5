import Riscy.RISCVBlockRun

/-! The lifted program follows the reference machine: block steps meet the reference run
at every block boundary, and inside a block the code of the instructions executed so far
leaves the registers and memory of the reference. -/
namespace Riscy.RISCV
open IR (ValueId TypeKind BinOpKind ICmpCond Payload Val)
open ByteMemory Relation

/-- What the interpreter carries from one block to the next. -/
structure Boundary where
  pc : BitVec 64
  regs : ℕ → BitVec 64
  mem : Memory 64

def Machine.boundary (m : Machine) : Boundary := ⟨m.pc, m.regs.x, m.mem⟩

/-- One block of the lifted program that ends in a jump. -/
inductive BlockStep (cfg : CFG) (b : Boundary) : Boundary → Prop
  | goto {irb s t} (hl : cfg.lifted b.pc = some irb)
      (hr : irb.run b.regs b.mem = some (s, .goto t)) : BlockStep cfg b ⟨t, s.regs, s.mem⟩
  | indirect {irb s t} (hl : cfg.lifted b.pc = some irb)
      (hr : irb.run b.regs b.mem = some (s, .indirect t)) : BlockStep cfg b ⟨t, s.regs, s.mem⟩

/-- The instructions that the simulation covers. -/
def Lifted (op : Opcode) : Prop :=
  op ∈ [Opcode.ADDI, .ADDIW, .ADD, .ADDW, .SUB, .AND, .OR, .XOR, .ANDI, .ORI, .XORI, .SLLI,
    .SRLI, .SRAI, .SLL, .SRL, .SRA, .LW, .LWU, .LD, .SW, .SD, .FENCE, .BEQ, .BNE, .BLT, .BGE,
    .BLTU, .BGEU, .JAL]

/-- A reference step through one of these instructions. -/
def LiftedStep (reader : MemoryReader) (m m' : Machine) : Prop :=
  ∃ inst, decodeNext reader m.pc = .ok inst ∧ Lifted inst.opcode ∧ execute inst m = some m'

/-- A block step of the lifted program and the reference steps that it stands for. -/
def SyncStep (reader : MemoryReader) (cfg : CFG) (b b' : Machine) : Prop :=
  BlockStep cfg b.boundary b'.boundary ∧ TransGen (LiftedStep reader) b b'

/-- The block entered at `b` ends with `e` in the given state. -/
def Ends (cfg : CFG) (b : Machine) (e : IR.Exit) (regs : ℕ → BitVec 64) (mem : Memory 64) :
    Prop :=
  ∃ irb s, cfg.lifted b.pc = some irb ∧ irb.run b.regs.x b.mem = some (s, e) ∧
    s.regs = regs ∧ s.mem = mem

def BasicBlock.first (bb : BasicBlock) (j : ℕ) : BasicBlock :=
  { bb with insts := bb.insts.take j }

/-- The reference is `j` instructions into the block `bb`, which both entered at `b`. -/
structure Within (reader : MemoryReader) (cfg : CFG) (b : Machine) (bb : BasicBlock) (j : ℕ)
    (m : Machine) : Prop where
  block : cfg.blockAt b.pc = some bb
  run : ReflTransGen (LiftedStep reader) b m
  pc : m.pc = addrAt b.pc j
  here : j < bb.insts.length ∨
    j = bb.insts.length ∧ bb.term = .Trap ∧ ∃ e, decodeNext reader m.pc = .error e
  sync : ∃ irb s, lift (bb.first j) = .ok irb ∧
    IR.run b.pc irb.insts (entryState b.regs.x b.mem) = some s ∧
      s.regs = m.regs.x ∧ s.mem = m.mem

/-- The end of the block of `b` agrees with a reference that stops in `m`. -/
structure StopsWith (reader : MemoryReader) (cfg : CFG) (b m : Machine) : Prop where
  undecoded : ∀ e, decodeNext reader m.pc = .error e → Ends cfg b .trap m.regs.x m.mem
  trap : ∀ inst, decodeNext reader m.pc = .ok inst →
    inst.opcode = .ECALL ∨ inst.opcode = .EBREAK → Ends cfg b .trap m.regs.x m.mem
  ret : ∀ inst, decodeNext reader m.pc = .ok inst → inst.opcode = .JALR →
    inst.operands = [.reg 0, .mem 1 0] → Ends cfg b .ret m.regs.x m.mem
  indirect : ∀ inst rd base off, decodeNext reader m.pc = .ok inst → inst.opcode = .JALR →
    inst.operands = [.reg rd, .mem base off] → ¬ (rd = 0 ∧ base = 1 ∧ off = 0) →
      ∃ irb s, cfg.lifted b.pc = some irb ∧ irb.term.kind = .BrIndirect ∧
        IR.run b.pc irb.insts (entryState b.regs.x b.mem) = some s ∧
          s.regs = (m.regs.set rd (m.pc + 4)).x ∧ s.mem = m.mem

/-- The lifted program has followed the reference from `m₀` to `m`. -/
def Simulated (reader : MemoryReader) (cfg : CFG) (m₀ m : Machine) : Prop :=
  ∃ b bb j, ReflTransGen (SyncStep reader cfg) m₀ b ∧ Within reader cfg b bb j m ∧
    StopsWith reader cfg b m

theorem SyncStep.run {reader : MemoryReader} {cfg : CFG} {m b : Machine}
    (h : ReflTransGen (SyncStep reader cfg) m b) :
    ReflTransGen (LiftedStep reader) m b := by
  induction h with
  | refl => exact .refl
  | tail _ hs ih => exact ih.trans hs.2.to_reflTransGen

/-- Every block that the run from `m₀` to `m` enters and leaves by its conditional branch
has fewer than 2^31 IR instructions. -/
def BranchesShort (reader : MemoryReader) (cfg : CFG) (m₀ m : Machine) : Prop :=
  ∀ b bb j m₁ m₂, ReflTransGen (LiftedStep reader) m₀ b → cfg.blockAt b.pc = some bb →
    bb.term = .Branch → ReflTransGen (LiftedStep reader) b m₁ → j + 1 = bb.insts.length →
      m₁.pc = addrAt b.pc j → LiftedStep reader m₁ m₂ → ReflTransGen (LiftedStep reader) m₂ m →
        irSize bb.insts < 2 ^ 31

section Blocks
variable {reader : MemoryReader} {bb : BasicBlock}

theorem WellBuilt.first_lift (h : WellBuilt reader bb) (j : ℕ) :
    lift (bb.first j) = .ok ⟨bb.start, emitted 0 (bb.insts.take j),
      liftTerm (bb.first j) (emitted 0 (bb.insts.take j))⟩ :=
  lift_of_shaped fun i hi => h.shaped i (List.mem_of_mem_take hi)

theorem stateAfter_take_succ (start : BitVec 64) (insts : List DecodedInst) (s : IR.State)
    {j : ℕ} (hj : j < insts.length) :
    stateAfter start 0 (insts.take (j + 1)) s = (lowering insts[j]).after start
      (irSize (insts.take j)) (stateAfter start 0 (insts.take j) s) := by
  rw [List.take_succ_eq_append_getElem hj, stateAfter_snoc, Nat.zero_add]

end Blocks

theorem lifted_not_dropped {op : Opcode} (h : Lifted op) : op ∉ dropped ∧ op ≠ .AUIPC := by
  unfold Lifted at h
  simp only [List.mem_cons, List.not_mem_nil, or_false] at h
  rcases h with rfl | rfl | rfl | rfl | rfl | rfl | rfl | rfl | rfl | rfl | rfl | rfl | rfl |
    rfl | rfl | rfl | rfl | rfl | rfl | rfl | rfl | rfl | rfl | rfl | rfl | rfl | rfl | rfl |
    rfl | rfl <;> exact ⟨by simp [dropped], by simp⟩

/-- The branch condition of a block below 2^31 instructions is its last comparison. -/
theorem branchCond_emitted {body : List DecodedInst} {last : DecodedInst} {c : ICmpCond}
    {r s : ℕ} (hl : lowering last = .compare c r s) (hsize : irSize (body ++ [last]) < 2 ^ 31) :
    branchCond (emitted 0 (body ++ [last])) = valueAt (irSize body + 2) := by
  have hint : (BitVec.ofNat 32 (emitted 0 (body ++ [last])).length).toInt =
      (emitted 0 (body ++ [last])).length := by
    rw [emitted_length, BitVec.toInt_eq_toNat_cond, BitVec.toNat_ofNat,
      Nat.mod_eq_of_lt (by omega), if_pos (by omega)]
  simp only [branchCond, hint, Int.toNat_natCast, List.take_length]
  rw [emitted_snoc, hl, Nat.zero_add]
  simp [Lowering.code, Lowering.values, Lowering.writes, numbered, unnumbered, isICmp]

theorem Ends.blockStep {cfg : CFG} {b m' : Machine}
    (h : Ends cfg b (.goto m'.pc) m'.regs.x m'.mem) :
    BlockStep cfg b.boundary m'.boundary := by
  obtain ⟨irb, s, hl, hr, hregs, hmem⟩ := h
  have hstep := BlockStep.goto (b := b.boundary) hl hr
  rw [hregs, hmem] at hstep
  exact hstep

section Step
variable {reader : MemoryReader} {entry : BitVec 64} {cfg : CFG} (hc : cfg.Sound reader entry)
include hc

theorem within_zero {m : Machine} (ha : m.pc ∈ cfg.indexByAddr) :
    ∃ bb, Within reader cfg m bb 0 m := by
  obtain ⟨bb, hb⟩ := hc.blockAt_of_mem ha
  obtain ⟨hm, hs⟩ := (hc.blockAt_iff m.pc bb).mp hb
  have hw := hc.built bb hm
  refine ⟨bb, hb, .refl, (addrAt_zero m.pc).symm, ?_, _, _, hw.first_lift 0, rfl, rfl, rfl⟩
  cases hw with
  | control hst hd he => exact Or.inl (by simp)
  | @undecoded start body e hst hd =>
    rcases Nat.eq_zero_or_pos body.length with h0 | hp
    · right
      refine ⟨h0.symm, rfl, e, ?_⟩
      rw [h0, addrAt_zero] at hd
      rw [← hs]
      exact hd
    · exact Or.inl hp
  | @cut start body hst hne hfresh =>
    left
    by_contra h0
    change ¬ 0 < body.length at h0
    rw [Nat.eq_zero_of_not_pos h0, addrAt_zero] at hne
    exact hne rfl

variable {b m m' : Machine} {bb : BasicBlock} {j : ℕ}

theorem Within.built (w : Within reader cfg b bb j m) : WellBuilt reader bb ∧ bb.start = b.pc := by
  obtain ⟨hm, hs⟩ := (hc.blockAt_iff b.pc bb).mp w.block
  exact ⟨hc.built bb hm, hs⟩

/-- The state of the code executed so far. -/
theorem Within.state (w : Within reader cfg b bb j m) :
    (stateAfter b.pc 0 (bb.insts.take j) (entryState b.regs.x b.mem)).regs = m.regs.x ∧
      (stateAfter b.pc 0 (bb.insts.take j) (entryState b.regs.x b.mem)).mem = m.mem := by
  obtain ⟨irb, s, hl, hr, hregs, hmem⟩ := w.sync
  rw [(w.built hc).1.first_lift j] at hl
  cases hl
  rw [run_emitted] at hr
  cases hr
  exact ⟨hregs, hmem⟩

theorem Within.current (w : Within reader cfg b bb j m) {inst : DecodedInst}
    (hd : decodeNext reader m.pc = .ok inst) : ∃ hj : j < bb.insts.length, bb.insts[j] = inst := by
  obtain ⟨hw, hs⟩ := w.built hc
  rcases w.here with hj | ⟨-, -, e, he⟩
  · refine ⟨hj, ?_⟩
    have hdec := hw.decoded j hj
    rw [hs, ← w.pc, hd] at hdec
    exact (Except.ok.inj hdec).symm
  · rw [hd] at he
    cases he

/-- The code of the current instruction takes the reference's step on registers and
memory. -/
theorem Within.advance (w : Within reader cfg b bb j m) {inst : DecodedInst}
    (hd : decodeNext reader m.pc = .ok inst) (hn : inst.opcode ∉ dropped ∧ inst.opcode ≠ .AUIPC)
    (he : execute inst m = some m') :
    (stateAfter b.pc 0 (bb.insts.take (j + 1)) (entryState b.regs.x b.mem)).regs = m'.regs.x ∧
      (stateAfter b.pc 0 (bb.insts.take (j + 1)) (entryState b.regs.x b.mem)).mem = m'.mem := by
  obtain ⟨hregs, hmem⟩ := w.state hc
  obtain ⟨hj, rfl⟩ := w.current hc hd
  have heff := lowering_effect (decodeNext_shaped hd) hn.1 hn.2 (decodeNext_ok hd).2.1 he b.pc
  rw [stateAfter_take_succ b.pc bb.insts _ hj]
  simp only [Lowering.after, hregs, hmem]
  exact heff

theorem Within.inner (w : Within reader cfg b bb j m) (h : LiftedStep reader m m')
    {inst : DecodedInst} (hd : decodeNext reader m.pc = .ok inst) (hx : exitOf inst = .ok none)
    (here : j + 1 < bb.insts.length ∨ j + 1 = bb.insts.length ∧ bb.term = .Trap ∧
      ∃ e, decodeNext reader (addrAt b.pc (j + 1)) = .error e) :
    Within reader cfg b bb (j + 1) m' := by
  obtain ⟨inst', hd', hl, he⟩ := h
  rw [hd] at hd'
  cases hd'
  have hpc : m'.pc = addrAt b.pc (j + 1) := by
    rw [execute_inner hx (decodeNext_shaped hd) he, w.pc, addrAt_add_four]
  obtain ⟨hw, hs⟩ := w.built hc
  have hst := w.advance hc hd (lifted_not_dropped hl) he
  refine ⟨w.block, w.run.tail ⟨inst, hd, hl, he⟩, hpc, ?_, _, _, hw.first_lift (j + 1),
    run_emitted .., hst⟩
  rw [hpc]
  exact here

/-- The whole block has run: its terminator decides where the lifted program goes. -/
theorem Within.finish (w : Within reader cfg b bb j m) (hj : j + 1 = bb.insts.length)
    {inst : DecodedInst} (hd : decodeNext reader m.pc = .ok inst)
    (hn : inst.opcode ∉ dropped ∧ inst.opcode ≠ .AUIPC) (he : execute inst m = some m')
    {e : IR.Exit}
    (hx : IR.exitOf (liftTerm bb (emitted 0 bb.insts))
      (stateAfter b.pc 0 bb.insts (entryState b.regs.x b.mem)) = some e) :
    Ends cfg b e m'.regs.x m'.mem := by
  have hst := w.advance hc hd hn he
  rw [hj, List.take_length] at hst
  refine ⟨_, _, hc.lifted_eq w.block, ?_, hst⟩
  rw [lifted_run, hx]
  rfl

/-- A conditional branch leaves its block on the side that the reference takes. -/
theorem Within.branch (w : Within reader cfg b bb j m)
    (hsmall : bb.term = .Branch → irSize bb.insts < 2 ^ 31) {inst : DecodedInst}
    (hd : decodeNext reader m.pc = .ok inst) (he : execute inst m = some m') {c : ICmpCond}
    {r s : ℕ} {i : BitVec 64} (hcond : condOf inst.opcode = some c)
    (ho : inst.operands = [.reg r, .reg s, .imm i])
    (hx : exitOf inst = .ok (some (.Branch, [inst.pc + i, inst.pc + 4])))
    (hn : inst.opcode ∉ dropped ∧ inst.opcode ≠ .AUIPC) :
    Ends cfg b (.goto m'.pc) m'.regs.x m'.mem := by
  obtain ⟨hj, rfl⟩ := w.current hc hd
  obtain ⟨hlast, hterm, hsuccs⟩ := (w.built hc).1.exit hj hx
  refine w.finish hc hlast hd hn he ?_
  have hlow : lowering bb.insts[j] = .compare c r s := by simp only [lowering, ho, hcond]
  have hsplit : bb.insts = bb.insts.take j ++ [bb.insts[j]] := by
    rw [← List.take_succ_eq_append_getElem hj, hlast, List.take_length]
  have hsize := hsmall hterm
  have hcondId : branchCond (emitted 0 bb.insts) =
      valueAt (irSize (bb.insts.take j) + 2) := by
    have hb := branchCond_emitted hlow (by rw [← hsplit]; exact hsize)
    rwa [← hsplit] at hb
  obtain ⟨hregs, -⟩ := w.state hc
  have henv : (stateAfter b.pc 0 bb.insts (entryState b.regs.x b.mem)).env
      (valueAt (irSize (bb.insts.take j) + 2)) =
        some ⟨.I1, BitVec.ofBool (IR.evalCmp c (m.regs.x r) (m.regs.x s))⟩ := by
    have hst := stateAfter_take_succ b.pc bb.insts (entryState b.regs.x b.mem) hj
    rw [hlast, List.take_length] at hst
    rw [hst, hlow, after_env b.pc _ _ _ (i := 2) (by simp [Lowering.results])]
    simp [Lowering.results, hregs]
  have hpc : bb.insts[j].pc = m.pc := (decodeNext_ok hd).2.1
  simp only [execute, ho, branchTaken_eq, hcond, Option.map_some, Option.some.injEq] at he
  subst he
  simp only [liftTerm, hterm, hsuccs, IR.exitOf, hcondId, henv, hpc]
  cases IR.evalCmp c (m.regs.x r) (m.regs.x s) <;> rfl

theorem Within.jump (w : Within reader cfg b bb j m) {inst : DecodedInst}
    (hd : decodeNext reader m.pc = .ok inst) (he : execute inst m = some m') {rd : ℕ}
    {i : BitVec 64} (hop : inst.opcode = .JAL) (ho : inst.operands = [.reg rd, .imm i])
    (hx : exitOf inst = .ok (some (.Jump, [inst.pc + i]))) :
    Ends cfg b (.goto m'.pc) m'.regs.x m'.mem := by
  obtain ⟨hj, rfl⟩ := w.current hc hd
  obtain ⟨hlast, hterm, hsuccs⟩ := (w.built hc).1.exit hj hx
  refine w.finish hc hlast hd ⟨by simp [hop, dropped], by simp [hop]⟩ he ?_
  have hpc : bb.insts[j].pc = m.pc := (decodeNext_ok hd).2.1
  simp only [execute, ho, hop, Option.some.injEq] at he
  subst he
  simp [liftTerm, hterm, hsuccs, IR.exitOf, hpc]

/-- One reference step stays in the block or is the last one of a block step. -/
theorem Within.step (w : Within reader cfg b bb j m)
    (hsmall : bb.term = .Branch → j + 1 = bb.insts.length → irSize bb.insts < 2 ^ 31)
    (h : LiftedStep reader m m') :
    Within reader cfg b bb (j + 1) m' ∨
      (BlockStep cfg b.boundary m'.boundary ∧ m'.pc ∈ cfg.indexByAddr) := by
  obtain ⟨inst, hd, hl, he⟩ := id h
  obtain ⟨hm, -⟩ := (hc.blockAt_iff b.pc bb).mp w.block
  obtain ⟨hw, hs⟩ := w.built hc
  obtain ⟨hj, hi⟩ := w.current hc hd
  have hn := lifted_not_dropped hl
  have hpc : inst.pc = m.pc := (decodeNext_ok hd).2.1
  cases (decodeNext_shaped hd).exitCase with
  | branch c r s i hcond ho hx =>
    right
    obtain ⟨hlast, -, hsuccs⟩ := hw.exit hj (hi ▸ hx)
    have hshort := fun hterm => hsmall hterm hlast
    refine ⟨(w.branch hc hshort hd he hcond ho hx hn).blockStep, hc.closed bb hm _ ?_⟩
    simp only [execute, ho, branchTaken_eq, hcond, Option.map_some, Option.some.injEq] at he
    subst he
    rw [hsuccs, hi, hpc]
    cases IR.evalCmp c (m.regs.x r) (m.regs.x s) <;> simp
  | jump rd i hop ho hx =>
    right
    obtain ⟨-, -, hsuccs⟩ := hw.exit hj (hi ▸ hx)
    refine ⟨(w.jump hc hd he hop ho hx).blockStep, hc.closed bb hm _ ?_⟩
    simp only [execute, ho, hop, Option.some.injEq] at he
    subst he
    rw [hsuccs, hi, hpc]
    simp
  | indirect rd base off hop ho hne hx => simp [Lifted, hop] at hl
  | ret hop ho hx => simp [Lifted, hop] at hl
  | trap hop ho hx => rcases hop with hop | hop <;> simp [Lifted, hop] at hl
  | inner hcond hop hx =>
    rcases hw.inner hj (hi ▸ hx) with hlt | htrap | ⟨hlast, hterm, hsuccs⟩
    · exact Or.inl (w.inner hc h hd hx (Or.inl hlt))
    · rw [hs] at htrap
      exact Or.inl (w.inner hc h hd hx (Or.inr htrap))
    · right
      have hpc' : m'.pc = addrAt bb.start (j + 1) := by
        rw [execute_inner hx (decodeNext_shaped hd) he, w.pc, addrAt_add_four, hs]
      have hend : Ends cfg b (.goto m'.pc) m'.regs.x m'.mem := by
        refine w.finish hc hlast hd hn he ?_
        simp [liftTerm, hterm, hsuccs, IR.exitOf, hpc']
      refine ⟨hend.blockStep, hc.closed bb hm _ ?_⟩
      rw [hsuccs, hpc']
      simp

/-- The lifted program never loses the reference, whatever the length of its run. -/
theorem within_of_run {m₀ : Machine} (h₀ : m₀.pc = entry)
    (h : ReflTransGen (LiftedStep reader) m₀ m) (hsmall : BranchesShort reader cfg m₀ m) :
    ∃ b bb j, ReflTransGen (SyncStep reader cfg) m₀ b ∧ Within reader cfg b bb j m := by
  induction h with
  | refl =>
    obtain ⟨bb, w⟩ := within_zero hc (m := m₀) (by rw [h₀]; exact hc.entry)
    exact ⟨m₀, bb, 0, .refl, w⟩
  | @tail m m' hrun hstep ih =>
    obtain ⟨b, bb, j, hsync, w⟩ := ih fun b bb j m₁ m₂ hb hbb ht h₁ hj hpc hs h₂ =>
      hsmall b bb j m₁ m₂ hb hbb ht h₁ hj hpc hs (h₂.tail hstep)
    have hshort : bb.term = .Branch → j + 1 = bb.insts.length → irSize bb.insts < 2 ^ 31 :=
      fun ht hj => hsmall b bb j m m' (SyncStep.run hsync) w.block ht w.run hj w.pc hstep .refl
    rcases w.step hc hshort hstep with w' | ⟨hblock, ha⟩
    · exact ⟨b, bb, j + 1, hsync, w'⟩
    · obtain ⟨bb', w'⟩ := within_zero hc ha
      exact ⟨m', bb', 0, hsync.tail ⟨hblock, TransGen.tail' w.run hstep⟩, w'⟩

/-- The block of an address that does not decode ends there with Trap. -/
theorem Within.undecoded (w : Within reader cfg b bb j m) {e : DecodeError}
    (hd : decodeNext reader m.pc = .error e) : Ends cfg b .trap m.regs.x m.mem := by
  rcases w.here with hj | ⟨hj, hterm, -⟩
  · obtain ⟨hw, hs⟩ := w.built hc
    have hdec := hw.decoded j hj
    rw [hs, ← w.pc, hd] at hdec
    cases hdec
  · have hst := w.state hc
    rw [hj, List.take_length] at hst
    refine ⟨_, _, hc.lifted_eq w.block, ?_, hst⟩
    rw [lifted_run]
    simp [liftTerm, hterm, IR.exitOf]

/-- ECALL and EBREAK emit nothing, and their block ends with Trap. -/
theorem Within.trap (w : Within reader cfg b bb j m) {inst : DecodedInst}
    (hd : decodeNext reader m.pc = .ok inst)
    (hop : inst.opcode = .ECALL ∨ inst.opcode = .EBREAK) :
    Ends cfg b .trap m.regs.x m.mem := by
  obtain ⟨hj, rfl⟩ := w.current hc hd
  obtain ⟨hx, hlow⟩ := (decodeNext_shaped hd).exit_trap hop
  obtain ⟨hlast, hterm, -⟩ := (w.built hc).1.exit hj hx
  have hst := stateAfter_take_succ b.pc bb.insts (entryState b.regs.x b.mem) hj
  rw [hlast, List.take_length, hlow] at hst
  refine ⟨_, stateAfter b.pc 0 bb.insts (entryState b.regs.x b.mem), hc.lifted_eq w.block,
    ?_, ?_⟩
  · rw [lifted_run]
    simp [liftTerm, hterm, IR.exitOf]
  · rw [hst]
    exact w.state hc

theorem Within.ret (w : Within reader cfg b bb j m) {inst : DecodedInst}
    (hd : decodeNext reader m.pc = .ok inst) (hop : inst.opcode = .JALR)
    (ho : inst.operands = [.reg 0, .mem 1 0]) : Ends cfg b .ret m.regs.x m.mem := by
  obtain ⟨hj, rfl⟩ := w.current hc hd
  have hx := (decodeNext_shaped hd).exit_jalr hop ho
  rw [if_pos ⟨rfl, rfl, rfl⟩] at hx
  obtain ⟨hlast, hterm, -⟩ := (w.built hc).1.exit hj hx
  exact w.finish hc hlast hd ⟨by simp [hop, dropped], by simp [hop]⟩ (execute_jalr hop ho m)
    (by simp [liftTerm, hterm, IR.exitOf])

theorem Within.indirect (w : Within reader cfg b bb j m) {inst : DecodedInst}
    (hd : decodeNext reader m.pc = .ok inst) {rd base : ℕ} {off : BitVec 64}
    (hop : inst.opcode = .JALR) (ho : inst.operands = [.reg rd, .mem base off])
    (hne : ¬ (rd = 0 ∧ base = 1 ∧ off = 0)) :
    ∃ irb s, cfg.lifted b.pc = some irb ∧ irb.term.kind = .BrIndirect ∧
      IR.run b.pc irb.insts (entryState b.regs.x b.mem) = some s ∧
        s.regs = (m.regs.set rd (m.pc + 4)).x ∧ s.mem = m.mem := by
  obtain ⟨hj, rfl⟩ := w.current hc hd
  have hx := (decodeNext_shaped hd).exit_jalr hop ho
  rw [if_neg hne] at hx
  obtain ⟨hlast, hterm, -⟩ := (w.built hc).1.exit hj hx
  have hst := w.advance hc hd ⟨by simp [hop, dropped], by simp [hop]⟩ (execute_jalr hop ho m)
  rw [hlast, List.take_length] at hst
  exact ⟨_, _, hc.lifted_eq w.block, by simp [liftTerm, hterm], run_emitted .., hst⟩

theorem Within.stopsWith (w : Within reader cfg b bb j m) : StopsWith reader cfg b m :=
  ⟨fun _ hd => w.undecoded hc hd, fun _ hd hop => w.trap hc hd hop,
    fun _ hd hop ho => w.ret hc hd hop ho,
    fun _ _ _ _ hd hop ho hne => w.indirect hc hd hop ho hne⟩

end Step

/-- The lifted program simulates the reference on every run through lifted instructions
whose branches are those of short blocks. -/
theorem lifted_simulates {reader : MemoryReader} {entry : BitVec 64} {cfg : CFG}
    (h : Builds reader entry cfg) {m₀ m : Machine} (h₀ : m₀.pc = entry)
    (hrun : ReflTransGen (LiftedStep reader) m₀ m) (hsmall : BranchesShort reader cfg m₀ m) :
    Simulated reader cfg m₀ m := by
  obtain ⟨b, bb, j, hsync, w⟩ := within_of_run h.sound h₀ hrun hsmall
  exact ⟨b, bb, j, hsync, w, w.stopsWith h.sound⟩

/-- `addi x0, x0, 0` up to word `n`, then `beq x0, x0, 8`, and nothing mapped after it. -/
def longReader (n : ℕ) : MemoryReader := fun a =>
  if a.toNat < 4 * n then some 0x00000013
  else if a.toNat = 4 * n then some 0x00000463
  else none

def nopAt (i : ℕ) : DecodedInst := ⟨addrAt 0#64 i, 0x00000013, .ADDI, [.reg 0, .reg 0, .imm 0]⟩

def beqAt (i : ℕ) : DecodedInst := ⟨addrAt 0#64 i, 0x00000463, .BEQ, [.reg 0, .reg 0, .imm 8]⟩

def nops : ℕ → ℕ → List DecodedInst
  | _, 0 => []
  | i, k + 1 => nopAt i :: nops (i + 1) k

theorem addrAt_origin (i : ℕ) : (addrAt 0#64 i).toNat = 4 * i % 2 ^ 64 := by
  change (0#64 + BitVec.ofNat 64 (4 * i)).toNat = _
  rw [BitVec.zero_add, BitVec.toNat_ofNat]

theorem addrAt_zero_toNat {i : ℕ} (h : i < 2 ^ 62) : (addrAt 0#64 i).toNat = 4 * i := by
  rw [addrAt_origin, Nat.mod_eq_of_lt (by omega)]

theorem addrAt_aligned (i : ℕ) : addrAt 0#64 i &&& 0x3 = 0 := by
  apply BitVec.eq_of_toNat_eq
  have h := Nat.and_two_pow_sub_one_eq_mod (addrAt 0#64 i).toNat 2
  change (addrAt 0#64 i).toNat &&& 3 = 0
  change (addrAt 0#64 i).toNat &&& 3 = (addrAt 0#64 i).toNat % 4 at h
  rw [h, addrAt_origin]
  omega

theorem long_end {n i : ℕ} (hi : n < i) (hb : i < 2 ^ 62) :
    decodeNext (longReader n) (addrAt 0#64 i) = .error .OOBRead := by
  have hw : longReader n (addrAt 0#64 i) = none := by
    rw [longReader, addrAt_zero_toNat hb, if_neg (by omega), if_neg (by omega)]
  simp only [decodeNext, addrAt_aligned, hw]
  rfl

/-- The graph of the long program. -/
def longCFG (n : ℕ) : CFG :=
  ⟨0#64,
    [⟨0#64, nops 0 n ++ [beqAt n], .Branch, [addrAt 0#64 (n + 2), addrAt 0#64 (n + 1)]⟩,
      ⟨addrAt 0#64 (n + 2), [], .Trap, []⟩, ⟨addrAt 0#64 (n + 1), [], .Trap, []⟩],
    ((AList.insert 0#64 0 ∅).insert (addrAt 0#64 (n + 2)) 1).insert (addrAt 0#64 (n + 1)) 2⟩

theorem buildLoop_block {mem : MemoryReader} {entry start : BitVec 64} {fuel : ℕ}
    {s : BuildState} {rest : List (BitVec 64)} {bb : BasicBlock}
    (hw : s.worklist = start :: rest) (hb : start ∉ s.indexByAddr)
    (hscan : scan mem (BuildState.known { s with worklist := rest }) start (fuel + 1) start [] =
      some (.ok bb)) :
    buildLoop mem entry (fuel + 1) s =
      buildLoop mem entry fuel (BuildState.record { s with worklist := rest } bb) := by
  rw [buildLoop, hw]
  simp only [if_neg hb, hscan]

theorem lowering_nopAt (i : ℕ) : lowering (nopAt i) = .alu .Add 0 0 (.imm 0) := rfl

theorem nops_size (i k : ℕ) : irSize (nops i k) = 3 * k := by
  induction k generalizing i with
  | zero => rfl
  | succ k ih =>
    have h3 : (lowering (nopAt i)).size = 3 := rfl
    rw [nops, irSize_cons, ih, h3]
    omega
/-- The all-zero machine. -/
def zeroMachine (pc : BitVec 64) : Machine := ⟨pc, ⟨fun _ => 0, rfl⟩, fun _ => 0⟩

theorem execute_nop (i : ℕ) (m : Machine) : execute (nopAt i) m = some ⟨m.pc + 4, m.regs, m.mem⟩ :=
  rfl

theorem execute_beq (i : ℕ) (m : Machine) :
    execute (beqAt i) m = some ⟨m.pc + 8, m.regs, m.mem⟩ := by
  simp [execute, beqAt, branchTaken]

section Long
variable {n : ℕ} (hn : n < 2 ^ 40)
include hn

theorem long_nop {i : ℕ} (hi : i < n) :
    decodeNext (longReader n) (addrAt 0#64 i) = .ok (nopAt i) := by
  have hw : longReader n (addrAt 0#64 i) = some 0x00000013 := by
    rw [longReader, addrAt_zero_toNat (by omega), if_pos (by omega)]
  simp only [decodeNext, addrAt_aligned, hw]
  rfl

theorem long_beq : decodeNext (longReader n) (addrAt 0#64 n) = .ok (beqAt n) := by
  have hw : longReader n (addrAt 0#64 n) = some 0x00000463 := by
    rw [longReader, addrAt_zero_toNat (by omega), if_neg (by omega), if_pos rfl]
  simp only [decodeNext, addrAt_aligned, hw]
  rfl

theorem long_scan {known : BitVec 64 → Bool} (hk : ∀ a, a ≠ 0#64 → known a = false) {i k : ℕ}
    (h : i + k = n) (extra : ℕ) (insts : List DecodedInst) :
    scan (longReader n) known 0#64 (extra + k + 1) (addrAt 0#64 i) insts =
      some (.ok ⟨0#64, insts ++ (nops i k ++ [beqAt n]), .Branch,
        [addrAt 0#64 (n + 2), addrAt 0#64 (n + 1)]⟩) := by
  have hcut : ¬ (addrAt 0#64 i ≠ 0#64 ∧ known (addrAt 0#64 i)) := by
    intro hc
    rw [hk _ hc.1] at hc
    exact absurd hc.2 (by simp)
  induction k generalizing i insts with
  | zero =>
    obtain rfl : i = n := h
    have hx : exitOf (beqAt i) = .ok (some (.Branch, [addrAt 0#64 i + 8, addrAt 0#64 i + 4])) := rfl
    have h8 : addrAt 0#64 i + 8 = addrAt 0#64 (i + 2) := addrAt_add 0#64 i 2
    simp only [scan, if_neg hcut, long_beq hn, hx, addrAt_add_four, h8, nops, List.nil_append]
  | succ k ih =>
    have hx : exitOf (nopAt i) = .ok none := rfl
    have hcut' : ¬ (addrAt 0#64 (i + 1) ≠ 0#64 ∧ known (addrAt 0#64 (i + 1))) := by
      intro hc
      rw [hk _ hc.1] at hc
      exact absurd hc.2 (by simp)
    rw [← Nat.add_assoc, scan, if_neg hcut, long_nop hn (by omega)]
    simp only [hx, addrAt_add_four]
    rw [ih (by omega) _ hcut']
    simp [nops]

theorem long_builds : Builds (longReader n) 0#64 (longCFG n) := by
  have hne : ∀ i j, i < 2 ^ 62 → j < 2 ^ 62 → i ≠ j → addrAt 0#64 i ≠ addrAt 0#64 j :=
    fun i j hi hj hij h => hij (addrAt_inj hi hj h)
  have h1 : addrAt 0#64 (n + 1) ≠ 0#64 := by
    have h := hne (n + 1) 0 (by omega) (by omega) (by omega)
    rwa [addrAt_zero] at h
  have h2 : addrAt 0#64 (n + 2) ≠ 0#64 := by
    have h := hne (n + 2) 0 (by omega) (by omega) (by omega)
    rwa [addrAt_zero] at h
  have h12 : addrAt 0#64 (n + 1) ≠ addrAt 0#64 (n + 2) :=
    hne (n + 1) (n + 2) (by omega) (by omega) (by omega)
  have htrap : ∀ i, n < i → i < 2 ^ 62 → ∀ known fuel, scan (longReader n) known (addrAt 0#64 i)
      (fuel + 1) (addrAt 0#64 i) [] = some (.ok ⟨addrAt 0#64 i, [], .Trap, []⟩) := by
    intro i hi hb known fuel
    rw [scan, if_neg (fun h => h.1 rfl), long_end hi hb]
  obtain ⟨bb, hbb⟩ : ∃ bb : BasicBlock, bb = ⟨0#64, nops 0 n ++ [beqAt n], .Branch,
    [addrAt 0#64 (n + 2), addrAt 0#64 (n + 1)]⟩ := ⟨_, rfl⟩
  have hfirst : scan (longReader n) (BuildState.known ⟨[], {0#64}, [], ∅⟩) 0#64 (3 + n + 1)
      0#64 [] = some (.ok bb) := by
    have hk : ∀ a, a ≠ 0#64 → BuildState.known ⟨[], {0#64}, [], ∅⟩ a = false :=
      fun a ha => by simp [BuildState.known, ha]
    have h := long_scan hn hk (Nat.zero_add n) 3 []
    rwa [addrAt_zero, List.nil_append, ← hbb] at h
  have hrec : BuildState.record ⟨[], {0#64}, [], ∅⟩ bb =
      ⟨[addrAt 0#64 (n + 2), addrAt 0#64 (n + 1)],
        {addrAt 0#64 (n + 1), addrAt 0#64 (n + 2), 0#64}, [bb], AList.insert 0#64 0 ∅⟩ := by
    rw [hbb]
    simp [BuildState.record, BuildState.enqueue, h1, h2, h12]
  have hn2 : addrAt 0#64 (n + 2) ∉ AList.insert 0#64 0 (∅ : AddrIndex) := by
    simp [AList.mem_insert, h2, -AList.insert_empty]
  refine ⟨3 + n + 1, ?_⟩
  rw [build, BuildState.initial, buildLoop_block rfl (AList.notMem_empty _) hfirst, hrec,
    show 3 + n = 2 + n + 1 by omega,
    buildLoop_block rfl hn2 (htrap _ (by omega) (by omega) _ _), show 2 + n = 1 + n + 1 by omega,
    buildLoop_block rfl (by
      simp [BuildState.record, AList.mem_insert, h1, h12, -AList.insert_empty])
      (htrap _ (by omega) (by omega) _ _), show 1 + n = n + 1 by omega, hbb]
  rfl

theorem long_run {i : ℕ} (hi : i ≤ n) : ReflTransGen (LiftedStep (longReader n))
    (zeroMachine (addrAt 0#64 0)) (zeroMachine (addrAt 0#64 i)) := by
  induction i with
  | zero => exact .refl
  | succ i ih =>
    refine (ih (by omega)).tail ⟨nopAt i, long_nop hn (by omega), by simp [nopAt, Lifted], ?_⟩
    rw [execute_nop, ← addrAt_add_four]
    rfl

theorem long_taken : LiftedStep (longReader n) (zeroMachine (addrAt 0#64 n))
    (zeroMachine (addrAt 0#64 (n + 2))) := by
  refine ⟨beqAt n, long_beq hn, by simp [beqAt, Lifted], ?_⟩
  rw [execute_beq, ← addrAt_add]
  rfl

/-- The reference never comes to the word after the branch. -/
theorem long_reaches {m m' : Machine}
    (hm : ∃ i, (i ≤ n ∨ i = n + 2) ∧ m.pc = addrAt 0#64 i)
    (h : ReflTransGen (LiftedStep (longReader n)) m m') :
    ∃ i, (i ≤ n ∨ i = n + 2) ∧ m'.pc = addrAt 0#64 i := by
  induction h with
  | refl => exact hm
  | @tail m₁ m₂ hrun hstep ih =>
    obtain ⟨i, hi, hpc⟩ := ih
    obtain ⟨inst, hd, -, he⟩ := hstep
    rw [hpc] at hd
    rcases hi with hi | rfl
    · rcases Nat.lt_or_eq_of_le hi with hlt | rfl
      · rw [long_nop hn hlt] at hd
        cases hd
        rw [execute_nop] at he
        cases he
        refine ⟨i + 1, Or.inl hlt, ?_⟩
        rw [← addrAt_add_four, ← hpc]
      · rw [long_beq hn] at hd
        cases hd
        rw [execute_beq] at he
        cases he
        refine ⟨i + 2, Or.inr rfl, ?_⟩
        rw [← addrAt_add, ← hpc]
        rfl
    · rw [long_end (by omega) (by omega)] at hd
      cases hd

theorem long_block : (longCFG n).blockAt 0#64 =
    some ⟨0#64, nops 0 n ++ [beqAt n], .Branch, [addrAt 0#64 (n + 2), addrAt 0#64 (n + 1)]⟩ :=
  ((long_builds hn).sound.blockAt_iff _ _).mpr ⟨by simp [longCFG], rfl⟩

/-- With 2^31 or more instructions the search for the condition does not start, and value
0, the first read of `x0`, sends the block to the word after the branch. -/
theorem long_blockStep (hbig : 2 ^ 31 ≤ 3 * n + 3) (hmax : 3 * n + 3 < 2 ^ 32) (h0 : 0 < n)
    {b : Boundary} (h : BlockStep (longCFG n) (zeroMachine (addrAt 0#64 0)).boundary b) :
    b.pc = addrAt 0#64 (n + 1) := by
  have hl := (long_builds hn).sound.lifted_eq (long_block hn)
  have hcond : branchCond (emitted 0 (nops 0 n ++ [beqAt n])) = 0 := by
    have hsize : (emitted 0 (nops 0 n ++ [beqAt n])).length = 3 * n + 3 := by
      rw [emitted_length, irSize_append, nops_size]
      rfl
    have hneg : (BitVec.ofNat 32 (3 * n + 3)).toInt.toNat = 0 := by
      rw [BitVec.toInt_eq_toNat_cond, BitVec.toNat_ofNat, Nat.mod_eq_of_lt hmax,
        if_neg (by omega)]
      omega
    simp only [branchCond, hsize, hneg, List.take_zero]
    rfl
  have henv : (stateAfter 0#64 0 (nops 0 n ++ [beqAt n])
      (entryState (fun _ => 0) fun _ => 0)).env 0 = some (i64 0) := by
    obtain ⟨k, rfl⟩ : ∃ k, n = k + 1 := ⟨n - 1, by omega⟩
    rw [nops, List.cons_append, stateAfter, stateAfter_frame]
    · rw [lowering_nopAt]
      exact after_env 0#64 0 _ _ (i := 0) (by simp [Lowering.results])
    · intro i hi
      have h3 : (lowering (nopAt 0)).size = 3 := rfl
      rw [irSize_append, nops_size] at hi
      change i < 3 * k + 3 at hi
      rw [h3]
      change 0 ≠ (0 + 3 + i) % 2 ^ 32
      omega
  have hexit : ∀ {irb st e}, (longCFG n).lifted 0#64 = some irb →
      irb.run (fun _ => 0) (fun _ => 0) = some (st, e) →
        e = .goto (addrAt 0#64 (n + 1)) := by
    intro irb st e hl' hr
    rw [hl] at hl'
    cases hl'
    rw [lifted_run] at hr
    simp only [liftTerm, IR.exitOf, hcond, henv] at hr
    cases hr
    rfl
  cases h with
  | goto hl' hr =>
    cases hexit hl' hr
    rfl
  | indirect hl' hr => cases hexit hl' hr

end Long

/-- The two-instruction program of this family is simulated. -/
theorem short_branch_simulated :
    Simulated (longReader 1) (longCFG 1) (zeroMachine 0#64) (zeroMachine (addrAt 0#64 3)) := by
  have hn : 1 < 2 ^ 40 := by omega
  have hrun := (long_run hn le_rfl).tail (long_taken hn)
  rw [addrAt_zero] at hrun
  refine lifted_simulates (long_builds hn) rfl hrun ?_
  intro b bb j m₁ m₂ _ hbb hterm _ _ _ _ _
  replace hbb := (((long_builds hn).sound.blockAt_iff b.pc bb).mp hbb).1
  simp only [longCFG, List.mem_cons, List.not_mem_nil, or_false] at hbb
  rcases hbb with rfl | rfl | rfl
  · rw [irSize_append, nops_size]
    change 3 * 1 + 3 < 2 ^ 31
    omega
  · cases hterm
  · cases hterm

/-- 715827882 times `addi x0, x0, 0` and a branch that is always taken: the block has
2^31 + 1 IR instructions, and the lifted program takes the other side. -/
theorem long_branch_not_simulated : ∃ reader entry cfg m₀ m, Builds reader entry cfg ∧
    m₀.pc = entry ∧ ReflTransGen (LiftedStep reader) m₀ m ∧ ¬ Simulated reader cfg m₀ m := by
  have hn : 715827882 < 2 ^ 40 := by omega
  have hrun := (long_run hn le_rfl).tail (long_taken hn)
  refine ⟨longReader 715827882, 0#64, longCFG 715827882, _, _, long_builds hn, ?_, hrun, ?_⟩
  · exact addrAt_zero 0#64
  rintro ⟨b, bb, j, hsync, w, -⟩
  have hb : b = zeroMachine (addrAt 0#64 0) := by
    rcases hsync.cases_head with h | ⟨b', ⟨hstep, hreach⟩, -⟩
    · exact h.symm
    · have hpc := long_blockStep hn (by omega) (by omega) (by omega) hstep
      obtain ⟨i, hi, hpc'⟩ := long_reaches hn ⟨0, by omega, rfl⟩ hreach.to_reflTransGen
      change b'.pc = addrAt 0#64 (715827882 + 1) at hpc
      rw [hpc] at hpc'
      have := addrAt_inj (by omega) (by omega) hpc'
      omega
  subst hb
  have hblock := w.block
  change (longCFG 715827882).blockAt (addrAt 0#64 0) = some bb at hblock
  rw [addrAt_zero, long_block hn] at hblock
  cases hblock
  have hlen : ∀ i k, (nops i k).length = k := by
    intro i k
    induction k generalizing i with
    | zero => rfl
    | succ k ih => rw [nops, List.length_cons, ih]
  have hj : j < 715827882 + 1 := by
    rcases w.here with hj | ⟨-, ht, -⟩
    · rwa [List.length_append, hlen] at hj
    · cases ht
  have hpc := w.pc
  change addrAt 0#64 (715827882 + 2) = addrAt (addrAt 0#64 0) j at hpc
  rw [addrAt_zero] at hpc
  have := addrAt_inj (by omega) (by omega) hpc
  omega

end Riscy.RISCV
