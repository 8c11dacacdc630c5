import Riscy.RISCVIndirect
import Riscy.Runs

/-! The bytes of memory that a run touches. Reference steps whose accesses are allowed are
followed by lifted code whose accesses are allowed. -/
namespace Riscy.IR

/-- The bytes of memory that an instruction reads or writes. -/
def access (s : State) (i : Instr) : Option (BitVec 64 × ℕ) :=
  match i.payload with
  | .Load b off ty | .Store _ b off ty => (s.get .I64 b).map fun a => (a + off, ty.bytes)
  | _ => none

/-- The instruction touches only bytes that `P` allows. -/
def Allows (P : BitVec 64 → ℕ → Prop) (s : State) (i : Instr) : Prop :=
  ∀ a n, access s i = some (a, n) → P a n

end Riscy.IR

namespace Riscy.RISCV
open IR (ValueId TypeKind Payload Allows)
open ByteMemory Relation Runs

def loadBytes : Opcode → Option ℕ
  | .LB | .LBU => some 1
  | .LH | .LHU => some 2
  | .LW | .LWU => some 4
  | .LD => some 8
  | _ => none

/-- The bytes of memory that an instruction reads or writes. -/
def Machine.access (m : Machine) (inst : DecodedInst) : Option (BitVec 64 × ℕ) :=
  match inst.operands with
  | [.reg _, .mem base off] => (loadBytes inst.opcode).map fun n => (m.regs.x base + off, n)
  | [.mem base off, .reg _] => (storeBytes inst.opcode).map fun n => (m.regs.x base + off, n)
  | _ => none

/-- A lifted step that touches only bytes that `P` allows. -/
def AllowedStep (reader : MemoryReader) (P : BitVec 64 → ℕ → Prop) (m m' : Machine) : Prop :=
  ∃ inst, decodeNext reader m.pc = .ok inst ∧ Lifted inst.opcode ∧ execute inst m = some m' ∧
    ∀ a n, m.access inst = some (a, n) → P a n

/-- What the code of a lowering touches, from the registers that it starts with. -/
def Lowering.access (regs : ℕ → BitVec 64) : Lowering → Option (BitVec 64 × ℕ)
  | .loadWord _ _ base off => some (regs base + off, 4)
  | .loadDouble _ base off => some (regs base + off, 8)
  | .store ty base _ off => some (regs base + off, ty.bytes)
  | _ => none

variable {reader : MemoryReader} {P : BitVec 64 → ℕ → Prop}

theorem AllowedStep.lifted {m m' : Machine} (h : AllowedStep reader P m m') :
    LiftedStep reader m m' := by
  obtain ⟨inst, hd, hl, he, -⟩ := h
  exact ⟨inst, hd, hl, he⟩

theorem AllowedStep.mono {Q : BitVec 64 → ℕ → Prop} (h : ∀ a n, P a n → Q a n) {m m' : Machine}
    (hs : AllowedStep reader P m m') : AllowedStep reader Q m m' := by
  obtain ⟨inst, hd, hl, he, ha⟩ := hs
  exact ⟨inst, hd, hl, he, fun a n hacc => h a n (ha a n hacc)⟩

theorem aluLowering_access (op : Opcode) (rd rs1 : ℕ) (src : Source) (regs : ℕ → BitVec 64) :
    (aluLowering op rd rs1 src).access regs = none := by
  unfold aluLowering
  split_ifs
  · rfl
  · split <;> rfl

/-- The code of an instruction touches what the instruction touches. -/
theorem lowering_access (inst : DecodedInst) (m : Machine) {q : BitVec 64 × ℕ}
    (h : (lowering inst).access m.regs.x = some q) : m.access inst = some q := by
  unfold lowering at h
  split at h
  case h_1 => split_ifs at h <;> cases h
  case h_2 ho =>
    split at h <;> rename_i hop <;> cases h <;> simp [Machine.access, ho, hop, loadBytes]
  case h_3 ho =>
    split at h <;> rename_i hop <;> cases h <;> simp [Machine.access, ho, hop, storeBytes] <;> rfl
  case h_4 =>
    split at h
    · cases h
    · rw [aluLowering_access] at h
      cases h
  case h_5 =>
    rw [aluLowering_access] at h
    cases h
  case h_6 => cases h

section Code
variable {start : BitVec 64} {s : IR.State} {n : ℕ}

theorem allows_writeBack (rd : ℕ) (v : ValueId) :
    Along (IR.exec start) (Allows P) (unnumbered (writeBack rd v)) s := by
  refine along_of_forall fun i hi t a k ha => ?_
  obtain ⟨p, hp, rfl⟩ := List.mem_map.mp hi
  unfold writeBack at hp
  split_ifs at hp
  · cases hp
  · cases List.mem_singleton.mp hp
    cases ha

/-- Values that are computed without memory touch nothing. -/
theorem allows_numbered {ps : List Payload} (h : ∀ p ∈ ps, ∀ d t, IR.access t ⟨d, p⟩ = none) :
    Along (IR.exec start) (Allows P) (numbered n ps) s := by
  induction ps generalizing n s with
  | nil => trivial
  | cons p ps ih =>
    refine ⟨fun a k ha => ?_, fun t _ => ih fun q hq => h q (List.mem_cons_of_mem _ hq)⟩
    rw [h p (by simp)] at ha
    cases ha

/-- The first value of an access is its base register. -/
theorem get_base (base : ℕ) : (s.define (some (valueAt n)) (i64 (s.regs base))).get .I64
    (valueAt n) = some (s.regs base) := by
  simp [IR.State.define, IR.State.get]

/-- A load through the register that was read just before. -/
theorem allows_load {base : ℕ} {off : BitVec 64} {ty : TypeKind} {l : List Payload}
    (h : P (s.regs base + off) ty.bytes)
    (hl : ∀ p ∈ l, ∀ d t, IR.access t ⟨d, p⟩ = none) :
    Along (IR.exec start) (Allows P)
      (numbered n (.ReadReg base :: .Load (valueAt n) off ty :: l)) s := by
  refine ⟨fun a k ha => (by cases ha), fun t ht => ⟨fun a k ha => ?_, fun u _ => ?_⟩⟩
  swap
  · exact allows_numbered hl
  cases ht
  change ((s.define (some (valueAt n)) (i64 (s.regs base))).get .I64 (valueAt n)).map _ = _ at ha
  rw [get_base] at ha
  cases ha
  exact h

/-- The code of a lowering touches what the lowering says. -/
theorem code_allows {l : Lowering} (h : ∀ a k, l.access s.regs = some (a, k) → P a k) :
    Along (IR.exec start) (Allows P) (l.code n) s := by
  refine along_append.mpr ?_
  cases l with
  | loadWord signed rd base off =>
    refine ⟨allows_load (l := [_]) (h _ _ rfl) ?_, fun t _ => allows_writeBack ..⟩
    intro p hp d t
    cases signed <;> rw [List.mem_singleton.mp hp] <;> rfl
  | loadDouble rd base off =>
    exact ⟨allows_load (l := []) (h _ _ rfl) (by simp), fun t _ => allows_writeBack ..⟩
  | store ty base rs off =>
    refine ⟨allows_numbered (by simp [Lowering.values, IR.access]), fun t ht =>
      ⟨fun a k ha => ?_, fun _ _ => trivial⟩⟩
    have hrun := run_values start n (.store ty base rs off) s
    have hval : t.get .I64 (valueAt n) = some (s.regs base) := by
      obtain rfl := Option.some.inj (hrun.symm.trans ht)
      have hd := @defineAll_at n (Lowering.results start s.regs s.mem (.store ty base rs off))
        s.env 0 (by simp [Lowering.results]) (by simp [Lowering.results])
      rw [Nat.add_zero] at hd
      simp only [IR.State.get, hd]
      rfl
    change (t.get .I64 (valueAt n)).map _ = _ at ha
    rw [hval] at ha
    cases ha
    exact h _ _ rfl
  | alu k rd rs1 src | addWord rd rs1 src =>
    refine ⟨allows_numbered ?_, fun t _ => allows_writeBack ..⟩
    cases src <;> simp [Lowering.values, Source.payload, IR.access]
  | compare c rs1 rs2 =>
    exact ⟨allows_numbered (by simp [Lowering.values, IR.access]), fun t _ => trivial⟩
  | nothing => exact ⟨trivial, fun t _ => trivial⟩
  | auipc rd i | link rd ra | jumpReg rd base off ra =>
    exact ⟨allows_numbered (by simp [Lowering.values, IR.access]), fun t _ => allows_writeBack ..⟩

end Code

section Track
variable {entry : BitVec 64} {cfg : CFG} {b m m' : Machine} {bb : BasicBlock} {j : ℕ}

/-- The reference is `j` instructions into the block `bb`, and the code of these touches what
`P` allows. -/
structure Tracked (reader : MemoryReader) (cfg : CFG) (P : BitVec 64 → ℕ → Prop) (b : Machine)
    (bb : BasicBlock) (j : ℕ) (m : Machine) : Prop extends Within reader cfg b bb j m where
  plain : ∀ i ∈ bb.insts.take j, i.opcode ≠ .AUIPC
  along : Along (IR.exec b.pc) (Allows P) (emitted 0 (bb.insts.take j))
    (entryState b.regs.x b.mem)

/-- The block that is entered at `b` runs to its end, touches what `P` allows and leaves with
`e`. -/
structure RunsOut (cfg : CFG) (P : BitVec 64 → ℕ → Prop) (b : Machine) (bb : BasicBlock)
    (e : IR.Exit) (regs : ℕ → BitVec 64) (mem : Memory 64) : Prop where
  block : cfg.blockAt b.pc = some bb
  plain : ∀ i ∈ bb.insts, i.opcode ≠ .AUIPC
  along : Along (IR.exec b.pc) (Allows P) (emitted 0 bb.insts) (entryState b.regs.x b.mem)
  ends : Ends cfg b e regs mem

variable (hc : cfg.Sound reader entry)
include hc

theorem tracked_zero (ha : m.pc ∈ cfg.indexByAddr) :
    ∃ bb, Tracked reader cfg P m bb 0 m := by
  obtain ⟨bb, w⟩ := within_zero hc ha
  refine ⟨bb, w, ?_, ?_⟩
  · simp
  · trivial

/-- The code of the current instruction is allowed as well. -/
theorem Tracked.next (w : Tracked reader cfg P b bb j m) {inst : DecodedInst}
    (hd : decodeNext reader m.pc = .ok inst) (hn : inst.opcode ≠ .AUIPC)
    (ha : ∀ a n, m.access inst = some (a, n) → P a n) :
    (∀ i ∈ bb.insts.take (j + 1), i.opcode ≠ .AUIPC) ∧
      Along (IR.exec b.pc) (Allows P) (emitted 0 (bb.insts.take (j + 1)))
        (entryState b.regs.x b.mem) := by
  obtain ⟨hregs, -⟩ := w.toWithin.state hc
  obtain ⟨hj, rfl⟩ := w.toWithin.current hc hd
  rw [List.take_succ_eq_append_getElem hj, emitted_snoc]
  refine ⟨?_, along_append.mpr ⟨w.along, fun t ht => code_allows fun a n hl => ?_⟩⟩
  · intro i hi
    rcases List.mem_append.mp hi with hi | hi
    · exact w.plain i hi
    · rw [List.mem_singleton.mp hi]
      exact hn
  · obtain rfl := Option.some.inj ((run_emitted ..).symm.trans ht)
    rw [hregs] at hl
    exact ha a n (lowering_access _ m hl)

theorem Tracked.runsOut (w : Tracked reader cfg P b bb j m) (hlast : j + 1 = bb.insts.length)
    {inst : DecodedInst} (hd : decodeNext reader m.pc = .ok inst) (hn : inst.opcode ≠ .AUIPC)
    (ha : ∀ a n, m.access inst = some (a, n) → P a n) {e : IR.Exit} {regs : ℕ → BitVec 64}
    {mem : Memory 64} (he : Ends cfg b e regs mem) : RunsOut cfg P b bb e regs mem := by
  have hnext := w.next hc hd hn ha
  rw [hlast, List.take_length] at hnext
  exact ⟨w.block, hnext.1, hnext.2, he⟩

/-- A block step that ends in a lifted instruction is a jump to a known address. -/
theorem BlockStep.ends_goto (hb : cfg.blockAt b.pc = some bb) {i : DecodedInst}
    (hlast : bb.insts.getLast? = some i) (hi : Lifted i.opcode)
    (h : BlockStep cfg b.boundary m'.boundary) : Ends cfg b (.goto m'.pc) m'.regs.x m'.mem := by
  obtain ⟨c, hm⟩ : ∃ c, c = m'.boundary := ⟨_, rfl⟩
  rw [← hm] at h
  cases h with
  | goto hl hr =>
    obtain ⟨rfl, hregs, hmem⟩ := Boundary.mk.inj hm
    exact ⟨_, _, hl, hr, hregs, hmem⟩
  | @indirect irb s t hl hr =>
    exfalso
    have hirb := hc.lifted_eq hb
    rw [show cfg.lifted b.pc = some irb from hl] at hirb
    cases hirb
    rw [lifted_run] at hr
    obtain ⟨e, he, hse⟩ := Option.map_eq_some_iff.mp hr
    cases hse
    have hterm : bb.term = .IndirectJump := by
      unfold liftTerm at he
      split at he <;> first
        | assumption
        | simp [IR.exitOf] at he
    obtain ⟨hm, -⟩ := (hc.blockAt_iff b.pc bb).mp hb
    obtain ⟨body, last, rd, base, off, hinsts, hop, -⟩ := (hc.built bb hm).indirect_last hterm
    rw [hinsts, List.getLast?_concat] at hlast
    cases hlast
    rw [hop] at hi
    simp [Lifted] at hi

/-- An allowed step stays in the block, or is the last one of it. -/
theorem Tracked.step (w : Tracked reader cfg P b bb j m)
    (hsmall : ∀ bb ∈ cfg.blocks, bb.term = .Branch → irSize bb.insts < 2 ^ 31)
    (h : AllowedStep reader P m m') : Tracked reader cfg P b bb (j + 1) m' ∨
      RunsOut cfg P b bb (.goto m'.pc) m'.regs.x m'.mem ∧ m'.pc ∈ cfg.indexByAddr := by
  obtain ⟨inst, hd, hl, he, ha⟩ := id h
  obtain ⟨hj, hi⟩ := w.toWithin.current hc hd
  obtain ⟨hw, -⟩ := w.toWithin.built hc
  have hn := (lifted_not_dropped hl).2
  have hnext := w.next hc hd hn ha
  obtain ⟨hm, -⟩ := (hc.blockAt_iff b.pc bb).mp w.block
  rcases Nat.lt_or_eq_of_le hj with hlt | hlast
  · left
    have hx : exitOf inst = .ok none := by
      obtain ⟨x, hx⟩ := (decodeNext_shaped hd).exits
      cases x with
      | none => exact hx
      | some x =>
        obtain ⟨hlast, -⟩ := hw.exit hj (hi.symm ▸ hx)
        exact absurd hlast hlt.ne
    exact ⟨w.toWithin.inner hc h.lifted hd hx (Or.inl hlt), hnext.1, hnext.2⟩
  · rcases w.toWithin.step hc (fun ht _ => hsmall bb hm ht) h.lifted with
      w' | ⟨hblock, hindex⟩
    · exact Or.inl ⟨w', hnext.1, hnext.2⟩
    · have hlast' : bb.insts.getLast? = some inst := by
        rw [List.getLast?_eq_getElem?, ← hlast, Nat.succ_sub_one, List.getElem?_eq_getElem hj, hi]
      exact Or.inr ⟨w.runsOut hc hlast hd hn ha (hblock.ends_goto hc w.block hlast' hl), hindex⟩

/-- Block steps through allowed instructions. -/
def AllowedBlock (cfg : CFG) (P : BitVec 64 → ℕ → Prop) (b b' : Machine) : Prop :=
  ∃ bb, RunsOut cfg P b bb (.goto b'.pc) b'.regs.x b'.mem

/-- A run of allowed steps is one of blocks, and stands somewhere in a block. -/
theorem tracked_of_run
    (hsmall : ∀ bb ∈ cfg.blocks, bb.term = .Branch → irSize bb.insts < 2 ^ 31) {m₀ : Machine}
    (h₀ : m₀.pc = entry) (h : ReflTransGen (AllowedStep reader P) m₀ m) :
    ∃ b bb j, ReflTransGen (AllowedBlock cfg P) m₀ b ∧ Tracked reader cfg P b bb j m := by
  induction h with
  | refl =>
    obtain ⟨bb, w⟩ := tracked_zero hc (m := m₀) (P := P) (by rw [h₀]; exact hc.entry)
    exact ⟨m₀, bb, 0, .refl, w⟩
  | @tail m m' _ hstep ih =>
    obtain ⟨b, bb, j, hblocks, w⟩ := ih
    rcases w.step hc hsmall hstep with w' | ⟨hout, ha⟩
    · exact ⟨b, bb, j + 1, hblocks, w'⟩
    · obtain ⟨bb', w'⟩ := tracked_zero hc (P := P) ha
      exact ⟨m', bb', 0, hblocks.tail ⟨bb, hout⟩, w'⟩

/-- Where the reference stops, the block of the lifted program ends with Trap. -/
theorem Tracked.traps (w : Tracked reader cfg P b bb j m)
    (h : (∃ e, decodeNext reader m.pc = .error e) ∨ ∃ inst, decodeNext reader m.pc = .ok inst ∧
      (inst.opcode = .ECALL ∨ inst.opcode = .EBREAK)) :
    RunsOut cfg P b bb .trap m.regs.x m.mem := by
  rcases h with ⟨e, hd⟩ | ⟨inst, hd, hop⟩
  · have hend := w.toWithin.undecoded hc hd
    rcases w.here with hj | ⟨hj, -⟩
    · obtain ⟨hw, hs⟩ := w.toWithin.built hc
      have hdec := hw.decoded j hj
      rw [hs, ← w.pc, hd] at hdec
      cases hdec
    · have hplain := w.plain
      have halong := w.along
      rw [hj, List.take_length] at hplain halong
      exact ⟨w.block, hplain, halong, hend⟩
  · obtain ⟨hj, hi⟩ := w.toWithin.current hc hd
    obtain ⟨hx, -⟩ := (decodeNext_shaped hd).exit_trap hop
    obtain ⟨hlast, -⟩ := (w.toWithin.built hc).1.exit hj (hi.symm ▸ hx)
    refine w.runsOut hc hlast hd ?_ ?_ (w.toWithin.trap hc hd hop)
    · rcases hop with hop | hop <;> simp [hop]
    · intro a n ha
      unfold Machine.access at ha
      rcases hop with hop | hop <;> rw [hop] at ha <;> split at ha <;> cases ha

/-- Where the reference returns, the block of the lifted program ends with Ret. -/
theorem Tracked.returns (w : Tracked reader cfg P b bb j m) {inst : DecodedInst}
    (hd : decodeNext reader m.pc = .ok inst) (hop : inst.opcode = .JALR)
    (ho : inst.operands = [.reg 0, .mem 1 0]) : RunsOut cfg P b bb .ret m.regs.x m.mem := by
  obtain ⟨hj, hi⟩ := w.toWithin.current hc hd
  have hx := (decodeNext_shaped hd).exit_jalr hop ho
  obtain ⟨hlast, -⟩ := (w.toWithin.built hc).1.exit hj (hi.symm ▸ hx)
  refine w.runsOut hc hlast hd (by simp [hop]) ?_ (w.toWithin.ret hc hd hop ho)
  intro a n ha
  simp [Machine.access, ho, hop, loadBytes] at ha

end Track

end Riscy.RISCV
