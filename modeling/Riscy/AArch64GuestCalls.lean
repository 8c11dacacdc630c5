import Riscy.AArch64Runtime
import Riscy.RISCVMachine

/-! Guest calls. The return of a guest function is a host `ret`, which leads into
`riscy_indirect_jump` and from there out of the program or behind the indirect jump of a
block, with whatever the C code has left in `x0`. It does not lead to the block at the guest
return address with the state pointer in `x0`. -/
namespace Riscy.AArch64
open RISCV ByteMemory
open Relation (ReflTransGen)

/-- The struct at `a` and the guest memory hold the state of the reference. -/
structure Holds (a : BitVec 64) (g : Machine) (s : Host PReg) : Prop where
  regs : ∀ r < 32, BitVec.ofNat 64 (wordAt s.mem a r) = g.regs.x r
  bytes : ∀ x, (∀ i < structSize, BitVec.ofNat 64 (wordAt s.mem a 32) + x ≠ a + BitVec.ofNat 64 i) →
    s.mem (BitVec.ofNat 64 (wordAt s.mem a 32) + x) = g.mem x

/-- The reference calls from `p` and later returns to `p + 4`. -/
structure GuestCall (mem : MemoryReader) (entry p : BitVec 64) (g₀ g₁ g₂ : Machine) : Prop where
  start : g₀.pc = entry
  reaches : ReflTransGen (fun g g' => RISCV.step mem g = some g') g₀ g₁
  call : g₁.pc = p ∧ ∃ inst off, decodeNext mem p = .ok inst ∧ inst.opcode = .JAL ∧
    inst.operands = [.reg 1, .imm off]
  next : ∃ inst, decodeNext mem (p + 4) = .ok inst
  inside : ReflTransGen (fun g g' => RISCV.step mem g = some g') g₁ g₂
  ret : ∃ inst, decodeNext mem g₂.pc = .ok inst ∧ inst.opcode = .JALR ∧
    inst.operands = [.reg 0, .mem 1 0]
  target : g₂.regs.x 1 = p + 4

section Run
variable {mem : MemoryReader} {entry : BitVec 64} {cfg : CFG} {o : ItemOrders} {m : ModuleAsm}
  {L : Layout m} {a : BitVec 64} {c d : Config}

/-- The run from a configuration, with what C code leaves behind at each step. -/
def trace (L : Layout m) (left : ℕ → Leftover) (c : Config) : ℕ → Option Config
  | 0 => some c
  | k + 1 => (trace L left c k).bind (step L (left k))

theorem trace_earlier {left : ℕ → Leftover} {k n : ℕ} (h : trace L left c (k + n) = some d) :
    ∃ c', trace L left c k = some c' := by
  induction n generalizing d with
  | zero => exact ⟨d, h⟩
  | succ n ih =>
    obtain ⟨c', hc', -⟩ := Option.bind_eq_some_iff.mp h
    exact ih hc'

/-- `_riscy_entry` is called for the state of the reference. -/
structure Started (L : Layout m) (a : BitVec 64) (g : Machine) (c : Config) : Prop where
  entered : Entered L c
  state : c.host.r 0 = a
  pc : c.host.r 1 = g.pc
  holds : Holds a g c.host

/-- A block ends behind the instruction at `g.pc`, in the state of the reference. -/
def Arrives (o : ItemOrders) (cfg : CFG) (m : ModuleAsm) (a : BitVec 64) (g : Machine)
    (c : Config) : Prop :=
  ∃ i asm t e, ∃ bb ∈ cfg.blocks, c.place = .block i ∧ m.blocks[i]? = some asm ∧
    PrintedAs o bb asm ∧ (bb.insts.getLast?.map DecodedInst.pc = some g.pc) ∧
    asm.run noReg 1 c.host = some (t, e) ∧ Holds a g t

/-- The translated program goes on where the reference does. -/
structure GuestReturn (o : ItemOrders) (cfg : CFG) (L : Layout m) (a : BitVec 64)
    (left : ℕ → Leftover) (c : Config) (p : BitVec 64) (g : Machine) : Prop where
  built : ∃ bb ∈ cfg.blocks, bb.start = p + 4
  continues : ∃ k n c₁ c₂ j, trace L left c k = some c₁ ∧ Arrives o cfg m a g c₁ ∧
    trace L left c (k + 1 + n) = some c₂ ∧
    (∀ i < n, ∀ c', trace L left c (k + 1 + i) = some c' → ∀ j, c'.place ≠ .block j) ∧
    c₂.place = .block j ∧ BlockAt o cfg m j (p + 4) ∧ c₂.host.r 0 = a ∧
    Holds a { g with pc := p + 4 } c₂.host

/-- C code that leaves another value than the state pointer in `x0`. -/
def unlucky (a : BitVec 64) : Leftover := ⟨fun _ => a + 1, ⟨false, false, false, false⟩, 0⟩

/-- Where the state pointer is in `x0`, a `ret` leads back into `riscy_indirect_jump`. -/
def LinkKept (L : Layout m) (a : BitVec 64) (c : Config) : Prop :=
  match c.place with
  | .block _ => c.host.r 0 = a → c.host.r 30 = L.address .resume
  | .stub => c.host.r 0 ≠ a
  | _ => True

/-- The state pointer is lost, or is about to be. -/
def Away (a : BitVec 64) (c : Config) : Prop := c.place = .resume ∨ c.host.r 0 ≠ a

theorem add_one_ne (a : BitVec 64) : a + 1 ≠ a := by
  bv_omega

theorem jumpTo_inv {h : Host PReg} {x : BitVec 64} (hj : jumpTo L c h x = some d) :
    d.host = h ∧ L.place x = some d.place := by
  obtain ⟨p, hp, rfl⟩ := Option.map_eq_some_iff.mp hj
  exact ⟨rfl, hp⟩

theorem linkKept_of_ne (h : d.host.r 0 ≠ a) : LinkKept L a d := by
  unfold LinkKept
  split
  · exact fun h0 => absurd h0 h
  · exact h
  · trivial

theorem dispatch_linkKept {left : Leftover} {h : Host PReg} (hd : dispatch L left c h = some d) :
    LinkKept L a d := by
  rcases dispatch_cases hd with ⟨hp, -, -⟩ | ⟨j, rfl⟩
  · simp only [LinkKept, hp]
  · exact fun _ => rfl

theorem dispatch_state {left : Leftover} {h : Host PReg} (hd : dispatch L left c h = some d) :
    d.host.r 0 = h.r 0 := by
  rcases dispatch_cases hd with ⟨-, -, rfl⟩ | ⟨j, rfl⟩
  · rfl
  · rfl

theorem resume_state (hc : c.place = .resume) (hs : step L (unlucky a) c = some d) :
    d.host.r 0 ≠ a := by
  obtain ⟨place, host, sp, frames⟩ := c
  cases hc
  cases frames with
  | nil => cases hs
  | cons f fs =>
    obtain ⟨hh, -⟩ := jumpTo_inv hs
    rw [hh]
    exact add_one_ne a

theorem Away.step (hc : Away a c) (hblock : ∀ j, c.place ≠ .block j)
    (hs : step L (unlucky a) c = some d) : Away a d := by
  rcases hc with hc | hc
  · exact Or.inr (resume_state hc hs)
  · right
    cases hp : c.place with
    | caller => simp [AArch64.step, hp] at hs
    | trapped => simp [AArch64.step, hp] at hs
    | block j => exact absurd hp (hblock j)
    | resume => exact resume_state hp hs
    | entry =>
      simp only [AArch64.step, hp] at hs
      rw [dispatch_state hs]
      exact hc
    | stub =>
      simp only [AArch64.step, hp] at hs
      rw [(jumpTo_inv hs).1]
      exact hc

/-- A return sends the state pointer away. -/
theorem away_of_ret {h : Host PReg} (hlink : h.r 0 = a → h.r 30 = L.address .resume)
    (hj : jumpTo L c h (h.r 30) = some d) : Away a d := by
  obtain ⟨hh, hplace⟩ := jumpTo_inv hj
  by_cases h0 : h.r 0 = a
  · rw [hlink h0, L.place_address .resume trivial] at hplace
    exact Or.inl (Option.some.inj hplace).symm
  · exact Or.inr (hh ▸ h0)

theorem linkKept_of_away (h : Away a d) : LinkKept L a d := by
  rcases h with h | h
  · simp only [LinkKept, h]
  · exact linkKept_of_ne h

/-- One step of a run in which C code leaves the unlucky value. -/
theorem LinkKept.step (h : ModuleOf o cfg m) (hcfg : cfg.Sound mem entry) (hc : LinkKept L a c)
    (hs : step L (unlucky a) c = some d) : LinkKept L a d := by
  cases hp : c.place with
  | caller => simp [AArch64.step, hp] at hs
  | trapped => simp [AArch64.step, hp] at hs
  | entry =>
    simp only [AArch64.step, hp] at hs
    exact dispatch_linkKept hs
  | resume => exact linkKept_of_ne (resume_state hp hs)
  | stub =>
    simp only [LinkKept, hp] at hc
    simp only [AArch64.step, hp] at hs
    exact linkKept_of_ne ((jumpTo_inv hs).1 ▸ hc)
  | block i =>
    simp only [LinkKept, hp] at hc
    rcases Nat.lt_or_ge i m.blocks.length with hi | hi
    · obtain ⟨bb, -, asm, t, e, -, -, -, -, hkeep, hstep⟩ := step_block (L := L) h hcfg hp hi
      have hlink : t.r 0 = a → t.r 30 = L.address .resume := by
        rw [hkeep 0 (by decide), hkeep 30 (by decide)]
        exact hc
      rw [hstep] at hs
      cases e with
      | goto l =>
        obtain ⟨j, -, rfl⟩ := Option.map_eq_some_iff.mp hs
        exact hlink
      | indirect x => exact dispatch_linkKept hs
      | ret => exact linkKept_of_away (away_of_ret hlink hs)
      | trap =>
        cases hs
        trivial
    · simp only [AArch64.step, hp, List.getElem?_eq_none hi] at hs
      cases hs

theorem LinkKept.trace (h : ModuleOf o cfg m) (hcfg : cfg.Sound mem entry) (hc : LinkKept L a c)
    {k : ℕ} (hk : AArch64.trace L (fun _ => unlucky a) c k = some d) : LinkKept L a d := by
  induction k generalizing d with
  | zero =>
    cases hk
    exact hc
  | succ k ih =>
    obtain ⟨c', hc', hs⟩ := Option.bind_eq_some_iff.mp hk
    exact (ih hc').step h hcfg hs

/-- From a return up to the next block the state pointer stays away. -/
theorem Away.trace {left : ℕ → Leftover} (hleft : left = fun _ => unlucky a) {k n : ℕ}
    (hnone : ∀ i < n, ∀ c', AArch64.trace L left c (k + i) = some c' → ∀ j, c'.place ≠ .block j)
    {c₁ c₂ : Config} (h1 : AArch64.trace L left c k = some c₁) (haway : Away a c₁)
    (h2 : AArch64.trace L left c (k + n) = some c₂) : Away a c₂ := by
  subst hleft
  induction n generalizing c₂ with
  | zero =>
    rw [Nat.add_zero, h1] at h2
    cases h2
    exact haway
  | succ n ih =>
    obtain ⟨c', hc', hs⟩ := Option.bind_eq_some_iff.mp h2
    exact (ih (fun i hi => hnone i (Nat.lt_succ_of_lt hi)) hc').step
      (hnone n (Nat.lt_succ_self n) c' hc') hs

/-- The block that ends behind the return of a call is built as one that returns. -/
theorem GuestCall.returns {p : BitVec 64} {g₀ g₁ g₂ : Machine}
    (hg : GuestCall mem entry p g₀ g₁ g₂) (hcfg : cfg.Sound mem entry) {bb : BasicBlock}
    (hbb : bb ∈ cfg.blocks) (hlast : bb.insts.getLast?.map DecodedInst.pc = some g₂.pc) :
    bb.term = .Return := by
  obtain ⟨inst, hd, hop, ho⟩ := hg.ret
  obtain ⟨last, hl, hpc⟩ := Option.map_eq_some_iff.mp hlast
  rw [List.getLast?_eq_getElem?] at hl
  obtain ⟨hj, hl⟩ := List.getElem?_eq_some_iff.mp hl
  have hw := hcfg.built bb hbb
  have hdec := hw.decoded _ hj
  have hat := (decodeNext_ok hdec).2.1
  rw [hl, hpc] at hat
  rw [← hat, hd, hl] at hdec
  have hsame : inst = last := Except.ok.inj hdec
  have hx := (decodeNext_shaped hd).exit_jalr hop ho
  rw [if_pos ⟨rfl, rfl, rfl⟩, hsame, ← hl] at hx
  exact (hw.exit hj hx).2.1

/-- In no program does a return lead to the block at the guest return address: whatever call
and return of the reference is taken, C code may leave a value in `x0` with which the
translated program does something else. -/
theorem guest_calls_never_return (h : Builds mem entry cfg) (hm : translate o cfg = .ok m)
    (L : Layout m) {p : BitVec 64} {g₀ g₁ g₂ : Machine} (hg : GuestCall mem entry p g₀ g₁ g₂)
    (hs : Started L a g₀ c) : ¬ ∀ left, GuestReturn o cfg L a left c p g₂ := by
  intro hall
  have hof := translate_inv h hm
  obtain ⟨-, k, n, c₁, c₂, j, hk, harr, hn, hnone, hplace, -, hstate, -⟩ := hall fun _ => unlucky a
  obtain ⟨i, asm, t, e, bb, hbb, hc₁, hi, hp, hlast, hrun, -⟩ := harr
  have hkept : LinkKept L a c₁ := by
    refine LinkKept.trace hof h.sound ?_ hk
    simp only [LinkKept, hs.entered.place]
  simp only [LinkKept, hc₁] at hkept
  obtain ⟨t', e', hrun', -, hleaves, hkeep⟩ := hp.run h.sound hbb c₁.host
  rw [hrun] at hrun'
  cases hrun'
  -- The reference returns, so the last instruction of the block is one that was cut as a return.
  obtain rfl : e = .ret := hleaves.of_return (hg.returns h.sound hbb hlast)
  have hlink : t.r 0 = a → t.r 30 = L.address .resume := by
    rw [hkeep 0 (by decide), hkeep 30 (by decide)]
    exact hkept
  have hstep : step L (unlucky a) c₁ = jumpTo L c₁ t (t.r 30) := by
    simp only [step, hc₁, hi, hrun, Option.bind_eq_bind, Option.bind_some, leave]
  obtain ⟨d, hd⟩ := trace_earlier hn
  have hleave : jumpTo L c₁ t (t.r 30) = some d := by
    rw [trace, hk, Option.bind_some, hstep] at hd
    exact hd
  rcases Away.trace rfl hnone hd (away_of_ret hlink hleave) hn with haway | haway
  · rw [hplace] at haway
    cases haway
  · exact haway hstate

end Run

section Program

/-- At 0 a call of the function at 8, which returns at once; at 4 a trap. -/
def callReader : MemoryReader := fun a =>
  if a = 0 then some 0x008000ef
  else if a = 4 then some 0x00000073
  else if a = 8 then some 0x00008067
  else none

def callCFG : CFG where
  entry := 0
  blocks := [⟨0, [⟨0, 0x008000ef, .JAL, [.reg 1, .imm 8]⟩], .Jump, [8]⟩,
    ⟨8, [⟨8, 0x00008067, .JALR, [.reg 0, .mem 1 0]⟩], .Return, []⟩]
  indexByAddr := ((∅ : AddrIndex).insert 0 0).insert 8 1

theorem call_builds : Builds callReader 0 callCFG := ⟨6, rfl⟩

def callMachine : Machine := ⟨0#64, ⟨fun _ => 0#64, rfl⟩, fun _ => 0#8⟩

def calledMachine : Machine := ⟨8#64, callMachine.regs.set 1 4#64, fun _ => 0#8⟩

theorem call_machine : GuestCall callReader 0 0 callMachine callMachine calledMachine where
  start := rfl
  reaches := .refl
  call := ⟨rfl, ⟨0, 0x008000ef, .JAL, [.reg 1, .imm 8]⟩, 8, rfl, rfl, rfl⟩
  next := ⟨⟨4, 0x00000073, .ECALL, []⟩, rfl⟩
  inside := .single rfl
  ret := ⟨⟨8, 0x00008067, .JALR, [.reg 0, .mem 1 0]⟩, rfl, rfl, rfl⟩
  target := rfl

theorem call_linked : ∃ m, translate default callCFG = .ok m ∧ Nonempty (Layout m) := by
  have hsize : ∀ bb ∈ callCFG.blocks, irSize bb.insts < 2 ^ 31 := by decide
  obtain ⟨m, hm, -⟩ := translates_short call_builds.sound hsize default
  exact ⟨m, hm, (translate_inv call_builds hm).layout call_builds.sound (by decide)⟩

/-- C calls the entry with a state of zeros. -/
def callConfig {m : ModuleAsm} (L : Layout m) : Config :=
  ⟨.entry, ⟨fun n => if n = 30 then L.address .caller else 0, ⟨false, false, false, false⟩, 0,
    fun _ => 0, fun _ => 0⟩, 0, []⟩

theorem call_started {m : ModuleAsm} (L : Layout m) : Started L 0 callMachine (callConfig L) where
  entered := ⟨rfl, rfl, rfl⟩
  state := rfl
  pc := rfl
  holds := ⟨fun r _ => by simp [callConfig, wordAt, ByteMemory.read, callMachine], fun x _ => rfl⟩

theorem call_never_returns : ∃ m, translate default callCFG = .ok m ∧ ∃ L : Layout m,
    ¬ ∀ left, GuestReturn default callCFG L 0 left (callConfig L) 0 calledMachine := by
  obtain ⟨m, hm, ⟨L⟩⟩ := call_linked
  exact ⟨m, hm, L, guest_calls_never_return call_builds hm L call_machine (call_started L)⟩

/-- The instruction behind the call is in no block. -/
theorem call_not_continued : ¬ ∀ mem entry cfg o m, Builds mem entry cfg →
    translate o cfg = .ok m → ∀ (L : Layout m) a c p g₀ g₁ g₂, GuestCall mem entry p g₀ g₁ g₂ →
      Started L a g₀ c → ∀ left, GuestReturn o cfg L a left c p g₂ := by
  intro h
  obtain ⟨m, hm, ⟨L⟩⟩ := call_linked
  obtain ⟨⟨bb, hbb, hstart⟩, -⟩ := h _ _ _ _ m call_builds hm L 0 (callConfig L) 0 _ _ _
    call_machine (call_started L) fun _ => unlucky 0
  revert bb
  decide

end Program

end Riscy.AArch64
