import Riscy.AArch64BlockCorrect
import Riscy.AArch64Control

/-! The translator from end to end: the text of a module, entered from C on a guest state, goes
through the blocks that the reference goes through, whatever C code leaves behind. -/
namespace Riscy.AArch64
open RISCV Runs
open Relation (ReflTransGen)

section Serve
variable {reader : MemoryReader} {entry : BitVec 64} {cfg : CFG} {o : ItemOrders} {m : ModuleAsm}
  {L : Layout m} {a base : BitVec 64} {b b' g : Machine} {c : Config} {bb : BasicBlock}
  {e : IR.Exit} {regs : ℕ → BitVec 64} {mem : ByteMemory.Memory 64}

/-- The host stands before the block at the pc of the guest, in the call of `_riscy_entry`. -/
structure Serves (o : ItemOrders) (cfg : CFG) (L : Layout m) (a base : BitVec 64) (b : Machine)
    (c : Config) : Prop where
  place : ∃ i, c.place = .block i ∧ BlockAt o cfg m i b.pc
  state : c.host.r 0 = a
  resume : c.host.r 30 = L.address .resume
  caller : c.host.r 19 = L.address .caller
  frames : ∃ sp, c.frames = [⟨L.address .stub, sp⟩]
  guest : GuestAt a base b.regs.x b.mem c.host.mem

/-- Control is at `p`, back with the caller only after all calls have returned, with the registers
and the memory of the guest in memory. -/
structure StoppedAt (p : Place) (a base : BitVec 64) (g : Machine) (c : Config) : Prop where
  place : c.place = p
  frames : p = .caller → c.frames = []
  guest : GuestAt a base g.regs.x g.mem c.host.mem

/-- The sizes that the translator counts on, and an allocation that leaves the first register of a
block alone. -/
structure Manageable (o : ItemOrders) (cfg : CFG) : Prop where
  blocks : cfg.blocks.length < 2 ^ 31
  insts : ∀ bb ∈ cfg.blocks, bb.insts.length < 2 ^ 26
  keeps : ∀ bb ∈ cfg.blocks, KeepsFirst o bb

/-- Where a call ends whose guest has come to `g`: in a trap, or with the caller. -/
inductive StopsAt (reader : MemoryReader) (g : Machine) : Place → Prop
  | undecoded {err} (hd : decodeNext reader g.pc = .error err) : StopsAt reader g .trapped
  | trap {inst} (hd : decodeNext reader g.pc = .ok inst)
    (hop : inst.opcode = .ECALL ∨ inst.opcode = .EBREAK) : StopsAt reader g .trapped
  | ret {inst} (hd : decodeNext reader g.pc = .ok inst) (hop : inst.opcode = .JALR)
    (ho : inst.operands = [.reg 0, .mem 1 0]) : StopsAt reader g .caller

/-- The translated program follows a run of the reference up to `g`: it comes to the block in which
the reference is, and where the reference stops, it stops with the registers and the memory of
the reference. -/
structure Followed (reader : MemoryReader) (cfg : CFG) (o : ItemOrders) (L : Layout m)
    (a base : BitVec 64) (g : Machine) (c : Config) : Prop where
  block : ∃ b bb j, Within reader cfg b bb j g ∧
    Inevitable (AArch64.step L) (Serves o cfg L a base b) c
  stops : ∀ p, StopsAt reader g p → Inevitable (AArch64.step L) (StoppedAt p a base g) c

/-- From the call of `_riscy_entry` to the block at the entry. -/
theorem serves_entry (h : ModuleOf o cfg m) (hcfg : cfg.Sound reader entry)
    (hlen : cfg.blocks.length < 2 ^ 31) (hc : Entered L c) (h0 : c.host.r 0 = a)
    (h1 : c.host.r 1 = g.pc) (hpc : g.pc = entry)
    (hg : GuestAt a base g.regs.x g.mem c.host.mem) :
    Inevitable (AArch64.step L) (Serves o cfg L a base g) c := by
  refine .one fun left => ?_
  let host := (c.host.set 19 (c.host.r 30)).set 30 (L.address .stub)
  have hkey : host.r 1 ∈ cfg.indexByAddr := by
    have hr : host.r 1 = c.host.r 1 := rfl
    rw [hr, h1, hpc]
    exact hcfg.entry
  obtain ⟨i, hi, hget⟩ := h.found ((h.numBlocks_le hcfg).trans_lt hlen) hkey
  obtain ⟨j, hat, hd⟩ := dispatch_block (L := L) (c := c) h hcfg left hi (h.addrs ▸ hget)
  refine ⟨⟨.block j, ((host.afterC left).set 0 (host.r 0)).set 30 (L.address .resume), left.sp,
    [⟨L.address .stub, c.sp⟩]⟩, ?_, ⟨j, rfl, h1 ▸ hat⟩, h0, rfl, hc.link, ⟨c.sp, rfl⟩, hg⟩
  simp only [AArch64.step, hc.place]
  rw [← hc.frames]
  exact hd

variable (hcfg : cfg.Sound reader entry) (hsize : Manageable o cfg) (hs : Serves o cfg L a base b c)
include hcfg hsize hs

/-- The block at the pc of the guest is run to its end. -/
theorem Serves.run (hout : RunsOut cfg (Misses a base) b bb e regs mem)
    (hne : ∀ t, e ≠ .indirect t) : ∃ i h, bb ∈ cfg.blocks ∧
      (∀ left, AArch64.step L left c = leave L left c i h (Exit.ofIR e)) ∧
      GuestAt a base regs mem h.mem ∧ (∀ n, Untouched n → h.r n = c.host.r n) ∧
      Leaves bb h (Exit.ofIR e) := by
  obtain ⟨i, hplace, bb', hbb, hstart, asm, hi, hp⟩ := hs.place
  obtain rfl : bb = bb' :=
    Option.some.inj (hout.block.symm.trans ((hcfg.blockAt_iff b.pc bb').mpr ⟨hbb, hstart⟩))
  obtain ⟨hshort, hir⟩ := short_of_length (hsize.insts bb hbb)
  obtain ⟨h, hrun, hguest, hkeep⟩ := hp.block_run hcfg hbb hshort hir (hsize.keeps bb hbb) hout hne
    hs.state hs.guest
  obtain ⟨t, e', hrun', -, hleaves, -⟩ := hp.run hcfg hbb c.host
  rw [hrun] at hrun'
  cases hrun'
  refine ⟨i, h, hbb, fun left => ?_, hguest, hkeep, hleaves⟩
  simp only [AArch64.step, hplace, hi, hrun, Option.bind_eq_bind, Option.bind_some]

/-- A block of the guest, and the host is before the next one. -/
theorem Serves.step (h : ModuleOf o cfg m) (hb : AllowedBlock cfg (Misses a base) b b') :
    Ahead (AArch64.step L) (Serves o cfg L a base b') c := by
  obtain ⟨bb, hout⟩ := hb
  obtain ⟨i, t, hbb, hstep, hguest, hkeep, hleaves⟩ := hs.run hcfg hsize hout nofun
  obtain ⟨p, hp, hpc⟩ : ∃ p ∈ bb.succs, blockLabel p = blockLabel b'.pc := by
    generalize hx : Exit.ofIR (.goto b'.pc) = x at hleaves
    cases hleaves with
    | @goto p hp _ => exact ⟨p, hp, (Exit.goto.inj hx).symm⟩
    | _ => cases hx
  obtain ⟨j, hj, hat⟩ := h.find hcfg (hcfg.closed bb hbb p hp)
  refine .one fun left => ⟨{ c with place := .block j, host := t }, ?_, ?_⟩
  · rw [hstep]
    change (m.find (blockLabel b'.pc)).map _ = _
    rw [← hpc, hj]
    rfl
  · refine ⟨⟨j, rfl, blockLabel_inj hpc ▸ hat⟩, ?_, ?_, ?_, hs.frames, hguest⟩
    · exact (hkeep 0 (by decide)).trans hs.state
    · exact (hkeep 30 (by decide)).trans hs.resume
    · exact (hkeep 19 (by decide)).trans hs.caller

theorem Serves.trap (hout : RunsOut cfg (Misses a base) b bb .trap regs mem) :
    Inevitable (AArch64.step L)
      (fun d => d.place = .trapped ∧ GuestAt a base regs mem d.host.mem) c := by
  obtain ⟨i, t, -, hstep, hguest, -, -⟩ := hs.run hcfg hsize hout nofun
  exact .one fun left => ⟨_, hstep left, rfl, hguest⟩

/-- A block that ends in `ret` is the last one: control goes through `riscy_indirect_jump` and the
entry stub, which leave the memory alone. -/
theorem Serves.ret (hout : RunsOut cfg (Misses a base) b bb .ret regs mem) :
    Inevitable (AArch64.step L)
      (fun d => d.place = .caller ∧ d.frames = [] ∧ GuestAt a base regs mem d.host.mem) c := by
  obtain ⟨i, t, -, hstep, hguest, hkeep, -⟩ := hs.run hcfg hsize hout nofun
  obtain ⟨sp, hframes⟩ := hs.frames
  have h30 : t.r 30 = L.address .resume := (hkeep 30 (by decide)).trans hs.resume
  have h19 : t.r 19 = L.address .caller := (hkeep 19 (by decide)).trans hs.caller
  refine .later (fun _ => { c with place := .resume, host := t }) (fun left => ?_) fun _ => ?_
  · rw [hstep]
    change jumpTo L c t (t.r 30) = _
    rw [h30]
    exact jumpTo_address trivial
  refine .later (fun left => ⟨.stub, (t.afterC left).set 30 (L.address .stub), sp, []⟩)
    (fun left => ?_) fun left => ?_
  · simp only [AArch64.step, hframes]
    exact jumpTo_address trivial
  refine .one fun _ =>
    ⟨⟨.caller, (t.afterC left).set 30 (L.address .stub), sp, []⟩, ?_, rfl, rfl, hguest⟩
  have hr : ((t.afterC left).set 30 (L.address .stub)).r 19 = L.address .caller := h19
  simp only [AArch64.step, hr]
  exact jumpTo_address trivial

/-- Blocks of the guest, one after another. -/
theorem Serves.blocks (h : ModuleOf o cfg m)
    (hb : ReflTransGen (AllowedBlock cfg (Misses a base)) b b') :
    Inevitable (AArch64.step L) (Serves o cfg L a base b') c := by
  induction hb with
  | refl => exact .now hs
  | tail _ hstep ih => exact ih.trans fun d hd => (hd.step hcfg hsize h hstep).inevitable

end Serve

section Runs
variable {reader : MemoryReader} {entry : BitVec 64} {cfg : CFG} {o : ItemOrders} {m : ModuleAsm}
  {L : Layout m} {a base : BitVec 64} {g₀ g : Machine} {c : Config}

/-- A call of `_riscy_entry` for a guest state in memory. -/
structure EnteredFor (L : Layout m) (entry a base : BitVec 64) (g : Machine) (c : Config) :
    Prop where
  entered : Entered L c
  state : c.host.r 0 = a
  target : c.host.r 1 = entry
  pc : g.pc = entry
  guest : GuestAt a base g.regs.x g.mem c.host.mem

/-- The host comes to the block in which the reference is. -/
theorem served_of_run (hcfg : cfg.Sound reader entry) (hof : ModuleOf o cfg m)
    (hsize : Manageable o cfg) (hc : EnteredFor L entry a base g₀ c)
    (hrun : ReflTransGen (AllowedStep reader (Misses a base)) g₀ g) :
    ∃ b bb j, Tracked reader cfg (Misses a base) b bb j g ∧
      Inevitable (AArch64.step L) (Serves o cfg L a base b) c := by
  have hsmall : ∀ bb ∈ cfg.blocks, bb.term = .Branch → irSize bb.insts < 2 ^ 31 :=
    fun bb hbb _ => (short_of_length (hsize.insts bb hbb)).2
  obtain ⟨b, bb, j, hblocks, w⟩ := tracked_of_run hcfg hsmall hc.pc hrun
  have hstart := serves_entry hof hcfg hsize.blocks hc.entered hc.state (hc.target.trans hc.pc.symm)
    hc.pc hc.guest
  exact ⟨b, bb, j, w, hstart.trans fun d hd => hd.blocks hcfg hsize hof hblocks⟩

/-- Where the reference stops, the call does. -/
theorem stopped_of_run (hcfg : cfg.Sound reader entry) (hof : ModuleOf o cfg m)
    (hsize : Manageable o cfg) (hc : EnteredFor L entry a base g₀ c)
    (hrun : ReflTransGen (AllowedStep reader (Misses a base)) g₀ g) {p : Place}
    (hp : StopsAt reader g p) : Inevitable (AArch64.step L) (StoppedAt p a base g) c := by
  obtain ⟨b, bb, j, w, hserves⟩ := served_of_run hcfg hof hsize hc hrun
  have htraps (hout : RunsOut cfg (Misses a base) b bb .trap g.regs.x g.mem) :
      Inevitable (AArch64.step L) (StoppedAt .trapped a base g) c :=
    hserves.trans fun d hs => (hs.trap hcfg hsize hout).trans fun e he =>
      .now ⟨he.1, nofun, he.2⟩
  cases hp with
  | undecoded hd => exact htraps (w.traps hcfg (Or.inl ⟨_, hd⟩))
  | trap hd hop => exact htraps (w.traps hcfg (Or.inr ⟨_, hd, hop⟩))
  | ret hd hop ho =>
    exact hserves.trans fun d hs => (hs.ret hcfg hsize (w.returns hcfg hd hop ho)).trans fun e he =>
      .now ⟨he.1, fun _ => he.2.1, he.2.2⟩

/-- A translated program does what the guest program does: entered with the state of the
reference in memory, it follows every run of the reference through lifted instructions whose
accesses miss the state struct, up to the end of the run. -/
theorem translated_follows (h : Builds reader entry cfg) (hm : translate o cfg = .ok m)
    (hsize : Manageable o cfg) (L : Layout m) (hc : EnteredFor L entry a base g₀ c)
    (hrun : ReflTransGen (AllowedStep reader (Misses a base)) g₀ g) :
    Followed reader cfg o L a base g c := by
  have hof := translate_inv h hm
  obtain ⟨b, bb, j, w, hserves⟩ := served_of_run h.sound hof hsize hc hrun
  exact ⟨⟨b, bb, j, w.toWithin, hserves⟩, fun p hp => stopped_of_run h.sound hof hsize hc hrun hp⟩

end Runs

section Program

/-- At 0 a call of the function at 8, which loads the double word at `x2` and returns. -/
def loadReader : MemoryReader := fun a =>
  if a = 0 then some 0x008000ef
  else if a = 4 then some 0x00000073
  else if a = 8 then some 0x00013283
  else if a = 12 then some 0x00008067
  else none

def loadCFG : CFG where
  entry := 0
  blocks := [⟨0, [⟨0, 0x008000ef, .JAL, [.reg 1, .imm 8]⟩], .Jump, [8]⟩,
    ⟨8, [⟨8, 0x00013283, .LD, [.reg 5, .mem 2 0]⟩, ⟨12, 0x00008067, .JALR, [.reg 0, .mem 1 0]⟩],
      .Return, []⟩]
  indexByAddr := ((∅ : AddrIndex).insert 0 0).insert 8 1

theorem load_builds : Builds loadReader 0 loadCFG := ⟨6, rfl⟩

theorem load_short : ∀ bb ∈ loadCFG.blocks, bb.insts.length < 2 ^ 26 := by decide

theorem load_manageable : Manageable default loadCFG where
  blocks := by decide
  insts := load_short
  keeps bb hbb := by
    refine keepsFirst_of_merges load_builds.sound hbb (short_of_length (load_short bb hbb)).1 ?_
    revert bb
    decide

def afterCall : Machine := (⟨8, (zeroMachine 0).regs.set 1 4, fun _ => 0⟩ : Machine)

def afterLoad : Machine := (⟨12, afterCall.regs.set 5 0, fun _ => 0⟩ : Machine)

/-- The one access of the run is the doubleword at 0. -/
theorem load_touches : ReflTransGen (AllowedStep loadReader fun x n => x = 0 ∧ n = 8)
    (zeroMachine 0) afterLoad := by
  refine .tail (.single (b := afterCall) ?_) ?_
  · refine ⟨⟨0, 0x008000ef, .JAL, [.reg 1, .imm 8]⟩, rfl, by simp [Lifted], rfl, fun _ _ ha => ?_⟩
    cases ha
  · refine ⟨⟨8, 0x00013283, .LD, [.reg 5, .mem 2 0]⟩, rfl, by simp [Lifted], rfl, ?_⟩
    rintro x n ha
    cases ha
    exact ⟨rfl, rfl⟩

theorem load_misses {x : BitVec 64} {n : ℕ} (h : x = 0 ∧ n = 8) : Misses 0x1000 0 x n := by
  obtain ⟨rfl, rfl⟩ := h
  intro i hi j hj
  simp only [structSize] at hi
  bv_omega

theorem load_run : ReflTransGen (AllowedStep loadReader (Misses 0x1000 0)) (zeroMachine 0)
    afterLoad :=
  ReflTransGen.mono (fun _ _ hs => hs.mono fun _ _ => load_misses) _ _ load_touches

/-- C calls the entry with a state of zeros. -/
def loadConfig {m : ModuleAsm} (L : Layout m) : Config :=
  ⟨.entry, ⟨fun n => if n = 30 then L.address .caller else if n = 0 then 0x1000 else 0,
    ⟨false, false, false, false⟩, 0, fun _ => 0, fun _ => 0⟩, 0, []⟩

theorem zero_word (k : ℕ) : wordAt (fun _ => 0) 0x1000 k = 0 := by
  simp [wordAt, ByteMemory.read]

theorem load_entered {m : ModuleAsm} (L : Layout m) :
    EnteredFor L 0 0x1000 0 (zeroMachine 0) (loadConfig L) :=
  ⟨⟨rfl, rfl, rfl⟩, rfl, rfl, rfl, fun r _ => congrArg (BitVec.ofNat 64) (zero_word r),
    congrArg (BitVec.ofNat 64) (zero_word 32), fun _ _ => rfl⟩

theorem load_follows : ∃ m, translate default loadCFG = .ok m ∧ ∃ L : Layout m,
    Followed loadReader loadCFG default L 0x1000 0 afterLoad (loadConfig L) := by
  have hir : ∀ bb ∈ loadCFG.blocks, irSize bb.insts < 2 ^ 31 := by decide
  obtain ⟨m, hm, -⟩ := translates_short load_builds.sound hir default
  obtain ⟨L⟩ := (translate_inv load_builds hm).layout load_builds.sound (by decide)
  exact ⟨m, hm, L, translated_follows load_builds hm load_manageable L (load_entered L) load_run⟩

end Program

end Riscy.AArch64
