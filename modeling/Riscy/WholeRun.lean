import Riscy.AArch64Isolation
import Riscy.LowerCalls

/-! The translator, the runtime and the lowering tool together: `run_function` on a translated
program returns what the guest function returns. -/
namespace Riscy
open RISCV AArch64 RuntimeMain Lower Runs
open Relation (ReflTransGen)
open ByteMemory (Apart)
open TextScan (unlines)

section Buffer
variable {reader : MemoryReader} {P Q : BitVec 64 → ℕ → Prop} {imageBase mem a : BitVec 64}

/-- Accesses to the guest memory that `main` allocates. -/
def InBuffer (imageBase : BitVec 64) (x : BitVec 64) (n : ℕ) : Prop :=
  ∃ off, x = imageBase + BitVec.ofNat 64 off ∧ off + n ≤ memSz.toNat

/-- A buffer that is apart from the state struct. -/
theorem InBuffer.misses (hbuf : Apart a structSize mem memSz.toNat) {x : BitVec 64} {n : ℕ}
    (h : InBuffer imageBase x n) : Misses a (mem - imageBase) x n := by
  obtain ⟨off, rfl, hoff⟩ := h
  intro i hi j hj
  have hshift : imageBase + BitVec.ofNat 64 off + (mem - imageBase) + BitVec.ofNat 64 j =
      mem + BitVec.ofNat 64 (off + j) := by
    rw [BitVec.ofNat_add]
    ring
  rw [hshift]
  exact hbuf i hi (off + j) (by omega)

/-- The bytes of this memory in the host. -/
def GuestByte (mem x : BitVec 64) : Prop := ∃ off < memSz.toNat, x = mem + BitVec.ofNat 64 off

theorem guestByte_of_bytes {x : BitVec 64}
    (h : x - (mem - imageBase) ∈ Bytes (InBuffer imageBase)) : GuestByte mem x := by
  obtain ⟨y, n, ⟨off, rfl, hoff⟩, i, hi, hx⟩ := h
  refine ⟨off + i, by omega, ?_⟩
  have hback : x = x - (mem - imageBase) + (mem - imageBase) := (BitVec.sub_add_cancel ..).symm
  rw [hback, hx, BitVec.ofNat_add]
  ring

end Buffer

section Main
variable {m : ModuleAsm} {L : Layout m} {base mem a : BitVec 64} {inputs : List ℤ} {c d : Config}
  {dumpRegs : Config → List ℕ}

/-- The guest registers in a `RiscyGuestState` at `a`. -/
def structRegs (a : BitVec 64) (hostMem : ByteMemory.Memory 64) (r : ℕ) : BitVec 64 :=
  BitVec.ofNat 64 (wordAt hostMem a r)

/-- `d` has the stack of `c`, and its memory but for the state struct and the guest memory. The
registers `x19` to `x28` may differ. -/
structure SameFrame (a mem : BitVec 64) (c d : Config) : Prop where
  fp : d.host.r 29 = c.host.r 29
  sp : d.sp = c.sp
  mem : ∀ x, Outside a x → ¬ GuestByte mem x → d.host.mem x = c.host.mem x

/-- The variables of `main` in `c`: `st` is at `a`, and `dumpRegs` reads the others that are used
after the call. -/
structure MainVars (a : BitVec 64) (dumpRegs : Config → List ℕ) (s : MainState) (c : Config) :
    Prop where
  x : ∀ r < 32, structRegs a c.host.mem r = s.st.x r
  mem : structRegs a c.host.mem 32 = s.st.mem
  memSize : structRegs a c.host.mem 33 = s.st.memSize
  dumpRegs : dumpRegs c = s.dumpRegs

/-- `main` calls `_riscy_entry`, with its variables in its frame, not in `x19` to `x28`, which a call
that comes back does not restore. -/
structure CalledBy (L : Layout m) (a mem : BitVec 64) (dumpRegs : Config → List ℕ)
    (argv : List (List Char)) (c : Config) : Prop where
  entered : Entered L c
  state : c.host.r 0 = a
  target : c.host.r 1 = m.entryPc
  vars : ∃ s, mainSetup (imageBase m) mem argv = .ok s ∧ MainVars a dumpRegs s c
  inFrame : ∀ d, SameFrame a mem c d → dumpRegs d = dumpRegs c

/-- The guest at the start: the argument registers, the stack pointer, and whatever stands in the
buffer. -/
def startMachine (entry base mem : BitVec 64) (inputs : List ℤ)
    (hostMem : ByteMemory.Memory 64) : Machine where
  pc := entry
  regs := ⟨(startState base mem inputs).x, by rw [startState_x]; rfl⟩
  mem := fun x => hostMem (x + (mem - base))

theorem CalledBy.start {bin : List Char} {dump : List RegName}
    (hc : CalledBy L a mem dumpRegs (runArgs bin inputs (dump.map RegName.text)) c) :
    ∃ n, MainVars a dumpRegs ⟨startState (imageBase m) mem inputs, false,
      (dump.map RegName.index).take 32, n⟩ c := by
  obtain ⟨s, hs, hvars⟩ := hc.vars
  obtain ⟨n, hn⟩ := mainSetup_runArgs (imageBase m) mem bin inputs dump
  cases hs.symm.trans hn
  exact ⟨n, hvars⟩

theorem CalledBy.enteredFor {entry : BitVec 64} {bin : List Char} {dump : List RegName}
    (hc : CalledBy L a mem dumpRegs (runArgs bin inputs (dump.map RegName.text)) c)
    (he : m.entryPc = entry) : EnteredFor L entry a (mem - imageBase m)
      (startMachine entry (imageBase m) mem inputs c.host.mem) c := by
  obtain ⟨n, hvars⟩ := hc.start
  exact ⟨hc.entered, hc.state, hc.target.trans he, rfl, ⟨hvars.x, hvars.mem, fun _ _ => rfl⟩⟩

theorem readOuts_congr {x y : ℕ → BitVec 64} (h : ∀ r < 32, x r = y r) (dump : List RegName) :
    readOuts dump x = readOuts dump y := by
  have hlt : ∀ r ∈ (dump.map RegName.index).take 32, r < 32 := by
    intro r hr
    obtain ⟨rn, -, rfl⟩ := List.mem_map.mp (List.mem_of_mem_take hr)
    cases rn <;> simp only [RegName.index] <;> omega
  exact List.foldl_ext _ _ _ fun o r hr => by rw [h r (hlt r hr)]

theorem InBuffer.run {reader : MemoryReader} (hbuf : Apart a structSize mem memSz.toNat)
    {g₀ g : Machine} (h : ReflTransGen (AllowedStep reader (InBuffer base)) g₀ g) :
    ReflTransGen (AllowedStep reader (Misses a (mem - base))) g₀ g :=
  ReflTransGen.mono (fun _ _ hs => hs.mono fun _ _ => InBuffer.misses hbuf) _ _ h

/-- A call that comes back leaves the frame of `main` as it was. -/
theorem sameFrame_of_return {reader : MemoryReader} {entry : BitVec 64} {cfg : CFG}
    {o : ItemOrders} {g₀ g : Machine} (hcfg : cfg.Sound reader entry) (hof : ModuleOf o cfg m)
    (hbuf : Apart a structSize mem memSz.toNat) (hc : EnteredFor L entry a (mem - base) g₀ c)
    (hrun : ReflTransGen (AllowedStep reader (InBuffer base)) g₀ g)
    (hr : ReflTransGen (Step L) c d) (hd : StoppedAt .caller a (mem - base) g d) :
    SameFrame a mem c d := by
  have hkept := FrameKept.run hcfg hof hc.entered.frames hr
  have hends := hd.endsWithin (fun _ _ => InBuffer.misses hbuf) hc hrun
  have hsp := hkept.sp
  rw [hd.frames rfl] at hsp
  exact ⟨hkept.fp, hsp, fun x hout hx =>
    hends.rest x hout fun hb => hx (guestByte_of_bytes hb)⟩

/-- `main` from its return from `riscy_entry` in `d` on, with the variables that it then has; the
line before the call is printed from those that it had. -/
def mainBack (m : ModuleAsm) (mem a : BitVec 64) (dumpRegs : Config → List ℕ) (d : Config)
    (cs : List Chatter) (argv : List (List Char)) : Proc :=
  match mainSetup (imageBase m) mem argv with
  | .error msg => ⟨2, [], msg⟩
  | .ok s =>
    ⟨0, unlines (mainLines m { s with dumpRegs := dumpRegs d } cs (structRegs a d.host.mem)), []⟩

section Returns
variable [UnicodeDigits] {bin : List Char} {dump : List RegName}

/-- What `run_function` makes of a run of the binary in which `_riscy_entry` returns in `d`. -/
def RunReturns (m : ModuleAsm) (mem a : BitVec 64) (dumpRegs : Config → List ℕ) (bin : List Char)
    (inputs : List ℤ) (dump : List RegName) (x : ℕ → BitVec 64) (d : Config) : Prop :=
  d.place = .caller ∧ ∀ cs : List Chatter,
    runFunction (fun argv => some (mainBack m mem a dumpRegs d cs argv)) bin inputs
      (dump.map RegName.text) = .ok ((x 10).toInt, readOuts dump x)

/-- A call that has come back with the registers of the guest, and with the frame of `main`. -/
theorem AArch64.StoppedAt.runReturns {g : Machine} (h : StoppedAt .caller a base g d)
    (hc : CalledBy L a mem dumpRegs (runArgs bin inputs (dump.map RegName.text)) c)
    (hsame : SameFrame a mem c d) : RunReturns m mem a dumpRegs bin inputs dump g.regs.x d := by
  obtain ⟨n, hn⟩ := mainSetup_runArgs (imageBase m) mem bin inputs dump
  obtain ⟨_, hvars⟩ := hc.start
  have hregs : ∀ r < 32, structRegs a d.host.mem r = g.regs.x r := h.guest.regs
  have hdump : dumpRegs d = (dump.map RegName.index).take 32 :=
    (hc.inFrame d hsame).trans hvars.dumpRegs
  refine ⟨h.place, fun cs => ?_⟩
  have hback : mainBack m mem a dumpRegs d cs (runArgs bin inputs (dump.map RegName.text)) =
      RuntimeMain.main m mem (fun _ => (cs, structRegs a d.host.mem))
        (runArgs bin inputs (dump.map RegName.text)) := by
    rw [mainBack, RuntimeMain.main, hn]
    simp only [hdump]
  have hrun : runFunction (fun argv =>
      some (RuntimeMain.main m mem (fun _ => (cs, structRegs a d.host.mem)) argv)) bin inputs
      (dump.map RegName.text) =
        .ok ((structRegs a d.host.mem 10).toInt, readOuts dump (structRegs a d.host.mem)) :=
    runFunction_main rfl
  rw [runFunction] at hrun ⊢
  rw [hback, hrun, hregs 10 (by omega), readOuts_congr hregs]

/-- `run_function` on a translated program returns what the guest function does: from the inputs
in the argument registers, every run of the reference that stays in the guest memory and comes to
the return is followed to its end, and `a0` is reported, with the registers asked for. -/
theorem run_function_computes {reader : MemoryReader} {entry : BitVec 64} {cfg : CFG}
    {o : ItemOrders} (h : Builds reader entry cfg) (hm : translate o cfg = .ok m)
    (hsize : Manageable o cfg) (L : Layout m) (hbuf : Apart a structSize mem memSz.toNat)
    (hc : CalledBy L a mem dumpRegs (runArgs bin inputs (dump.map RegName.text)) c) {g : Machine}
    (hrun : ReflTransGen (AllowedStep reader (InBuffer (imageBase m)))
      (startMachine entry (imageBase m) mem inputs c.host.mem) g)
    {inst : DecodedInst} (hd : decodeNext reader g.pc = .ok inst) (hop : inst.opcode = .JALR)
    (ho : inst.operands = [.reg 0, .mem 1 0]) :
    Inevitable (AArch64.step L) (RunReturns m mem a dumpRegs bin inputs dump g.regs.x) c := by
  have hof := translate_inv h hm
  have hentered := hc.enteredFor (hof.entry.trans (Builds.entry_eq h))
  have hend := stopped_of_run h.sound hof hsize hentered (InBuffer.run hbuf hrun) (.ret hd hop ho)
  exact hend.reaching.trans fun d ⟨hstop, hr⟩ => .now (hstop.runReturns hc
    (sameFrame_of_return h.sound hof hbuf hentered hrun hr hstop))

end Returns

end Main

section Program

/-- The stack of a call without inputs, in a memory of zeros: the state struct, and in the frame of
`main` two registers to dump. -/
def mainStack (x : BitVec 64) : BitVec 8 :=
  if x = 0x10000012 ∨ x = 0x10000042 then 0xff
  else if x = 0x10000011 ∨ x = 0x10000041 then 0xc0
  else if x = 0x10000013 ∨ x = 0x10000043 then 0x03
  else if x = 0x10000103 then 0x20
  else if x = 0x1000010b then 0x04
  else if x = 0x10001000 then 2
  else if x = 0x10001004 then 5
  else if x = 0x10001008 then 10
  else 0

/-- `dump_count` and `dump_regs` below the frame pointer. -/
def frameDump (d : Config) : List ℕ :=
  (List.range (ByteMemory.read d.host.mem (d.host.r 29 - 0x90) 4)).map fun i =>
    ByteMemory.read d.host.mem (d.host.r 29 - 0x8c + BitVec.ofNat 64 (4 * i)) 4

/-- The program of `loadReader`, called by `main`. -/
def mainConfig {m : ModuleAsm} (L : Layout m) : Config :=
  ⟨.entry, ⟨fun n => if n = 30 then L.address .caller else if n = 0 then 0x10000000
    else if n = 29 then 0x10001090 else 0, ⟨false, false, false, false⟩, 0, fun _ => 0, mainStack⟩,
    0x0ffff000, []⟩

def mainArgs : List (List Char) :=
  runArgs (TextScan.text "a.out") [] ([RegName.x 5, .a 0].map RegName.text)

theorem load_imageBase {m : ModuleAsm} (h : ModuleOf default loadCFG m) : imageBase m = 0 := by
  have h0 : 0 ∈ addresses loadCFG := mem_addresses.mpr load_builds.sound.entry
  have hsorted := addresses_sorted loadCFG
  rw [imageBase, h.addrs]
  cases ha : addresses loadCFG with
  | nil => rfl
  | cons x xs =>
    rw [ha] at h0 hsorted
    rcases List.mem_cons.mp h0 with h0 | h0
    · exact h0.symm
    · exact absurd ((List.pairwise_cons.mp hsorted).1 0 h0) (Nat.not_lt_zero _)

def mainMachine : Machine := startMachine 0 0 0x20000000 [] mainStack

def mainCalled : Machine := ⟨8, mainMachine.regs.set 1 4, mainMachine.mem⟩

def mainLoaded : Machine := ⟨12, mainCalled.regs.set 5 0, mainCalled.mem⟩

theorem main_run {reader : MemoryReader}
    (h0 : decodeNext reader 0 = .ok ⟨0, 0x008000ef, .JAL, [.reg 1, .imm 8]⟩)
    (h8 : decodeNext reader 8 = .ok ⟨8, 0x00013283, .LD, [.reg 5, .mem 2 0]⟩) :
    ReflTransGen (AllowedStep reader (InBuffer 0)) mainMachine mainLoaded := by
  refine .tail (.single (b := mainCalled) ?_) ?_
  · refine ⟨_, h0, by simp [Lifted], rfl, fun _ _ ha => ?_⟩
    cases ha
  · refine ⟨_, h8, by simp [Lifted], rfl, ?_⟩
    rintro x n ha
    cases ha
    exact ⟨0x3ffc000, rfl, by decide⟩

theorem main_apart : Apart (0x10000000 : BitVec 64) structSize 0x20000000 memSz.toNat := by
  intro i hi j hj
  have hsz : memSz.toNat = 67108864 := rfl
  simp only [structSize] at hi
  bv_omega

theorem frameDump_same {m : ModuleAsm} {L : Layout m} {d : Config}
    (h : SameFrame 0x10000000 0x20000000 (mainConfig L) d) : frameDump d = [5, 10] := by
  have hfp : d.host.r 29 = 0x10001090 := h.fp
  have hword : ∀ k < 3, ByteMemory.read d.host.mem (0x10001000 + BitVec.ofNat 64 (4 * k)) 4 =
      ByteMemory.read mainStack (0x10001000 + BitVec.ofNat 64 (4 * k)) 4 := by
    intro k hk
    refine ByteMemory.read_congr fun i hi => h.mem _ ?_ ?_
    · intro n hn
      simp only [structSize] at hn
      bv_omega
    · rintro ⟨off, hoff, hx⟩
      have hsz : memSz.toNat = 67108864 := rfl
      bv_omega
  have hcount : ByteMemory.read d.host.mem (0x10001090 - 0x90) 4 = 2 := hword 0 (by decide)
  have hfirst : ByteMemory.read d.host.mem (0x10001090 - 0x8c + BitVec.ofNat 64 (4 * 0)) 4 = 5 :=
    hword 1 (by decide)
  have hsecond : ByteMemory.read d.host.mem (0x10001090 - 0x8c + BitVec.ofNat 64 (4 * 1)) 4 = 10 :=
    hword 2 (by decide)
  have hrange : List.range 2 = [0, 1] := rfl
  rw [frameDump, hfp, hcount, hrange, List.map_cons, List.map_cons, hfirst, hsecond, List.map_nil]

theorem main_called {m : ModuleAsm} (L : Layout m) (hbase : imageBase m = 0)
    (hentry : m.entryPc = 0) :
    CalledBy L 0x10000000 0x20000000 frameDump mainArgs (mainConfig L) := by
  have hsame := frameDump_same (L := L) ⟨rfl, rfl, fun _ _ _ => rfl⟩
  obtain ⟨n, hn⟩ := mainSetup_runArgs 0 0x20000000 (TextScan.text "a.out") [] [RegName.x 5, .a 0]
  have hsetup : mainSetup (imageBase m) 0x20000000 mainArgs =
      .ok ⟨startState 0 0x20000000 [], false, [5, 10], n⟩ := by
    rw [hbase]
    exact hn
  refine ⟨⟨rfl, rfl, rfl⟩, rfl, hentry.symm, ⟨_, hsetup, ?_, ?_, ?_, hsame⟩,
    fun d hd => (frameDump_same hd).trans hsame.symm⟩
  · change ∀ r < 32, structRegs 0x10000000 mainStack r = (startState 0 0x20000000 []).x r
    decide
  · change structRegs 0x10000000 mainStack 32 = (startState 0 0x20000000 []).mem
    decide
  · change structRegs 0x10000000 mainStack 33 = memSz
    decide

theorem main_computes : ∃ m, translate default loadCFG = .ok m ∧ ∃ L : Layout m,
    Inevitable (AArch64.step L) (RunReturns m 0x20000000 0x10000000 frameDump
      (TextScan.text "a.out") [] [.x 5, .a 0] mainLoaded.regs.x) (mainConfig L) := by
  have hir : ∀ bb ∈ loadCFG.blocks, irSize bb.insts < 2 ^ 31 := by decide
  obtain ⟨m, hm, -⟩ := translates_short load_builds.sound hir default
  have hof := translate_inv load_builds hm
  obtain ⟨L⟩ := hof.layout load_builds.sound (by decide)
  have hbase := load_imageBase hof
  have hrun : ReflTransGen (AllowedStep loadReader (InBuffer (imageBase m)))
      (startMachine 0 (imageBase m) 0x20000000 [] (mainConfig L).host.mem) mainLoaded := by
    rw [hbase]
    exact main_run rfl rfl
  have hret : decodeNext loadReader mainLoaded.pc =
      .ok ⟨12, 0x00008067, .JALR, [.reg 0, .mem 1 0]⟩ := rfl
  exact ⟨m, hm, L, run_function_computes load_builds hm load_manageable L main_apart
    (main_called L hbase hof.entry) hrun hret rfl rfl⟩

end Program

end Riscy
