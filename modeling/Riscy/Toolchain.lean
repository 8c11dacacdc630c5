import Riscy.AArch64Ends
import Riscy.RiscyMain
import Riscy.WholeRun

/-! A program on its whole way: from the ELF file through `riscy` to an assembly text, and from
what an assembler reads in this text, linked with the runtime, to what `run_function` reports. -/
namespace Riscy
open TextScan RISCV AArch64 RuntimeMain Lower Runs
open Relation (ReflTransGen)
open ByteMemory (Apart)

section Computes
variable {reader : MemoryReader} {entry : BitVec 64} {m : ModuleAsm} {L : Layout m}
  {a mem : BitVec 64} {dumpRegs : Config → List ℕ} {bin : List Char} {inputs : List ℤ}
  {dump : List RegName} {c d : Config} {g : Machine}

/-- The runtime's `main` calls the program for a call of `run_function`, with the buffer that it got
at `mem`. -/
structure Prepared (L : Layout m) (a mem : BitVec 64) (dumpRegs : Config → List ℕ)
    (bin : List Char) (inputs : List ℤ) (dump : List RegName) (c : Config) : Prop where
  apart : Apart a structSize mem memSz.toNat
  called : CalledBy L a mem dumpRegs (runArgs bin inputs (dump.map RegName.text)) c

/-- The guest as the runtime's `main` prepares it. -/
def guestStart (m : ModuleAsm) (entry mem : BitVec 64) (inputs : List ℤ) (c : Config) : Machine :=
  startMachine entry (imageBase m) mem inputs c.host.mem

/-- From there the guest program comes to `g`, and its accesses stay in the buffer. -/
def GuestRun (reader : MemoryReader) (m : ModuleAsm) (entry mem : BitVec 64) (inputs : List ℤ)
    (c : Config) (g : Machine) : Prop :=
  ReflTransGen (AllowedStep reader (InBuffer (imageBase m))) (guestStart m entry mem inputs c) g

/-- The program does what the guest program does: where the guest returns, `run_function` returns
what the guest has computed, where the guest comes to an end of another kind, it traps, and it
comes to no other end. -/
structure Computes [UnicodeDigits] (prog : Program) (reader : MemoryReader) (entry : BitVec 64) :
    Prop where
  stub : prog.stub = entryStub
  returns : ∀ {L : Layout prog.asm} {a mem dumpRegs bin inputs dump c g},
    Prepared L a mem dumpRegs bin inputs dump c → GuestRun reader prog.asm entry mem inputs c g →
    StopsAt reader g .caller → Inevitable (AArch64.step L)
      (RunReturns prog.asm mem a dumpRegs bin inputs dump g.regs.x) c
  traps : ∀ {L : Layout prog.asm} {a mem dumpRegs bin inputs dump c g},
    Prepared L a mem dumpRegs bin inputs dump c → GuestRun reader prog.asm entry mem inputs c g →
    StopsAt reader g .trapped → Inevitable (AArch64.step L) (fun d => d.place = .trapped) c
  reflects : ∀ {L : Layout prog.asm} {a mem dumpRegs bin inputs dump c d},
    Prepared L a mem dumpRegs bin inputs dump c →
    Progresses reader (InBuffer (imageBase prog.asm)) (guestStart prog.asm entry mem inputs c) →
    ReflTransGen (Step L) c d → Final (AArch64.step L) d →
      ∃ g p, GuestRun reader prog.asm entry mem inputs c g ∧ StopsAt reader g p ∧ d.place = p ∧
        (p = .caller → RunReturns prog.asm mem a dumpRegs bin inputs dump g.regs.x d)

section Translated
variable {cfg : CFG} {o : ItemOrders} (hb : Builds reader entry cfg)
  (hm : translate o cfg = .ok m) (hsize : Manageable o cfg)
  (h : Prepared L a mem dumpRegs bin inputs dump c)
include hb hm h

theorem Prepared.enteredFor :
    EnteredFor L entry a (mem - imageBase m) (guestStart m entry mem inputs c) c :=
  h.called.enteredFor ((translate_inv hb hm).entry.trans (Builds.entry_eq hb))

theorem Prepared.returned [UnicodeDigits] (hrun : GuestRun reader m entry mem inputs c g)
    (hr : ReflTransGen (Step L) c d) (hd : StoppedAt .caller a (mem - imageBase m) g d) :
    RunReturns m mem a dumpRegs bin inputs dump g.regs.x d :=
  hd.runReturns h.called (sameFrame_of_return hb.sound (translate_inv hb hm) h.apart
    (h.enteredFor hb hm) hrun hr hd)

include hsize

theorem Prepared.stops (hrun : GuestRun reader m entry mem inputs c g) {p : Place}
    (hp : StopsAt reader g p) :
    Inevitable (AArch64.step L) (StoppedAt p a (mem - imageBase m) g) c :=
  stopped_of_run hb.sound (translate_inv hb hm) hsize (h.enteredFor hb hm)
    (InBuffer.run h.apart hrun) hp

theorem Prepared.ended
    (hgo : Progresses reader (InBuffer (imageBase m)) (guestStart m entry mem inputs c))
    (hr : ReflTransGen (Step L) c d) (hd : Final (AArch64.step L) d) :
    ∃ g p, GuestRun reader m entry mem inputs c g ∧ StopsAt reader g p ∧
      StoppedAt p a (mem - imageBase m) g d := by
  obtain ⟨g, p, hrun, hp, hstop⟩ := stopped_of_final hb.sound (translate_inv hb hm) hsize
    (h.enteredFor hb hm) (hgo.mono fun _ _ => InBuffer.misses h.apart) hr hd
  exact ⟨g, p, hgo.keeps hrun, hp, hstop⟩

end Translated

theorem computes_of_translate [UnicodeDigits] {cfg : CFG} {o : ItemOrders}
    (hb : Builds reader entry cfg) (hm : translate o cfg = .ok m) (hsize : Manageable o cfg)
    (num : BitVec 64) : Computes ⟨entryStub, num, m⟩ reader entry where
  stub := rfl
  returns h hrun hp := (h.stops hb hm hsize hrun hp).reaching.trans fun _ ⟨hd, hr⟩ =>
    .now (h.returned hb hm hrun hr hd)
  traps h hrun hp := (h.stops hb hm hsize hrun hp).trans fun _ hd => .now hd.place
  reflects h hgo hr hd := by
    obtain ⟨g, p, hrun, hp, hstop⟩ := h.ended hb hm hsize hgo hr hd
    refine ⟨g, p, hrun, hp, hstop.place, ?_⟩
    rintro rfl
    exact h.returned hb hm hrun hr hstop

end Computes

section Toolchain
variable {fuel : ℕ} {orders : ItemOrders} {reader : ElfReader} {env : Environment}
  {argv : List (List Char)} {flags : List Flag} {path : List Char} {extra : List (List Char)}
  {f : ElfFile} {cfg : CFG} {out : Outcome} {p txt : List Char}

/-- The assembly text that `riscy` writes for a program is read as one that does, built with the
runtime and called through `run_function`, what the words in the ELF file say. -/
theorem toolchain_computes [UnicodeDigits] (hp : Parsed argv flags path extra)
    (hf : reader path = some f) (hrun : f.Runnable) (hexact : ReadsExactly f)
    (hb : Builds (exactWord f.spans) f.entry cfg) (hsize : Manageable orders cfg)
    (hmain : main fuel orders reader env argv = some (.ok out))
    (hfile : out.file = some (p, txt)) :
    p = lastOut flags ∧
      ∃ prog, readProgram txt = some prog ∧ Computes prog (exactWord f.spans) f.entry := by
  obtain ⟨cfg', printed, -, hbuilds, -, hwritten⟩ := (main_translates hp hf hrun hmain).run
  obtain rfl : cfg' = cfg := (hbuilds hexact).unique hb
  cases hwritten with
  | unasked => cases hfile
  | refused => cases hfile
  | written _ hm =>
    cases hfile
    exact ⟨rfl, _, (translated_writable hb hm).readProgram, computes_of_translate hb hm hsize _⟩

end Toolchain

section File

/-- The program of `loadReader`, in a section at 0. -/
def loadFile : ElfFile :=
  ⟨2, 243, 1, 0, [some ⟨6, 0, some [0xef, 0, 0x80, 0, 0x73, 0, 0, 0, 0x83, 0x32, 1, 0,
    0x67, 0x80, 0, 0], fun _ => by decide⟩]⟩

theorem loadFile_zero : decodeNext (exactWord loadFile.spans) 0 =
    .ok ⟨0, 0x008000ef, .JAL, [.reg 1, .imm 8]⟩ := rfl

theorem loadFile_eight : decodeNext (exactWord loadFile.spans) 8 =
    .ok ⟨8, 0x00013283, .LD, [.reg 5, .mem 2 0]⟩ := rfl

theorem loadFile_twelve : decodeNext (exactWord loadFile.spans) 12 =
    .ok ⟨12, 0x00008067, .JALR, [.reg 0, .mem 1 0]⟩ := rfl

theorem loadFile_decoded {a : BitVec 64} {inst : DecodedInst} (ha : a = 0 ∨ a = 8 ∨ a = 12)
    (hd : decodeNext (exactWord loadFile.spans) a = .ok inst) :
    isCondBranch inst.opcode = false ∧ (isControl inst.opcode = false → a + 4 = 12) ∧
      ∀ rd off, inst.opcode = .JAL → inst.operands = [.reg rd, .imm off] → a + off = 8 := by
  rcases ha with rfl | rfl | rfl
  · rw [loadFile_zero] at hd
    cases hd
    exact ⟨rfl, by decide, fun rd off _ ho => by cases ho; rfl⟩
  · rw [loadFile_eight] at hd
    cases hd
    exact ⟨rfl, fun _ => rfl, fun rd off hop => by cases hop⟩
  · rw [loadFile_twelve] at hd
    cases hd
    exact ⟨rfl, by decide, fun rd off hop => by cases hop⟩

theorem loadFile_reach {a : BitVec 64} (h : StaticReach (exactWord loadFile.spans) 0 a) :
    a = 0 ∨ a = 8 ∨ a = 12 := by
  induction h with
  | entry => exact Or.inl rfl
  | next _ hd hc ih => exact Or.inr (Or.inr ((loadFile_decoded ih hd).2.1 hc))
  | target _ hd hc _ ih | notTaken _ hd hc ih =>
    rw [(loadFile_decoded ih hd).1] at hc
    cases hc
  | jump _ hd hop ho ih => exact Or.inr (Or.inl ((loadFile_decoded ih hd).2.2 _ _ hop ho))

theorem loadFile_exact : ReadsExactly loadFile := by
  intro a ha s _ _
  left
  rcases loadFile_reach ha with rfl | rfl | rfl <;> decide

theorem loadFile_runnable : loadFile.Runnable := ⟨rfl, rfl, rfl, by decide⟩

def loadArgs : List (List Char) := [text "--aarch64", text "a.s", text "a.elf"]

theorem load_parsed : Parsed loadArgs [.aarch64 (text "a.s")] (text "a.elf") [] :=
  ⟨rfl, by simp [text]⟩

theorem load_toolchain : ∃ out txt prog,
    main 6 default (fun _ => some loadFile) plainEnv loadArgs = some (.ok out) ∧
      out.file = some (text "a.s", txt) ∧ readProgram txt = some prog ∧
      ∃ L : Layout prog.asm, Inevitable (AArch64.step L) (RunReturns prog.asm 0x20000000 0x10000000
        frameDump (text "a.out") [] [.x 5, .a 0] mainLoaded.regs.x) (mainConfig L) := by
  have hb : build 6 ((ELFImage.mk loadFile.spans true).reader plainEnv.beyond) 0 =
      some (.ok loadCFG) := rfl
  have hbuilds : Builds (exactWord loadFile.spans) 0 loadCFG := ⟨6, rfl⟩
  obtain ⟨out, hout⟩ : ∃ out,
      main 6 default (fun _ => some loadFile) plainEnv loadArgs = some (.ok out) :=
    main_total load_parsed rfl loadFile_runnable hb (by decide)
  obtain ⟨cfg, printed, -, hcfg, -, hwritten⟩ :=
    (main_translates load_parsed rfl loadFile_runnable hout).run
  obtain rfl := (hcfg loadFile_exact).unique hbuilds
  cases hwritten with
  | unasked hp => cases hp
  | refused _ _ ho => cases ho
  | @written m _ _ hm =>
    have hof := translate_inv hbuilds hm
    obtain ⟨L⟩ := hof.layout hbuilds.sound (by decide)
    have hbase := load_imageBase hof
    obtain ⟨-, prog, hprog, hcomputes⟩ := toolchain_computes load_parsed rfl loadFile_runnable
      loadFile_exact hbuilds load_manageable hout rfl
    obtain rfl := Option.some.inj ((translated_writable hbuilds hm).readProgram.symm.trans hprog)
    have hrun : ReflTransGen (AllowedStep (exactWord loadFile.spans) (InBuffer (imageBase m)))
        (startMachine 0 (imageBase m) 0x20000000 [] (mainConfig L).host.mem) mainLoaded := by
      rw [hbase]
      exact main_run loadFile_zero loadFile_eight
    refine ⟨_, _, _, hout, rfl, hprog, L, hcomputes.returns
      ⟨main_apart, main_called L hbase hof.entry⟩ hrun (.ret loadFile_twelve rfl rfl)⟩

end File

end Riscy
