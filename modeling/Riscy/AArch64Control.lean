import Riscy.AArch64Runtime

/-! Where control goes at the end of a block. The `ret` of a block is for the call of
`riscy_indirect_jump` that is innermost. If that is the one of `_riscy_entry`, the run ends;
if it is the one of a block, control falls into the block that follows in the text. -/
namespace Riscy.AArch64
open RISCV
open Relation (ReflTransGen)

section Control
variable {mem : MemoryReader} {entry : BitVec 64} {cfg : CFG} {o : ItemOrders} {m : ModuleAsm}
  {L : Layout m} {c c' d c₀ : Config}

/-- Control is back in the caller of `_riscy_entry` after no more than returns, with the memory
as it is. -/
structure Returns (L : Layout m) (mem : ByteMemory.Memory 64) (c : Config) : Prop where
  ends : ∃ d, ReflTransGen (Step L) c d ∧ d.place = .caller
  only : ∀ d, ReflTransGen (Step L) c d → (∀ j, d.place ≠ .block j) ∧ d.host.mem = mem

/-- The place that the terminator of block `i` asks for. -/
def Placed (o : ItemOrders) (cfg : CFG) (L : Layout m) (h : Host PReg) (c : Config) : Exit → Prop
  | .goto t => ∃ j asm, c.place = .block j ∧ m.blocks[j]? = some asm ∧ asm.label = t
  | .indirect t => c.place = .trapped ∨ ∃ j, c.place = .block j ∧ BlockAt o cfg m j t
  | .ret => Returns L h.mem c
  | .trap => c.place = .trapped

/-- The address that a call of `riscy_indirect_jump` is asked for next. -/
inductive Asks (m : ModuleAsm) (c : Config) : BitVec 64 → Prop
  | entry (hc : c.place = .entry) : Asks m c (c.host.r 1)
  | block {i asm h t} (hc : c.place = .block i) (hi : m.blocks[i]? = some asm)
    (hr : asm.run noReg 1 c.host = some (h, .indirect t)) : Asks m c t

/-- The state before a step: a block that ends in `ret` was called for `_riscy_entry`, and the
index of a block that is searched fits the 32 bits that it is cast to. -/
structure Guarded (m : ModuleAsm) (c : Config) : Prop where
  single : ∀ i asm, c.place = .block i → m.blocks[i]? = some asm → asm.jumps = [.ret] →
    c.frames.length = 1
  fits : ∀ t, Asks m c t → ∀ k, m.addrs[k]? = some t → k < 2 ^ 32 ∨ 2 ^ 31 ≤ k % 2 ^ 32

/-- Calls that have not returned: that of `_riscy_entry` is the outermost one, and blocks have
made the others. -/
def Links (L : Layout m) (fs : List Frame) : Prop :=
  ∃ gs sp, fs = gs ++ [⟨L.address .stub, sp⟩] ∧
    ∀ g ∈ gs, ∃ k ≤ m.blocks.length, g.link = L.address (.block k)

/-- What holds between the steps of a guarded run. -/
inductive Ordered (L : Layout m) : Config → Prop
  | entry {h sp} (h30 : h.r 30 = L.address .caller) : Ordered L ⟨.entry, h, sp, []⟩
  | block {i h sp fs} (hi : i < m.blocks.length) (h30 : h.r 30 = L.address .resume)
    (h19 : h.r 19 = L.address .caller) (hl : Links L fs) : Ordered L ⟨.block i, h, sp, fs⟩
  | resume {h sp sp'} (h19 : h.r 19 = L.address .caller) :
    Ordered L ⟨.resume, h, sp, [⟨L.address .stub, sp'⟩]⟩
  | stub {h sp} (h19 : h.r 19 = L.address .caller) : Ordered L ⟨.stub, h, sp, []⟩
  | caller {h sp} : Ordered L ⟨.caller, h, sp, []⟩
  | trapped {h sp fs} : Ordered L ⟨.trapped, h, sp, fs⟩

/-- A search that does not run out of 32 bits finds the block at an address, if anything. -/
theorem findBlock_sound (h : ModuleOf o cfg m) {t : BitVec 64} {i : ℕ}
    (hfits : ∀ k, m.addrs[k]? = some t → k < 2 ^ 32 ∨ 2 ^ 31 ≤ k % 2 ^ 32)
    (hi : findBlock m t = Int.ofNat i) : (addresses cfg)[i]? = some t := by
  rw [findBlock, h.searched] at hi
  by_cases ht : t ∈ addresses cfg
  · obtain ⟨k, hk⟩ := List.mem_iff_getElem?.mp ht
    rw [findFrom_at hk (addresses_nodup cfg), Nat.zero_add, BitVec.toInt_eq_toNat_cond,
      BitVec.toNat_ofNat] at hi
    have hkf := hfits k (h.addrs ▸ hk)
    have hik : i = k := by
      rw [Int.ofNat_eq_natCast] at hi
      split_ifs at hi <;> omega
    rw [hik]
    exact hk
  · rw [findFrom_none ht] at hi
    cases hi

/-- The call of the block that is found. -/
theorem dispatch_block (h : ModuleOf o cfg m) (hcfg : cfg.Sound mem entry) (left : Leftover)
    {host : Host PReg} {i : ℕ} (hi : findBlock m (host.r 1) = Int.ofNat i)
    (hget : (addresses cfg)[i]? = some (host.r 1)) :
    ∃ j, BlockAt o cfg m j (host.r 1) ∧ dispatch L left c host = some ⟨.block j,
      ((host.afterC left).set 0 (host.r 0)).set 30 (L.address .resume), left.sp,
      ⟨host.r 30, c.sp⟩ :: c.frames⟩ := by
  have hptr : m.ptrs[i]? = some (blockLabel (host.r 1)) := by
    rw [h.ptrs, List.getElem?_map, hget]
    rfl
  obtain ⟨j, hj, hat⟩ := h.find hcfg (mem_addresses.mp (List.mem_of_getElem? hget))
  refine ⟨j, hat, ?_⟩
  simp only [dispatch, hi, hptr, Option.bind_some, hj, Option.bind_eq_bind]
  rfl

/-- Where a dispatch leads. -/
theorem dispatch_placed (h : ModuleOf o cfg m) (hcfg : cfg.Sound mem entry) (left : Leftover)
    (host : Host PReg)
    (hfits : ∀ k, m.addrs[k]? = some (host.r 1) → k < 2 ^ 32 ∨ 2 ^ 31 ≤ k % 2 ^ 32) :
    ∃ d, dispatch L left c host = some d ∧ (d = { c with place := .trapped, host } ∨ ∃ j,
      BlockAt o cfg m j (host.r 1) ∧ d = ⟨.block j,
        ((host.afterC left).set 0 (host.r 0)).set 30 (L.address .resume), left.sp,
        ⟨host.r 30, c.sp⟩ :: c.frames⟩) := by
  cases hi : findBlock m (host.r 1) with
  | negSucc k => exact ⟨_, by simp only [dispatch, hi], Or.inl rfl⟩
  | ofNat i =>
    obtain ⟨j, hat, hd⟩ := dispatch_block (L := L) (c := c) h hcfg left hi
      (findBlock_sound h hfits hi)
    exact ⟨_, hd, Or.inr ⟨j, hat, rfl⟩⟩

theorem BlockAt.lt {j : ℕ} {a : BitVec 64} (h : BlockAt o cfg m j a) : j < m.blocks.length := by
  obtain ⟨bb, -, -, asm, hj, -⟩ := h
  exact (List.getElem?_eq_some_iff.mp hj).1

theorem Links.cons {fs : List Frame} (h : Links L fs) {k : ℕ} (hk : k ≤ m.blocks.length)
    (sp : BitVec 64) : Links L (⟨L.address (.block k), sp⟩ :: fs) := by
  obtain ⟨gs, sp', rfl, hgs⟩ := h
  exact ⟨_ :: gs, sp', rfl, List.forall_mem_cons.mpr ⟨⟨k, hk, rfl⟩, hgs⟩⟩

/-- In the call of `_riscy_entry`, with no other one left, control returns to C. -/
theorem returns_of_resume {h : Host PReg} {sp sp' : BitVec 64}
    (h19 : h.r 19 = L.address .caller) :
    Returns L h.mem ⟨.resume, h, sp, [⟨L.address .stub, sp'⟩]⟩ := by
  have hresume : ∀ left, step L left ⟨.resume, h, sp, [⟨L.address .stub, sp'⟩]⟩ =
      some ⟨.stub, (h.afterC left).set 30 (L.address .stub), sp', []⟩ :=
    fun left => jumpTo_address trivial
  have hstub : ∀ left left', step L left' ⟨.stub, (h.afterC left).set 30 (L.address .stub),
      sp', []⟩ = some ⟨.caller, (h.afterC left).set 30 (L.address .stub), sp', []⟩ := by
    intro left left'
    have hr : ((h.afterC left).set 30 (L.address .stub)).r 19 = L.address .caller := h19
    simp only [step, hr]
    exact jumpTo_address trivial
  constructor
  · let left : Leftover := ⟨fun _ => 0, h.flags, 0⟩
    exact ⟨_, .tail (.single ⟨left, hresume left⟩) ⟨left, hstub left left⟩, rfl⟩
  · intro d hd
    have hcases : d = ⟨.resume, h, sp, [⟨L.address .stub, sp'⟩]⟩ ∨
        (∃ left, d = ⟨.stub, (h.afterC left).set 30 (L.address .stub), sp', []⟩) ∨
          ∃ left, d = ⟨.caller, (h.afterC left).set 30 (L.address .stub), sp', []⟩ := by
      induction hd with
      | refl => exact Or.inl rfl
      | tail _ hs ih =>
        obtain ⟨left', hs⟩ := hs
        rcases ih with rfl | ⟨left, rfl⟩ | ⟨left, rfl⟩
        · rw [hresume] at hs
          cases hs
          exact Or.inr (Or.inl ⟨left', rfl⟩)
        · rw [hstub] at hs
          cases hs
          exact Or.inr (Or.inr ⟨left, rfl⟩)
        · cases hs
    rcases hcases with rfl | ⟨left, rfl⟩ | ⟨left, rfl⟩
    · exact ⟨fun j hj => (by cases hj), rfl⟩
    · exact ⟨fun j hj => (by cases hj), rfl⟩
    · exact ⟨fun j hj => (by cases hj), rfl⟩

theorem return_jumps {bb : BasicBlock} (ht : bb.term = .Return) :
    termJumps (selectedTerm (lifted bb).term) = [.ret] := by
  simp [lifted, liftTerm, ht, selectedTerm, termJumps]

/-- From a block: control is placed, and the order is kept. -/
theorem Ordered.leaveBlock (h : ModuleOf o cfg m) (hcfg : cfg.Sound mem entry)
    (ho : Ordered L c) {i : ℕ} (hc : c.place = .block i) (hg : Guarded m c) :
    ∃ asm t e, m.blocks[i]? = some asm ∧ asm.run noReg 1 c.host = some (t, e) ∧
      ∀ left, ∃ d, step L left c = some d ∧ Placed o cfg L t d e ∧ Ordered L d := by
  cases ho with
  | @block j host sp fs hi h30 h19 hlinks =>
    cases hc
    obtain ⟨bb, hbb, asm, t, e, hget, hp, hrun, hleaves, hkeep, hstep⟩ :=
      step_block (L := L) (c := ⟨.block i, host, sp, fs⟩) h hcfg rfl hi
    have ht30 : t.r 30 = L.address .resume := (hkeep 30 (by decide)).trans h30
    have ht19 : t.r 19 = L.address .caller := (hkeep 19 (by decide)).trans h19
    refine ⟨asm, t, e, hget, hrun, fun left => ?_⟩
    rw [hstep left]
    cases hleaves with
    | @goto a ha hn =>
      obtain ⟨j, hj, hat⟩ := h.find hcfg (hcfg.closed bb hbb a ha)
      refine ⟨_, by rw [leave, hj]; rfl, ?_, .block hat.lt ht30 ht19 hlinks⟩
      obtain ⟨bb', hbb', hstart, asm', hj', hp'⟩ := hat
      exact ⟨j, asm', rfl, hj', by rw [hp'.label (hcfg.built bb' hbb'), hstart]⟩
    | indirect ht =>
      have hfits : ∀ k, m.addrs[k]? = some (t.r 1) → k < 2 ^ 32 ∨ 2 ^ 31 ≤ k % 2 ^ 32 :=
        hg.fits _ (.block rfl hget hrun)
      obtain ⟨d, hd, rfl | ⟨j, hat, rfl⟩⟩ := dispatch_placed (L := L) h hcfg left
        (t.set 30 (L.address (.block (i + 1)))) hfits
      · exact ⟨_, hd, Or.inl rfl, .trapped⟩
      · exact ⟨_, hd, Or.inr ⟨j, rfl, hat⟩, .block hat.lt rfl ht19 (hlinks.cons hi _)⟩
    | ret ht =>
      have hjumps : asm.jumps = [.ret] := (hp.jumps (hcfg.built bb hbb)).trans (return_jumps ht)
      obtain ⟨gs, sp, rfl, -⟩ := hlinks
      have hlen := hg.single i asm rfl hget hjumps
      rw [List.length_append, List.length_singleton] at hlen
      obtain rfl : gs = [] := List.length_eq_zero_iff.mp (by omega)
      refine ⟨_, by rw [leave, ht30]; exact jumpTo_address trivial, ?_, .resume ht19⟩
      exact returns_of_resume ht19
    | trap ht => exact ⟨_, rfl, rfl, .trapped⟩
  | _ => cases hc

/-- A block that ends in `ret` and was called for another block falls into the text behind
that block. -/
theorem Ordered.fallsThrough (hcfg : cfg.Sound mem entry)
    (ho : Ordered L c) {i : ℕ} (hc : c.place = .block i) {bb : BasicBlock} {asm : AsmBlock PReg}
    (hbb : bb ∈ cfg.blocks) (hi : m.blocks[i]? = some asm) (hp : PrintedAs o bb asm)
    (ht : bb.term = .Return) (hlen : c.frames.length ≠ 1) (left : Leftover) :
    ∃ t d, asm.run noReg 1 c.host = some (t, .ret) ∧ AArch64.step L left c = some d ∧
      ¬ Returns L t.mem d := by
  obtain ⟨t, e, hrun, -, hleaves, hkeep⟩ := hp.run hcfg hbb c.host
  obtain rfl : e = .ret := hleaves.of_return ht
  cases ho with
  | @block j host sp fs hi' h30 h19 hlinks =>
    cases hc
    obtain ⟨gs, sp', rfl, hgs⟩ := hlinks
    cases gs with
    | nil => exact absurd rfl hlen
    | cons g gs =>
      obtain ⟨k, hk, hlink⟩ := hgs g (List.mem_cons_self ..)
      have ht30 : t.r 30 = L.address .resume := (hkeep 30 (by decide)).trans h30
      refine ⟨t, ⟨.resume, t, sp, g :: gs ++ [⟨L.address .stub, sp'⟩]⟩, hrun, ?_, fun hr => ?_⟩
      · simp only [AArch64.step, hi, hrun, Option.bind_eq_bind, Option.bind_some, leave, ht30]
        exact jumpTo_address trivial
      · refine (hr.only ⟨.block k, (t.afterC left).set 30 g.link, g.sp,
          gs ++ [⟨L.address .stub, sp'⟩]⟩ (.single ⟨left, ?_⟩)).1 k rfl
        simp only [AArch64.step, List.cons_append, hlink]
        exact jumpTo_address hk
  | _ => cases hc

theorem Ordered.enter (h : ModuleOf o cfg m) (hcfg : cfg.Sound mem entry)
    (ho : Ordered L c) (hc : c.place = .entry) (hg : Guarded m c) (left : Leftover) :
    ∃ d, AArch64.step L left c = some d ∧ Ordered L d := by
  cases ho with
  | @entry host sp h30 =>
    obtain ⟨d, hd, hplace⟩ := dispatch_placed (L := L) (c := ⟨.entry, host, sp, []⟩) h hcfg left
      ((host.set 19 (host.r 30)).set 30 (L.address .stub)) (hg.fits _ (.entry rfl))
    refine ⟨d, hd, ?_⟩
    rcases hplace with rfl | ⟨j, hat, rfl⟩
    · exact .trapped
    · exact .block hat.lt rfl h30 ⟨[], sp, rfl, nofun⟩
  | _ => cases hc

/-- One guarded step. -/
theorem Ordered.step (h : ModuleOf o cfg m) (hcfg : cfg.Sound mem entry) (ho : Ordered L c)
    (hg : Guarded m c) (hs : Step L c d) : Ordered L d := by
  obtain ⟨left, hs⟩ := hs
  have hsame : ∀ {c'}, (∃ d', AArch64.step L left c' = some d' ∧ Ordered L d') →
      AArch64.step L left c' = some d → Ordered L d := by
    rintro c' ⟨d', hd', ho'⟩ hs'
    rw [hs'] at hd'
    cases hd'
    exact ho'
  cases ho with
  | entry h30 => exact hsame (Ordered.enter h hcfg (.entry h30) rfl hg left) hs
  | block hi h30 h19 hlinks =>
    obtain ⟨asm, t, e, -, -, hall⟩ :=
      Ordered.leaveBlock h hcfg (.block hi h30 h19 hlinks) rfl hg
    obtain ⟨d', hd', -, ho'⟩ := hall left
    exact hsame ⟨d', hd', ho'⟩ hs
  | @resume host sp sp' h19 =>
    have hjump : AArch64.step L left ⟨.resume, host, sp, [⟨L.address .stub, sp'⟩]⟩ = _ :=
      jumpTo_address (p := .stub) trivial
    exact hsame ⟨_, hjump, .stub h19⟩ hs
  | @stub host sp h19 =>
    have hjump : AArch64.step L left ⟨.stub, host, sp, []⟩ = some ⟨.caller, host, sp, []⟩ := by
      simp only [AArch64.step, h19]
      exact jumpTo_address trivial
    exact hsame ⟨_, hjump, .caller⟩ hs
  | caller => cases hs
  | trapped => cases hs

theorem Ordered.run (h : ModuleOf o cfg m) (hcfg : cfg.Sound mem entry) (ho : Ordered L c)
    (hr : ReflTransGen (fun c d => Guarded m c ∧ Step L c d) c d) : Ordered L d := by
  induction hr with
  | refl => exact ho
  | tail _ hs ih => exact ih.step h hcfg hs.1 hs.2

/-- In a run from `_riscy_entry` through states with `P`, every block ends where its terminator
says. -/
def ControlPlaced (o : ItemOrders) (cfg : CFG) (L : Layout m) (P : Config → Prop) : Prop :=
  ∀ c c', Entered L c → ReflTransGen (fun c d => P c ∧ Step L c d) c c' → P c' →
    ∀ i, c'.place = .block i → ∃ asm t e, m.blocks[i]? = some asm ∧
      asm.run noReg 1 c'.host = some (t, e) ∧
      ∀ left, ∃ d, AArch64.step L left c' = some d ∧ Placed o cfg L t d e

theorem control_placed (h : Builds mem entry cfg) (hm : translate o cfg = .ok m) (L : Layout m) :
    ControlPlaced o cfg L (Guarded m) := by
  intro c c' hc hr hg i hi
  have hof := translate_inv h hm
  have hstart : Ordered L c := by
    obtain ⟨place, host, sp, frames⟩ := c
    obtain ⟨rfl, rfl, h30⟩ := hc
    exact .entry h30
  obtain ⟨asm, t, e, hget, hrun, hall⟩ := (hstart.run hof h.sound hr).leaveBlock hof h.sound hi hg
  refine ⟨asm, t, e, hget, hrun, fun left => ?_⟩
  obtain ⟨d, hd, hplaced, -⟩ := hall left
  exact ⟨d, hd, hplaced⟩

end Control

section Nested

/-- The registers of the map in its own order, inserted one by one into a sorted list. -/
def insertedItems (live : LivenessMap) : List Item :=
  (live.entries.map fun e => (⟨e.1, e.2⟩ : Item)).insertionSort fun a b => a.lr.start ≤ b.lr.start

theorem insertedItems_order (live : LivenessMap) : ItemOrder live (insertedItems live) where
  perm := List.perm_insertionSort _ _
  starts := by
    have htotal : Std.Total (fun a b : Item => a.lr.start ≤ b.lr.start) := ⟨fun a b => le_total _ _⟩
    have htrans : IsTrans Item (fun a b : Item => a.lr.start ≤ b.lr.start) :=
      ⟨fun a b c => le_trans⟩
    exact List.pairwise_insertionSort _ _

def insertedOrders : ItemOrders := ⟨fun _ => insertedItems, fun _ => insertedItems_order⟩

/-- At 0 a return; at 4 a branch to 12 or on to 8; at 8 an indirect jump; at 12 a branch to 0. -/
def nestReader : MemoryReader := fun a =>
  if a = 0 then some 0x00008067
  else if a = 4 then some 0x00001463
  else if a = 8 then some 0x000302e7
  else if a = 12 then some 0xfe001ae3
  else none

def nestReturn : BasicBlock := ⟨0, [⟨0, 0x00008067, .JALR, [.reg 0, .mem 1 0]⟩], .Return, []⟩

def nestBranch : BasicBlock :=
  ⟨4, [⟨4, 0x00001463, .BNE, [.reg 0, .reg 0, .imm 8]⟩], .Branch, [12, 8]⟩

def nestJump : BasicBlock :=
  ⟨8, [⟨8, 0x000302e7, .JALR, [.reg 5, .mem 6 0]⟩], .IndirectJump, []⟩

def nestCFG : CFG where
  entry := 4
  blocks := [nestBranch,
    ⟨12, [⟨12, 0xfe001ae3, .BNE, [.reg 0, .reg 0, .imm (-12)]⟩], .Branch, [0, 16]⟩,
    nestJump, nestReturn, ⟨16, [], .Trap, []⟩]
  indexByAddr := ((((∅ : AddrIndex).insert 4 0).insert 12 1 |>.insert 8 2).insert 0 3).insert 16 4

theorem nest_builds : Builds nestReader 4 nestCFG := ⟨12, rfl⟩

/-- The lines and jumps that the pipeline prints for a block. -/
def printedLines (o : ItemOrders) (bb : BasicBlock) : Option (List (Line PReg) × List Jump) :=
  match (translateBlock o bb).bind fun p => emitBlock p.1 p.2 with
  | .ok asm => some (asm.lines, asm.jumps)
  | .error _ => none

theorem PrintedAs.printedLines {o : ItemOrders} {bb : BasicBlock} {asm : AsmBlock PReg}
    (h : PrintedAs o bb asm) : printedLines o bb = some (asm.lines, asm.jumps) := by
  obtain ⟨blk, asg, ht, ha⟩ := h
  have he : ((translateBlock o bb).bind fun p => emitBlock p.1 p.2) = .ok asm := by
    rw [ht]
    exact ha
  rw [AArch64.printedLines, he]

theorem nestBranch_lines : printedLines insertedOrders nestBranch =
    some ([.ldr .x 21 0 0x100, .ldr .x 28 0 0, .ldr .x 28 0 0, .cmp 28 28, .cset 28 .ne,
      .cmpZero 28], [.bne (blockLabel 12), .b (blockLabel 8)]) := by
  decide +kernel

theorem nestJump_lines : printedLines insertedOrders nestJump =
    some ([.ldr .x 21 0 0x100, .ldr .x 28 0 0x30, .movImm 28 0] ++
      [.alu .add 27 28 28, .movz 26 0xfffe, .movk 26 0xffff 16, .movk 26 0xffff 32,
        .movk 26 0xffff 48, .alu .and 26 27 26, .movImm 26 12, .str .x 26 0 0x28] ++
      [.mov 1 28], [.bl]) := by
  decide +kernel

/-- The branch compares `x0` with itself and is not taken. -/
theorem nestBranch_run {asm : AsmBlock PReg} (h : PrintedAs insertedOrders nestBranch asm)
    (s : Host PReg) : ∃ t, asm.run noReg 1 s = some (t, .goto (blockLabel 8)) := by
  have hl := h.printedLines
  rw [nestBranch_lines, Option.some.injEq, Prod.mk.injEq] at hl
  rw [AsmBlock.run, ← hl.1, ← hl.2]
  simp [runLines_cons, Line.exec, noReg, Host.set, compare, exitOf, Flags.holds]

/-- The target of the jump is 0. -/
theorem nestJump_run {asm : AsmBlock PReg} (h : PrintedAs insertedOrders nestJump asm)
    (s : Host PReg) : ∃ t, asm.run noReg 1 s = some (t, .indirect 0) ∧ t.r 1 = 0 := by
  have hl := h.printedLines
  rw [nestJump_lines, Option.some.injEq, Prod.mk.injEq] at hl
  have hfirst : ∃ u, runLines noReg [.ldr .x 21 0 0x100, .ldr .x 28 0 0x30, .movImm 28 0] s =
      some u ∧ u.r 28 = 0 := ⟨_, rfl, rfl⟩
  obtain ⟨u, hu, hu28⟩ := hfirst
  have hrest : ∀ l ∈ ([.alu .add 27 28 28, .movz 26 0xfffe, .movk 26 0xffff 16,
      .movk 26 0xffff 32, .movk 26 0xffff 48, .alu .and 26 27 26, .movImm 26 12,
      .str .x 26 0 0x28] : List (Line PReg)), l.base ≠ some noReg := by decide
  obtain ⟨v, hv⟩ := runLines_total hrest u
  have hv28 : v.r 28 = 0 := (runLines_frame (by decide) hv).trans hu28
  refine ⟨v.set 1 (v.r 28), ?_, hv28⟩
  rw [AsmBlock.run, ← hl.1, ← hl.2, runLines_append, runLines_append, hu, Option.bind_some, hv]
  change some (v.set 1 (v.r 28), Exit.indirect (v.r 28)) = _
  rw [hv28]

section Linked
variable {m : ModuleAsm} (L : Layout m) (left : Leftover) {c : Config}

/-- The block of the nest at an address, as it stands in the text. -/
theorem nest_block {j : ℕ} {bb : BasicBlock} (hbb : bb ∈ nestCFG.blocks)
    (h : BlockAt insertedOrders nestCFG m j bb.start) :
    ∃ asm, m.blocks[j]? = some asm ∧ PrintedAs insertedOrders bb asm := by
  obtain ⟨bb', hbb', hstart, asm, hj, hp⟩ := h
  have hsame : bb' = bb := by
    have h1 := (nest_builds.sound.blockAt_iff bb.start bb').mpr ⟨hbb', hstart⟩
    rw [(nest_builds.sound.blockAt_iff bb.start bb).mpr ⟨hbb, rfl⟩] at h1
    exact (Option.some.inj h1).symm
  exact ⟨asm, hj, hsame ▸ hp⟩

/-- Every block of the nest is found. -/
theorem nest_dispatch (c : Config) (hof : ModuleOf insertedOrders nestCFG m) (host : Host PReg)
    {bb : BasicBlock} (hbb : bb ∈ nestCFG.blocks) (h1 : host.r 1 = bb.start) :
    ∃ j asm, m.blocks[j]? = some asm ∧ PrintedAs insertedOrders bb asm ∧
      dispatch L left c host = some ⟨.block j,
        ((host.afterC left).set 0 (host.r 0)).set 30 (L.address .resume), left.sp,
        ⟨host.r 30, c.sp⟩ :: c.frames⟩ := by
  have hcfg := nest_builds.sound
  have hnum : m.numBlocks < 2 ^ 31 := (hof.numBlocks_le hcfg).trans_lt (by decide)
  have hkey : host.r 1 ∈ nestCFG.indexByAddr := h1 ▸ hcfg.start_key hbb
  obtain ⟨i, hi, hget⟩ := hof.found hnum hkey
  obtain ⟨j, hat, hd⟩ := dispatch_block (L := L) (c := c) hof hcfg left hi (hof.addrs ▸ hget)
  rw [h1] at hat
  obtain ⟨asm, hj, hp⟩ := nest_block hbb hat
  exact ⟨j, asm, hj, hp, hd⟩

/-- The branch goes on to the indirect jump. -/
theorem nest_branch (hof : ModuleOf insertedOrders nestCFG m) {i : ℕ} {asm : AsmBlock PReg}
    (hc : c.place = .block i) (hi : m.blocks[i]? = some asm)
    (hp : PrintedAs insertedOrders nestBranch asm) :
    ∃ j asm' t, m.blocks[j]? = some asm' ∧ PrintedAs insertedOrders nestJump asm' ∧
      step L left c = some { c with place := .block j, host := t } ∧ t.r 19 = c.host.r 19 := by
  have hcfg := nest_builds.sound
  obtain ⟨t, hrun⟩ := nestBranch_run hp c.host
  obtain ⟨t', e, hrun', -, -, hkeep⟩ := hp.run hcfg (by decide) c.host
  rw [hrun] at hrun'
  cases hrun'
  obtain ⟨j, hj, hat⟩ := hof.find hcfg (hcfg.start_key (b := nestJump) (by decide))
  obtain ⟨asm', hj', hp'⟩ := nest_block (show nestJump ∈ nestCFG.blocks by decide) hat
  refine ⟨j, asm', t, hj', hp', ?_, hkeep 19 (by decide)⟩
  simp only [step, hc, hi, hrun, Option.bind_eq_bind, Option.bind_some, leave]
  exact congrArg (Option.map _) hj

/-- The indirect jump calls the block that returns. -/
theorem nest_jump (hof : ModuleOf insertedOrders nestCFG m) {i : ℕ} {asm : AsmBlock PReg}
    (hc : c.place = .block i) (hi : m.blocks[i]? = some asm)
    (hp : PrintedAs insertedOrders nestJump asm) :
    ∃ j asm' t, m.blocks[j]? = some asm' ∧ PrintedAs insertedOrders nestReturn asm' ∧
      step L left c = some ⟨.block j, t, left.sp, ⟨L.address (.block (i + 1)), c.sp⟩ :: c.frames⟩ ∧
      t.r 30 = L.address .resume ∧ t.r 19 = c.host.r 19 := by
  obtain ⟨t, hrun, h1⟩ := nestJump_run hp c.host
  obtain ⟨t', e, hrun', -, -, hkeep⟩ := hp.run nest_builds.sound (by decide) c.host
  rw [hrun] at hrun'
  cases hrun'
  obtain ⟨j, asm', hj, hp', hd⟩ := nest_dispatch L left c hof
    (t.set 30 (L.address (.block (i + 1)))) (show nestReturn ∈ nestCFG.blocks by decide) h1
  have hstep : step L left c = dispatch L left c (t.set 30 (L.address (.block (i + 1)))) := by
    simp only [step, hc, hi, hrun, Option.bind_eq_bind, Option.bind_some, leave]
  exact ⟨j, asm', _, hj, hp', hstep.trans hd, rfl, hkeep 19 (by decide)⟩

end Linked

theorem nest_linked : ∃ m, translate insertedOrders nestCFG = .ok m ∧ Nonempty (Layout m) := by
  have hsize : ∀ bb ∈ nestCFG.blocks, irSize bb.insts < 2 ^ 31 := by decide
  obtain ⟨m, hm, -⟩ := translates_short nest_builds.sound hsize insertedOrders
  exact ⟨m, hm, (translate_inv nest_builds hm).layout nest_builds.sound (by decide)⟩

theorem nest_placed : ∃ m, translate insertedOrders nestCFG = .ok m ∧ ∃ L : Layout m,
    ControlPlaced insertedOrders nestCFG L (Guarded m) := by
  obtain ⟨m, hm, ⟨L⟩⟩ := nest_linked
  exact ⟨m, hm, L, control_placed nest_builds hm L⟩

/-- The block that the indirect jump calls returns into the block behind the jump. -/
theorem nest_not_placed : ¬ ∀ mem entry cfg o m, Builds mem entry cfg → translate o cfg = .ok m →
    ∀ L : Layout m, ControlPlaced o cfg L fun _ => True := by
  intro h
  obtain ⟨m, hm, ⟨L⟩⟩ := nest_linked
  have hall := h _ _ _ _ m nest_builds hm L
  have hof := translate_inv nest_builds hm
  have hcfg := nest_builds.sound
  let left : Leftover := ⟨fun _ => 0, ⟨false, false, false, false⟩, 0⟩
  let host : Host PReg := ⟨fun n => if n = 1 then 4 else if n = 30 then L.address .caller else 0,
    left.flags, 0, fun _ => 0, fun _ => 0⟩
  obtain ⟨j₁, asm₁, hj₁, hp₁, hd₁⟩ := nest_dispatch L left ⟨.entry, host, 0, []⟩ hof
    ((host.set 19 (host.r 30)).set 30 (L.address .stub))
    (show nestBranch ∈ nestCFG.blocks by decide) rfl
  obtain ⟨c₁, hc₁, hplace₁, h19₁, hframes₁⟩ : ∃ c₁, step L left ⟨.entry, host, 0, []⟩ = some c₁ ∧
      c₁.place = .block j₁ ∧ c₁.host.r 19 = L.address .caller ∧
      c₁.frames = [⟨L.address .stub, 0⟩] := ⟨_, hd₁, rfl, rfl, rfl⟩
  obtain ⟨j₂, asm₂, t₂, hj₂, hp₂, hd₂, h19₂⟩ := nest_branch L left hof hplace₁ hj₁ hp₁
  obtain ⟨j₃, asm₃, t₃, hj₃, hp₃, hd₃, h30₃, h19₃⟩ := nest_jump L left
    (c := { c₁ with place := .block j₂, host := t₂ }) hof rfl hj₂ hp₂
  have hlt₂ : j₂ < m.blocks.length := (List.getElem?_eq_some_iff.mp hj₂).1
  have hlt₃ : j₃ < m.blocks.length := (List.getElem?_eq_some_iff.mp hj₃).1
  have hlinks : Links L c₁.frames := ⟨[], 0, hframes₁, nofun⟩
  have hordered : Ordered L ⟨.block j₃, t₃, left.sp,
      ⟨L.address (.block (j₂ + 1)), c₁.sp⟩ :: c₁.frames⟩ :=
    .block hlt₃ h30₃ ((h19₃.trans h19₂).trans h19₁) (hlinks.cons hlt₂ _)
  have hlen : (⟨L.address (.block (j₂ + 1)), c₁.sp⟩ :: c₁.frames).length ≠ 1 := by
    simp [hframes₁]
  obtain ⟨t, d, hrun, hstep, hnot⟩ := hordered.fallsThrough hcfg rfl
    (show nestReturn ∈ nestCFG.blocks by decide) hj₃ hp₃ rfl hlen left
  have hreach : ReflTransGen (fun c d => True ∧ Step L c d) ⟨.entry, host, 0, []⟩
      ⟨.block j₃, t₃, left.sp, ⟨L.address (.block (j₂ + 1)), c₁.sp⟩ :: c₁.frames⟩ :=
    ((ReflTransGen.single ⟨trivial, left, hc₁⟩).tail ⟨trivial, left, hd₂⟩).tail
      ⟨trivial, left, hd₃⟩
  obtain ⟨asm, t', e, hget, hrun', hplaced⟩ := hall _ _ ⟨rfl, rfl, rfl⟩ hreach trivial j₃ rfl
  rw [hj₃] at hget
  cases hget
  rw [hrun] at hrun'
  cases hrun'
  obtain ⟨d', hd', hret⟩ := hplaced left
  rw [hstep] at hd'
  cases hd'
  exact hnot hret

end Nested

end Riscy.AArch64
