import Riscy.AArch64Runtime

/-! The calling convention of the host. A block reloads `x21` and hands out `x20` and `x22` to
`x28` without saving them, and `_riscy_entry` overwrites `x19`; so whatever returns to C breaks
the convention, and only code that never returns keeps it. -/
namespace Riscy.AArch64
open RISCV
open Relation (ReflTransGen)

section Convention
variable {mem : MemoryReader} {entry : BitVec 64} {cfg : CFG} {o : ItemOrders} {m : ModuleAsm}
  {L : Layout m} {c d : Config}

/-- Block `i` is called from C through its pointer. -/
structure Called (L : Layout m) (i : ℕ) (c : Config) : Prop where
  place : c.place = .block i
  frames : c.frames = []
  link : c.host.r 30 = L.address .caller

/-- The registers `x19` to `x28` of `c` are those of `d`. -/
def SavedKept (c d : Config) : Prop := ∀ n, 19 ≤ n → n ≤ 28 → d.host.r n = c.host.r n

/-- Whatever was called from C and has returned keeps what C relies on. -/
structure KeepsConvention (L : Layout m) : Prop where
  entry : ∀ c d, Entered L c → ReflTransGen (Step L) c d → d.place = .caller →
    SavedKept c d ∧ d.sp = c.sp
  blocks : ∀ i c d, Called L i c → ReflTransGen (Step L) c d → d.place = .caller → SavedKept c d

/-- Control is where it comes without a return. -/
def Inside (c : Config) : Prop :=
  c.place = .entry ∨ c.place = .trapped ∨ ∃ i, c.place = .block i

theorem dispatch_inside {left : Leftover} {h : Host PReg} (hd : dispatch L left c h = some d) :
    Inside d := by
  rcases dispatch_cases hd with ⟨hp, -, -⟩ | ⟨j, rfl⟩
  · exact Or.inr (Or.inl hp)
  · exact Or.inr (Or.inr ⟨j, rfl⟩)

/-- Without a `ret` in any block there is no return. -/
theorem Inside.step (h : ModuleOf o cfg m) (hcfg : cfg.Sound mem entry)
    (hret : ∀ bb ∈ cfg.blocks, bb.term ≠ .Return) (hc : Inside c) (hs : Step L c d) :
    Inside d := by
  obtain ⟨left, hs⟩ := hs
  rcases hc with hc | hc | ⟨i, hc⟩
  · simp only [AArch64.step, hc] at hs
    exact dispatch_inside hs
  · simp only [AArch64.step, hc, reduceCtorEq] at hs
  · rcases Nat.lt_or_ge i m.blocks.length with hi | hi
    · obtain ⟨bb, hbb, asm, t, e, -, -, -, hleaves, -, hstep⟩ := step_block h hcfg hc hi
      rw [hstep left] at hs
      cases hleaves with
      | goto ha ht =>
        obtain ⟨j, -, rfl⟩ := Option.map_eq_some_iff.mp hs
        exact Or.inr (Or.inr ⟨j, rfl⟩)
      | indirect ht => exact dispatch_inside hs
      | ret ht => exact absurd ht (hret bb hbb)
      | trap ht =>
        cases hs
        exact Or.inr (Or.inl rfl)
    · simp only [AArch64.step, hc, List.getElem?_eq_none hi] at hs
      cases hs

theorem Inside.run (h : ModuleOf o cfg m) (hcfg : cfg.Sound mem entry)
    (hret : ∀ bb ∈ cfg.blocks, bb.term ≠ .Return) (hc : Inside c)
    (hr : ReflTransGen (Step L) c d) : d.place ≠ .caller := by
  have hd : Inside d := by
    induction hr with
    | refl => exact hc
    | tail _ hs ih => exact ih.step h hcfg hret hs
  rcases hd with hd | hd | ⟨i, hd⟩ <;> simp [hd]

/-- A host at a block that is called from C, with another memory base in the struct than `x21`. -/
def calledHost (L : Layout m) : Host PReg where
  r n := if n = 30 then L.address .caller else 0
  flags := ⟨false, false, false, false⟩
  addr := 0
  words _ := 0
  mem _ := 1

theorem calledHost_word (L : Layout m) (a : BitVec 64) :
    wordAt (calledHost L).mem a 32 = 0x0101010101010101 := by
  simp [wordAt, calledHost, ByteMemory.read]

/-- A block that ends in `ret` returns to C with the memory base in `x21`. -/
theorem return_not_kept (h : ModuleOf o cfg m) (hcfg : cfg.Sound mem entry) {bb : BasicBlock}
    (hbb : bb ∈ cfg.blocks) (ht : bb.term = .Return) : ¬ KeepsConvention L := by
  intro hk
  obtain ⟨asm, hasm, hp⟩ := h.printedFor hcfg hbb
  obtain ⟨i, hi⟩ := List.mem_iff_getElem?.mp hasm
  obtain ⟨t, e, hrun, hlines, hleaves, hkeep⟩ := hp.run hcfg hbb (calledHost L)
  have he : e = .ret := by
    cases hleaves with
    | goto ha hn => exact absurd ht hn
    | indirect hn => rw [ht] at hn; cases hn
    | ret _ => rfl
    | trap hn => rw [ht] at hn; cases hn
  subst he
  have hlink : t.r 30 = L.address .caller := hkeep 30 (by decide)
  have hne : asm.lines ≠ [] := by
    obtain ⟨asg, body, ends, -, heq, -⟩ := hp.lines (hcfg.built bb hbb)
    rw [heq]
    exact List.cons_ne_nil _ _
  have hbase := hp.memBase (hcfg.built bb hbb) List.prefix_rfl hne hlines
  rw [calledHost_word] at hbase
  have hstep : Step L ⟨.block i, calledHost L, 0, []⟩ ⟨.caller, t, 0, []⟩ := by
    refine ⟨⟨fun _ => 0, ⟨false, false, false, false⟩, 0⟩, ?_⟩
    simp only [step, hi, hrun, Option.bind_eq_bind, Option.bind_some, leave, hlink]
    exact jumpTo_address trivial
  have hkept : t.r 21 = 0 :=
    hk.blocks i _ _ ⟨rfl, rfl, rfl⟩ (.single hstep) rfl 21 (by decide) (by decide)
  rw [hbase] at hkept
  exact absurd hkept (by decide)

/-- The calling convention is kept exactly by modules that never return. -/
theorem convention_iff (h : Builds mem entry cfg) (hm : translate o cfg = .ok m) (L : Layout m) :
    KeepsConvention L ↔ ∀ bb ∈ cfg.blocks, bb.term ≠ .Return := by
  have hof := translate_inv h hm
  constructor
  · intro hk bb hbb ht
    exact return_not_kept hof h.sound hbb ht hk
  · intro hret
    refine ⟨fun c d hc hr hd => ?_, fun i c d hc hr hd => ?_⟩
    · exact absurd hd (Inside.run hof h.sound hret (Or.inl hc.place) hr)
    · exact absurd hd (Inside.run hof h.sound hret (Or.inr (Or.inr ⟨i, hc.place⟩)) hr)

/-- A program that returns at once. -/
def retReader : MemoryReader := fun a => if a = 0 then some 0x00008067 else none

def retCFG : CFG where
  entry := 0
  blocks := [⟨0, [⟨0, 0x00008067, .JALR, [.reg 0, .mem 1 0]⟩], .Return, []⟩]
  indexByAddr := (∅ : AddrIndex).insert 0 0

theorem ret_builds : Builds retReader 0 retCFG := ⟨3, rfl⟩

theorem ret_linked : ∃ m, translate default retCFG = .ok m ∧ Nonempty (Layout m) := by
  have hsize : ∀ bb ∈ retCFG.blocks, irSize bb.insts < 2 ^ 31 := by decide
  obtain ⟨m, hm, -⟩ := translates_short ret_builds.sound hsize default
  exact ⟨m, hm, (translate_inv ret_builds hm).layout ret_builds.sound (by decide)⟩

theorem ret_convention : ∃ m, translate default retCFG = .ok m ∧ ∃ L : Layout m,
    (KeepsConvention L ↔ ∀ bb ∈ retCFG.blocks, bb.term ≠ .Return) := by
  obtain ⟨m, hm, ⟨L⟩⟩ := ret_linked
  exact ⟨m, hm, L, convention_iff ret_builds hm L⟩

theorem ret_not_kept : ¬ ∀ mem entry cfg o m, Builds mem entry cfg → translate o cfg = .ok m →
    ∀ L : Layout m, KeepsConvention L := by
  intro h
  obtain ⟨m, hm, ⟨L⟩⟩ := ret_linked
  have hkept := h _ _ _ _ m ret_builds hm L
  exact return_not_kept (translate_inv ret_builds hm) ret_builds.sound (List.mem_cons_self ..) rfl
    hkept

end Convention

end Riscy.AArch64
