import Riscy.AArch64Printed
import Riscy.RISCVReach

/-! The emitted module as a whole: the labels that its text defines, the tables, and the
search of the runtime through them. -/
namespace Riscy.AArch64
open RISCV

/-- Labels of the entry stub and of the tables. -/
def fixedLabels : List String :=
  ["_riscy_entry", "_riscy_entry_pc", "_riscy_num_blocks", "_riscy_block_addrs",
    "_riscy_block_ptrs"]

/-- The labels that the text of a module defines, in order. -/
def ModuleAsm.labels (m : ModuleAsm) : List String := fixedLabels ++ m.blocks.map AsmBlock.label

/-- `riscy_num_blocks`. -/
def ModuleAsm.numBlocks (m : ModuleAsm) : ℕ := m.blocks.length

/-- The loop of `find_block`; the index is cast to a 32-bit `int`. -/
def findFrom (pc : BitVec 64) : ℕ → List (BitVec 64) → ℤ
  | _, [] => -1
  | i, a :: rest => if a = pc then (BitVec.ofNat 32 i).toInt else findFrom pc (i + 1) rest

def findBlock (m : ModuleAsm) (pc : BitVec 64) : ℤ :=
  findFrom pc 0 (m.addrs.take m.numBlocks)

section Labels

theorem digitChar_inj : ∀ a < 16, ∀ b < 16, Nat.digitChar a = Nat.digitChar b → a = b := by
  decide

/-- Numbers are told apart by their hexadecimal digits. -/
theorem toDigits_inj {m n : ℕ} (h : Nat.toDigits 16 m = Nat.toDigits 16 n) : m = n := by
  induction m using Nat.strong_induction_on generalizing n with
  | h m ih =>
    rw [Nat.toDigits_eq_if (by omega), Nat.toDigits_eq_if (n := n) (by omega)] at h
    split_ifs at h with hm hn hn
    · exact digitChar_inj m hm n hn (List.singleton_inj.mp h)
    · exact absurd (List.append_eq_singleton_iff.mp h.symm) (by simp)
    · exact absurd (List.append_eq_singleton_iff.mp h) (by simp)
    · obtain ⟨hq, hr⟩ := List.append_inj' h rfl
      have hdiv : m / 16 = n / 16 := ih (m / 16) (by omega) hq
      have hmod : m % 16 = n % 16 := digitChar_inj _ (Nat.mod_lt _ (by omega)) _
        (Nat.mod_lt _ (by omega)) (List.singleton_inj.mp hr)
      omega

theorem blockLabel_toList (a : BitVec 64) :
    (blockLabel a).toList = "__riscy_block_0x".toList ++ Nat.toDigits 16 a.toNat := by
  rw [blockLabel, String.toList_append]
  exact congrArg _ (by simp [pcHex])

/-- Blocks at different addresses have different labels. -/
theorem blockLabel_inj {a b : BitVec 64} (h : blockLabel a = blockLabel b) : a = b := by
  have hl := congrArg String.toList h
  rw [blockLabel_toList, blockLabel_toList] at hl
  exact BitVec.eq_of_toNat_eq (toDigits_inj (List.append_cancel_left hl))

theorem blockLabel_not_fixed (a : BitVec 64) : blockLabel a ∉ fixedLabels := by
  intro hm
  have hsecond : ∀ l ∈ fixedLabels, l.toList[1]? = some 'r' := by decide
  have hr := hsecond _ hm
  rw [blockLabel_toList] at hr
  have hu : ("__riscy_block_0x".toList ++ Nat.toDigits 16 a.toNat)[1]? = some '_' := rfl
  rw [hu] at hr
  exact absurd hr (by decide)

end Labels

section Tables
variable {mem : MemoryReader} {entry : BitVec 64} {cfg : CFG} {o : ItemOrders} {m : ModuleAsm}

/-- The search finds the position of an address in the table, as a 32-bit number. -/
theorem findFrom_at {pc : BitVec 64} {as : List (BitVec 64)} {i j : ℕ} (hj : as[j]? = some pc)
    (hnd : as.Nodup) : findFrom pc i as = (BitVec.ofNat 32 (i + j)).toInt := by
  induction as generalizing i j with
  | nil => cases hj
  | cons a as ih =>
    rw [findFrom]
    cases j with
    | zero =>
      cases hj
      rw [if_pos rfl, Nat.add_zero]
    | succ j =>
      have hne : a ≠ pc := by
        rintro rfl
        exact (List.nodup_cons.mp hnd).1 (List.mem_of_getElem? hj)
      have hi : i + 1 + j = i + (j + 1) := by omega
      rw [if_neg hne, ih hj (List.nodup_cons.mp hnd).2, hi]

theorem toInt_ofNat_lt {i : ℕ} (h : i < 2 ^ 31) : (BitVec.ofNat 32 i).toInt = i := by
  have hn : (BitVec.ofNat 32 i).toNat = i := by
    rw [BitVec.toNat_ofNat]
    omega
  rw [BitVec.toInt_eq_toNat_of_lt (by omega), hn]

theorem findFrom_none {pc : BitVec 64} {as : List (BitVec 64)} {i : ℕ} (h : pc ∉ as) :
    findFrom pc i as = -1 := by
  induction as generalizing i with
  | nil => rfl
  | cons a as ih =>
    rw [List.mem_cons, not_or] at h
    rw [findFrom, if_neg (Ne.symm h.1), ih h.2]

theorem addresses_nodup (cfg : CFG) : (addresses cfg).Nodup :=
  (List.mergeSort_perm _ _).nodup_iff.mpr cfg.indexByAddr.keys_nodup

/-- Addresses of blocks are listed in ascending order. -/
theorem addresses_sorted (cfg : CFG) :
    (addresses cfg).Pairwise fun a b => a.toNat < b.toNat := by
  have hle : (addresses cfg).Pairwise fun a b => a.toNat ≤ b.toNat := by
    have h := @List.pairwise_mergeSort _ (fun a b : BitVec 64 => a.toNat ≤ b.toNat)
      (fun a b c hab hbc => by
        simp only [decide_eq_true_eq] at hab hbc ⊢
        exact hab.trans hbc)
      (fun a b => by
        simp only [Bool.or_eq_true, decide_eq_true_eq]
        exact le_total _ _)
      cfg.indexByAddr.keys
    exact h.imp of_decide_eq_true
  exact (hle.and (addresses_nodup cfg)).imp fun h =>
    lt_of_le_of_ne h.1 fun he => h.2 (BitVec.eq_of_toNat_eq he)

theorem ModuleOf.numBlocks (h : ModuleOf o cfg m) : m.addrs.length = m.numBlocks := by
  rw [h.addrs, ModuleAsm.numBlocks]
  exact h.blocks.length_eq

theorem ModuleOf.searched (h : ModuleOf o cfg m) : m.addrs.take m.numBlocks = addresses cfg := by
  rw [← h.numBlocks, List.take_length, h.addrs]

end Tables

section Closed
variable {mem : MemoryReader} {entry : BitVec 64} {cfg : CFG} {o : ItemOrders} {m : ModuleAsm}
  {bb : BasicBlock}

/-- A jump of a block to a label. -/
def AsmBlock.JumpsTo {ρ : Type} (asm : AsmBlock ρ) (t : String) : Prop :=
  .b t ∈ asm.jumps ∨ .bne t ∈ asm.jumps

/-- Jumps are to the labels of successors; no successor is missing. -/
theorem jump_succ (h : BlockExit mem cfg bb) {t : String}
    (ht : .b t ∈ termJumps (selectedTerm (lifted bb).term) ∨
      .bne t ∈ termJumps (selectedTerm (lifted bb).term)) :
    ∃ a ∈ bb.succs, t = blockLabel a := by
  obtain ⟨start, insts, term, succs⟩ := bb
  cases h with
  | branch hl hop ho hk hs =>
    dsimp only at hk hs
    subst hk hs
    simp only [lifted, liftTerm, selectedTerm, termJumps, List.mem_cons, Jump.bne.injEq,
      Jump.b.injEq, reduceCtorEq, List.not_mem_nil, or_false, false_or] at ht
    rcases ht with rfl | rfl
    · exact ⟨_, List.mem_cons_of_mem _ (List.mem_singleton_self _), rfl⟩
    · exact ⟨_, List.mem_cons_self .., rfl⟩
  | jump hl hop ho hk hs =>
    dsimp only at hk hs
    subst hk hs
    simp only [lifted, liftTerm, selectedTerm, termJumps, List.mem_singleton, Jump.b.injEq,
      reduceCtorEq, or_false] at ht
    exact ⟨_, List.mem_singleton_self _, ht⟩
  | fallthrough hi hne hk hs hb =>
    dsimp only at hk hs
    subst hk hs
    simp only [lifted, liftTerm, selectedTerm, termJumps, List.mem_singleton, Jump.b.injEq,
      reduceCtorEq, or_false] at ht
    exact ⟨_, List.mem_singleton_self _, ht⟩
  | indirect hl hop ho hn hk hs | ret hl hop ho hk hs | trap hl hop hk hs | undecoded hi hd hk hs =>
    dsimp only at hk hs
    subst hk hs
    simp [lifted, liftTerm, selectedTerm, termJumps] at ht

theorem PrintedAs.label {asm : AsmBlock PReg} (h : WellBuilt mem bb) (hp : PrintedAs o bb asm) :
    asm.label = blockLabel bb.start := by
  obtain ⟨blk, asg, ht, ha⟩ := hp
  rw [emitBlock_lines h ht] at ha
  cases ha
  rfl

theorem PrintedAs.jumps {asm : AsmBlock PReg} (h : WellBuilt mem bb) (hp : PrintedAs o bb asm) :
    asm.jumps = termJumps (selectedTerm (lifted bb).term) := by
  obtain ⟨blk, asg, ht, ha⟩ := hp
  rw [emitBlock_lines h ht] at ha
  cases ha
  rfl

/-- The text defines the labels of the table, in its order. -/
theorem ModuleOf.labels (h : ModuleOf o cfg m) (hsound : cfg.Sound mem entry) :
    m.blocks.map AsmBlock.label = (addresses cfg).map blockLabel := by
  have hall := h.blocks
  generalize addresses cfg = as at hall
  generalize m.blocks = asms at hall
  induction hall with
  | nil => rfl
  | cons ha _ ih =>
    obtain ⟨bb, hbb, rfl, hp⟩ := ha
    rw [List.map_cons, List.map_cons, ih, hp.label (hsound.built bb hbb)]

/-- The label of a block is defined once. -/
theorem ModuleOf.defined (h : ModuleOf o cfg m) (hsound : cfg.Sound mem entry) {a : BitVec 64}
    (ha : a ∈ cfg.indexByAddr) : m.labels.count (blockLabel a) = 1 := by
  have hfixed : fixedLabels.count (blockLabel a) = 0 :=
    List.count_eq_zero_of_not_mem (blockLabel_not_fixed a)
  have hblocks : ((addresses cfg).map blockLabel).count (blockLabel a) = 1 :=
    List.count_eq_one_of_mem ((addresses_nodup cfg).map fun x y hxy => blockLabel_inj hxy)
      (List.mem_map_of_mem (mem_addresses.mpr ha))
  rw [ModuleAsm.labels, List.count_append, hfixed, h.labels hsound, hblocks]

/-- What the assembler, the linker and the runtime need of a module. -/
structure ClosedModule (o : ItemOrders) (cfg : CFG) (m : ModuleAsm) : Prop where
  defined : ∀ asm ∈ m.blocks, ∀ t, asm.JumpsTo t → m.labels.count t = 1
  increasing : m.addrs.Pairwise fun a b => a.toNat < b.toNat
  addrs : m.addrs.length = m.numBlocks
  ptrs : m.ptrs.length = m.numBlocks ∧ ∀ i (h : i < m.addrs.length), ∃ bb ∈ cfg.blocks,
    bb.start = m.addrs[i] ∧ ∃ asm, m.blocks[i]? = some asm ∧ PrintedAs o bb asm ∧
      m.ptrs[i]? = some asm.label
  found : ∀ bb ∈ cfg.blocks, ∃ i : ℕ, findBlock m bb.start = i ∧ m.addrs[i]? = some bb.start
  missing : ∀ pc, (∀ bb ∈ cfg.blocks, bb.start ≠ pc) → findBlock m pc = -1
  entry : ∃ i : ℕ, findBlock m m.entryPc = i ∧ m.addrs[i]? = some m.entryPc

/-- A block of the table is found at its index. -/
theorem ModuleOf.found (h : ModuleOf o cfg m) (hlen : m.numBlocks < 2 ^ 31) {a : BitVec 64}
    (ha : a ∈ cfg.indexByAddr) : ∃ i : ℕ, findBlock m a = i ∧ m.addrs[i]? = some a := by
  have hsize : (addresses cfg).length ≤ 2 ^ 31 := by
    rw [← h.addrs, h.numBlocks]
    exact hlen.le
  obtain ⟨i, hai⟩ := List.mem_iff_getElem?.mp (mem_addresses.mpr ha)
  have hi : i < (addresses cfg).length := (List.getElem?_eq_some_iff.mp hai).1
  refine ⟨i, ?_, ?_⟩
  · rw [findBlock, h.searched, findFrom_at hai (addresses_nodup cfg), Nat.zero_add,
      toInt_ofNat_lt (by omega)]
  · rw [h.addrs, hai]

theorem ModuleOf.missing (h : ModuleOf o cfg m) {pc : BitVec 64} (ha : pc ∉ cfg.indexByAddr) :
    findBlock m pc = -1 := by
  rw [findBlock, h.searched]
  exact findFrom_none fun hm => ha (mem_addresses.mp hm)

/-- The table is no longer than the list of blocks. -/
theorem ModuleOf.numBlocks_le (h : ModuleOf o cfg m) (hsound : cfg.Sound mem entry) :
    m.numBlocks ≤ cfg.blocks.length := by
  have hsub : addresses cfg ⊆ cfg.blocks.map BasicBlock.start := by
    intro a ha
    obtain ⟨bb, hbb⟩ := hsound.blockAt_of_mem (mem_addresses.mp ha)
    obtain ⟨hmem, rfl⟩ := (hsound.blockAt_iff a bb).mp hbb
    exact List.mem_map_of_mem hmem
  have hle := ((addresses_nodup cfg).subperm hsub).length_le
  rw [List.length_map] at hle
  rw [← h.numBlocks, h.addrs]
  exact hle

theorem Builds.entry_eq (h : Builds mem entry cfg) : cfg.entry = entry := by
  obtain ⟨fuel, h⟩ := h
  obtain ⟨s, -, -, rfl⟩ := buildLoop_inv (.initial mem entry) h
  rfl

/-- Pointers lead to the blocks of the addresses. -/
theorem ModuleOf.ptr (h : ModuleOf o cfg m) (hsound : cfg.Sound mem entry) {i : ℕ}
    (hi : i < m.addrs.length) : ∃ bb ∈ cfg.blocks, bb.start = m.addrs[i] ∧
      ∃ asm, m.blocks[i]? = some asm ∧ PrintedAs o bb asm ∧ m.ptrs[i]? = some asm.label := by
  obtain ⟨pc, addrs, ptrs, blocks⟩ := m
  obtain ⟨-, haddrs, hptrs, hall⟩ := h
  dsimp only at haddrs hptrs hall hi ⊢
  subst haddrs hptrs
  have hib : i < blocks.length := hall.length_eq ▸ hi
  obtain ⟨bb, hbb, hstart, hp⟩ := hall.get hi hib
  refine ⟨bb, hbb, hstart, blocks[i], List.getElem?_eq_getElem hib, hp, ?_⟩
  have hlabel : blocks[i].label = blockLabel bb.start := hp.label (hsound.built bb hbb)
  rw [List.getElem?_map, List.getElem?_eq_getElem hi, hlabel, hstart]
  rfl

/-- Emitted modules are closed, and the runtime finds exactly the blocks that they have. -/
theorem dispatch_exact (h : Builds mem entry cfg) (hlen : cfg.blocks.length < 2 ^ 31)
    (hm : translate o cfg = .ok m) : ClosedModule o cfg m := by
  have hsound := h.sound
  have hof := translate_inv h hm
  have hnum : m.numBlocks < 2 ^ 31 := (hof.numBlocks_le hsound).trans_lt hlen
  refine ⟨?_, ?_, hof.numBlocks, ?_, ?_, ?_, ?_⟩
  · intro asm hasm t ht
    obtain ⟨bb, hbb, hp⟩ := hof.printed hasm
    rw [AsmBlock.JumpsTo, hp.jumps (hsound.built bb hbb)] at ht
    obtain ⟨a, ha, rfl⟩ := jump_succ (WellBuilt.blockExit hsound hbb) ht
    exact hof.defined hsound (hsound.closed bb hbb a ha)
  · rw [hof.addrs]
    exact addresses_sorted cfg
  · refine ⟨?_, fun i hi => hof.ptr hsound hi⟩
    rw [hof.ptrs, List.length_map, ← hof.addrs, hof.numBlocks]
  · exact fun bb hbb => hof.found hnum (hsound.start_key hbb)
  · intro pc hpc
    refine hof.missing fun hk => ?_
    obtain ⟨bb, hbb⟩ := hsound.blockAt_of_mem hk
    obtain ⟨hmem, hstart⟩ := (hsound.blockAt_iff pc bb).mp hbb
    exact hpc bb hmem hstart
  · rw [hof.entry, Builds.entry_eq h]
    exact hof.found hnum hsound.entry

/-- Three blocks, one of them a trap after the last instruction. -/
theorem back_dispatch_exact : ∃ m, translate default backCFG = .ok m ∧
    ClosedModule default backCFG m := by
  have hsize : ∀ bb ∈ backCFG.blocks, irSize bb.insts < 2 ^ 31 := by decide
  obtain ⟨m, hm, -⟩ := translates_short back_builds.sound hsize default
  exact ⟨m, hm, dispatch_exact back_builds (by decide) hm⟩

end Closed

end Riscy.AArch64
