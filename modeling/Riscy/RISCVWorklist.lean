import Riscy.RISCVReach
import Riscy.Translate

/-! The worklist of `build`: it drains, each start is built once, and two blocks share an
instruction only where the later one starts inside the earlier one. -/
namespace Riscy.RISCV

section Termination
variable {mem : MemoryReader}

/-- The block loop ends within `n` turns of an address that fails to decode. -/
theorem scan_ends {known : BitVec 64 → Bool} {start : BitVec 64} {n fuel : ℕ} {pc : BitVec 64}
    {insts : List DecodedInst} {e : DecodeError} (hd : decodeNext mem (addrAt pc n) = .error e)
    (hf : n < fuel) : scan mem known start fuel pc insts ≠ none := by
  induction n generalizing fuel pc insts with
  | zero =>
    obtain ⟨fuel, rfl⟩ := Nat.exists_eq_add_one_of_ne_zero hf.ne'
    rw [addrAt_zero] at hd
    unfold scan
    split_ifs
    · simp
    · simp [hd]
  | succ n ih =>
    obtain ⟨fuel, rfl⟩ := Nat.exists_eq_add_one_of_ne_zero (Nat.ne_of_gt (Nat.zero_lt_of_lt hf))
    have hnext : decodeNext mem (addrAt (pc + 4) n) = .error e := by
      have h4 : pc + 4 = addrAt pc 1 := by rw [← addrAt_add_four, addrAt_zero]
      rw [h4, addrAt_add, Nat.add_comm]
      exact hd
    unfold scan
    split_ifs
    · simp
    · split
      · simp
      · split
        · simp
        · simp
        · exact ih hnext (Nat.lt_of_succ_lt_succ hf)

/-- From every address the instruction loop runs into the failing one, unless it starts
at a misaligned address, which fails by itself. -/
theorem failing_ahead {bad : BitVec 64} {e : DecodeError} (ha : bad.toNat % 4 = 0)
    (hbad : decodeNext mem bad = .error e) (pc : BitVec 64) :
    ∃ n < 2 ^ 62, ∃ e, decodeNext mem (addrAt pc n) = .error e := by
  by_cases hpc : pc.toNat % 4 = 0
  · have hlt := (bad - pc).isLt
    refine ⟨(bad - pc).toNat / 4, by omega, e, ?_⟩
    have haddr : addrAt pc ((bad - pc).toNat / 4) = bad := by
      have h4 : 4 * ((bad - pc).toNat / 4) = (bad - pc).toNat := by
        have hsub := BitVec.toNat_sub bad pc
        omega
      rw [addrAt, h4, BitVec.ofNat_toNat, BitVec.setWidth_eq, BitVec.add_comm]
      exact BitVec.sub_add_cancel bad pc
    rw [haddr]
    exact hbad
  · refine ⟨0, by omega, .MisalignedPC, ?_⟩
    have hand : pc &&& 0x3 ≠ 0 := by
      intro h0
      have hmod : (pc &&& 0x3).toNat = pc.toNat % 2 ^ 2 := by
        rw [BitVec.toNat_and]
        exact Nat.and_two_pow_sub_one_eq_mod pc.toNat 2
      rw [h0] at hmod
      exact hpc hmod.symm
    rw [addrAt_zero, decodeNext, if_pos hand]

/-- Turns of the worklist loop that are still possible: queued addresses, and addresses
that may yet become leaders. -/
def BuildState.pending (s : BuildState) : ℕ :=
  s.worklist.length + (2 ^ 64 - s.leaders.card)

theorem leaders_card_le (leaders : Finset (BitVec 64)) : leaders.card ≤ 2 ^ 64 := by
  have hle := Finset.card_le_card_of_injOn (s := leaders)
    (t := Finset.range (2 ^ 64)) BitVec.toNat
    (fun a _ => Finset.mem_coe.mpr (Finset.mem_range.mpr a.isLt))
    (fun a _ b _ h => BitVec.eq_of_toNat_eq h)
  rwa [Finset.card_range] at hle

theorem enqueue_pending (s : BuildState) (a : BitVec 64) : (s.enqueue a).pending ≤ s.pending := by
  unfold BuildState.enqueue
  split_ifs with h
  · exact le_rfl
  · have hcard := leaders_card_le (insert a s.leaders)
    rw [Finset.card_insert_of_notMem h] at hcard
    simp only [BuildState.pending, Finset.card_insert_of_notMem h, List.length_append,
      List.length_singleton]
    omega

theorem record_pending (s : BuildState) (bb : BasicBlock) : (s.record bb).pending ≤ s.pending := by
  have hfold : ∀ (as : List (BitVec 64)) (s : BuildState),
      (as.foldl BuildState.enqueue s).pending ≤ s.pending := by
    intro as
    induction as with
    | nil => exact fun s => le_rfl
    | cons a as ih => exact fun s => (ih (s.enqueue a)).trans (enqueue_pending s a)
  exact hfold bb.succs s

/-- With a block loop that always ends, each turn lowers `pending`. -/
theorem buildLoop_ends {entry : BitVec 64} {n fuel : ℕ} {s : BuildState}
    (hscan : ∀ known start fuel, 2 ^ 62 ≤ fuel → scan mem known start fuel start [] ≠ none)
    (hn : s.pending ≤ n) (hf : n + 2 ^ 62 < fuel) : buildLoop mem entry fuel s ≠ none := by
  induction n generalizing fuel s with
  | zero =>
    obtain ⟨fuel, rfl⟩ := Nat.exists_eq_add_one_of_ne_zero (Nat.ne_of_gt (Nat.zero_lt_of_lt hf))
    have hw : s.worklist = [] := List.eq_nil_of_length_eq_zero (by
      unfold BuildState.pending at hn
      omega)
    unfold buildLoop
    simp [hw]
  | succ n ih =>
    obtain ⟨fuel, rfl⟩ := Nat.exists_eq_add_one_of_ne_zero (Nat.ne_of_gt (Nat.zero_lt_of_lt hf))
    unfold buildLoop
    split
    · simp
    next start rest hw =>
      have hrest : ({ s with worklist := rest } : BuildState).pending ≤ n := by
        simp only [BuildState.pending, hw, List.length_cons] at hn ⊢
        omega
      dsimp only
      split_ifs
      · exact ih hrest (by omega)
      · split
        next hnone => exact absurd hnone (hscan _ _ _ (by omega))
        · simp
        · exact ih ((record_pending _ _).trans hrest) (by omega)

/-- Both loops of `build` end, and no address is built twice. -/
structure Terminates (mem : MemoryReader) (entry : BitVec 64) : Prop where
  inner : ∀ known start, ∃ fuel bb, scan mem known start fuel start [] = some (.ok bb)
  outer : ∃ cfg, Builds mem entry cfg
  once : ∀ cfg, Builds mem entry cfg → (cfg.blocks.map BasicBlock.start).Nodup

theorem CFG.Sound.starts_nodup {entry : BitVec 64} {cfg : CFG} (h : cfg.Sound mem entry) :
    (cfg.blocks.map BasicBlock.start).Nodup := by
  rw [List.nodup_iff_injective_getElem]
  intro i j hij
  have hi : (i : ℕ) < cfg.blocks.length := by simpa using i.isLt
  have hj : (j : ℕ) < cfg.blocks.length := by simpa using j.isLt
  have hl := (h.index cfg.blocks[i.1].start i).mpr ⟨hi, rfl⟩
  simp only [List.getElem_map] at hij
  rw [hij, (h.index _ j).mpr ⟨hj, rfl⟩] at hl
  exact Fin.ext (Option.some.inj hl).symm

/-- `build` terminates wherever some aligned address fails to decode. -/
theorem build_terminates {bad : BitVec 64} {e : DecodeError} (ha : bad.toNat % 4 = 0)
    (hbad : decodeNext mem bad = .error e) (entry : BitVec 64) : Terminates mem entry := by
  have hscan : ∀ known start fuel, 2 ^ 62 ≤ fuel →
      scan mem known start fuel start [] ≠ none := by
    intro known start fuel hf
    obtain ⟨n, hn, e, he⟩ := failing_ahead ha hbad start
    exact scan_ends he (by omega)
  refine ⟨fun known start => ?_, ?_, fun cfg h => h.sound.starts_nodup⟩
  · obtain ⟨r, hr⟩ := Option.ne_none_iff_exists'.mp (hscan known start _ le_rfl)
    obtain ⟨bb, rfl⟩ := scan_ok hr
    exact ⟨_, bb, hr⟩
  · have hend : buildLoop mem entry _ (.initial entry) ≠ none :=
      buildLoop_ends hscan le_rfl (Nat.lt_succ_self _)
    obtain ⟨r, hr⟩ := Option.ne_none_iff_exists'.mp hend
    obtain ⟨cfg, -, hb⟩ := build_ok hr
    exact ⟨cfg, hb⟩

theorem back_terminates : Terminates backReader 0 :=
  build_terminates (show (12 : BitVec 64).toNat % 4 = 0 by decide)
    (show decodeNext backReader 12 = .error .OOBRead by decide) 0

/-- More fuel changes nothing. -/
theorem scan_more {known : BitVec 64 → Bool} {start : BitVec 64} {fuel k : ℕ} {pc : BitVec 64}
    {insts : List DecodedInst} {r : Except Fault BasicBlock}
    (h : scan mem known start fuel pc insts = some r) (hk : fuel ≤ k) :
    scan mem known start k pc insts = some r := by
  induction fuel generalizing k pc insts with
  | zero => cases h
  | succ fuel ih =>
    obtain ⟨k, rfl⟩ := Nat.exists_eq_add_one_of_ne_zero (Nat.ne_of_gt (Nat.zero_lt_of_lt hk))
    unfold scan at h ⊢
    split_ifs at h ⊢
    · exact h
    · split at h
      · exact h
      · split at h
        · exact h
        · exact h
        · exact ih h (by omega)

theorem buildLoop_more {entry : BitVec 64} {fuel k : ℕ} {s : BuildState} {r : Except Fault CFG}
    (h : buildLoop mem entry fuel s = some r) (hk : fuel ≤ k) :
    buildLoop mem entry k s = some r := by
  induction fuel generalizing k s with
  | zero => cases h
  | succ fuel ih =>
    obtain ⟨k, rfl⟩ := Nat.exists_eq_add_one_of_ne_zero (Nat.ne_of_gt (Nat.zero_lt_of_lt hk))
    unfold buildLoop at h ⊢
    split at h
    · exact h
    · dsimp only at h ⊢
      split_ifs at h ⊢
      · exact ih h (by omega)
      · split at h
        next => cases h
        next hscan =>
          rw [scan_more hscan hk]
          exact h
        next hscan =>
          rw [scan_more hscan hk]
          exact ih h (by omega)

/-- The CFG does not depend on the fuel. -/
theorem Builds.unique {entry : BitVec 64} {cfg cfg' : CFG} (h : Builds mem entry cfg)
    (h' : Builds mem entry cfg') : cfg = cfg' := by
  obtain ⟨fuel, h⟩ := h
  obtain ⟨fuel', h'⟩ := h'
  have hmax := buildLoop_more h (le_max_left fuel fuel')
  rw [buildLoop_more h' (le_max_right fuel fuel')] at hmax
  cases hmax
  rfl

end Termination

section Overlap
variable {mem : MemoryReader}

/-- Some instruction address is in both blocks. -/
def Shares (a b : BasicBlock) : Prop :=
  ∃ x ∈ a.insts, ∃ y ∈ b.insts, x.pc = y.pc

/-- Block `b` repeats the code of `a` from some instruction after its first. -/
def Repeats (a b : BasicBlock) : Prop :=
  ∃ d, 0 < d ∧ d < a.insts.length ∧ b.start = addrAt a.start d ∧ b.insts <+: a.insts.drop d

/-- No two blocks of the CFG hold the same instruction. -/
def CFG.Partitioned (cfg : CFG) : Prop :=
  cfg.blocks.Pairwise fun a b => ¬ Shares a b

/-- How a block `b` lies to a block `a` that was built before it. -/
structure BuiltAfter (a b : BasicBlock) : Prop where
  start : b.start ≠ a.start
  notEntered : ∀ k, 0 < k → k < b.insts.length → addrAt b.start k ≠ a.start
  notTargeted : ∀ k, 0 < k → k < b.insts.length → addrAt b.start k ∉ a.succs
  repeats : Shares a b → Repeats a b

/-- Neither the start nor a successor of `a` is inside `b`. -/
structure CutAt (a b : BasicBlock) : Prop where
  start : b.start ≠ a.start
  inside : ∀ k, 0 < k → k < b.insts.length →
    addrAt b.start k ≠ a.start ∧ addrAt b.start k ∉ a.succs

/-- The block loop passes over no known address. -/
theorem scan_unknown {known : BitVec 64 → Bool} {start : BitVec 64} {fuel : ℕ}
    {insts : List DecodedInst} {bb : BasicBlock}
    (hpass : ∀ i < insts.length, addrAt start i ≠ start → ¬ known (addrAt start i))
    (h : scan mem known start fuel (addrAt start insts.length) insts = some (.ok bb)) :
    ∀ i < bb.insts.length, addrAt start i ≠ start → ¬ known (addrAt start i) := by
  induction fuel generalizing insts with
  | zero => simp [scan] at h
  | succ fuel ih =>
    unfold scan at h
    split at h
    next =>
      cases h
      exact hpass
    next hgo =>
      have hsnoc : ∀ inst, ∀ i < (insts ++ [inst]).length,
          addrAt start i ≠ start → ¬ known (addrAt start i) := by
        intro inst i hi hne hk
        rw [List.length_append, List.length_singleton] at hi
        rcases Nat.lt_succ_iff_lt_or_eq.mp hi with hi | rfl
        · exact hpass i hi hne hk
        · exact hgo ⟨hne, hk⟩
      split at h
      next =>
        cases h
        exact hpass
      next inst hd =>
        split at h
        · cases h
        next =>
          cases h
          exact hsnoc inst
        next =>
          refine ih (hsnoc inst) ?_
          rw [List.length_append, List.length_singleton, ← addrAt_add_four]
          exact h

theorem scan_passes {known : BitVec 64 → Bool} {start : BitVec 64} {fuel : ℕ} {bb : BasicBlock}
    (h : scan mem known start fuel start [] = some (.ok bb)) :
    ∀ i < bb.insts.length, addrAt start i ≠ start → ¬ known (addrAt start i) := by
  have hnone : ∀ i < ([] : List DecodedInst).length, addrAt start i ≠ start →
      ¬ known (addrAt start i) := fun i hi => absurd hi (Nat.not_lt_zero i)
  have hscan : scan mem known start fuel (addrAt start ([] : List DecodedInst).length) [] =
      some (.ok bb) := by
    rw [List.length_nil, addrAt_zero]
    exact h
  exact scan_unknown hnone hscan

theorem record_blocks (s : BuildState) (bb : BasicBlock) :
    (s.record bb).blocks = s.blocks ++ [bb] := by
  have hfold : ∀ (as : List (BitVec 64)) (s : BuildState),
      (as.foldl BuildState.enqueue s).blocks = s.blocks := by
    intro as
    induction as with
    | nil => exact fun s => rfl
    | cons a as ih => exact fun s => (ih (s.enqueue a)).trans (enqueue_cases s a).1
  exact congrArg (· ++ [bb]) (hfold bb.succs s)

/-- A block is scanned past no start and no successor of the blocks before it. -/
theorem BuildInv.cutAt {entry start : BitVec 64} {s : BuildState} {bb : BasicBlock}
    {cur : Option (BitVec 64)} (hi : BuildInv mem entry cur s) (hnew : start ∉ s.indexByAddr)
    (hwell : WellBuilt mem bb) (hstart : bb.start = start)
    (hpass : ∀ i < bb.insts.length, addrAt start i ≠ start → ¬ s.known (addrAt start i)) :
    ∀ a ∈ s.blocks, CutAt a bb := by
  intro a ha
  obtain ⟨j, hj, hget⟩ := List.getElem_of_mem ha
  have hindex : a.start ∈ s.indexByAddr :=
    AList.lookup_isSome.mp (by rw [(hi.index a.start j).mpr ⟨hj, by rw [hget]⟩]; rfl)
  subst hstart
  refine ⟨fun he => hnew (he ▸ hindex), fun k hk hlt => ?_⟩
  have hne : addrAt bb.start k ≠ bb.start := by
    intro he
    have hlen := hwell.length_le
    rw [← addrAt_zero bb.start, addrAt_zero bb.start] at he
    exact hk.ne' (addrAt_inj (by omega) (by omega) (he.trans (addrAt_zero _).symm))
  have hunknown := hpass k hlt hne
  simp only [BuildState.known, decide_eq_true_eq, not_or] at hunknown
  exact ⟨fun he => hunknown.2 (he ▸ hindex), fun hs => hunknown.1 (hi.succs a ha _ hs)⟩

theorem buildLoop_cutAt {entry : BitVec 64} {fuel : ℕ} {s : BuildState} {cfg : CFG}
    (hi : BuildInv mem entry none s) (hc : s.blocks.Pairwise CutAt)
    (h : buildLoop mem entry fuel s = some (.ok cfg)) : cfg.blocks.Pairwise CutAt := by
  induction fuel generalizing s with
  | zero => simp [buildLoop] at h
  | succ fuel ih =>
    unfold buildLoop at h
    split at h
    next =>
      cases h
      exact hc
    next start rest hw =>
      dsimp only at h
      split at h
      next hb => exact ih ((hi.pop hw).skip hb) hc h
      next hb =>
        split at h
        · cases h
        · cases h
        next bb hscan =>
          obtain ⟨hwell, rfl⟩ := scan_built hscan
          have hcut := (hi.pop hw).cutAt hb hwell rfl (scan_passes hscan)
          refine ih ((hi.pop hw).record hb hwell) ?_ h
          rw [record_blocks]
          exact List.pairwise_append.mpr ⟨hc, List.pairwise_singleton _ _,
            fun a ha x hx => List.mem_singleton.mp hx ▸ hcut a ha⟩

theorem addrAt_cancel {a b : BitVec 64} {i j : ℕ} (hle : j ≤ i)
    (h : addrAt a i = addrAt b j) : b = addrAt a (i - j) := by
  rw [← Nat.sub_add_cancel hle, ← addrAt_add] at h
  exact ((BitVec.add_left_inj _).mp h).symm

/-- A block that starts inside another one decodes the same instructions. -/
theorem WellBuilt.same_insts {a b : BasicBlock} (ha : WellBuilt mem a) (hb : WellBuilt mem b)
    {d k : ℕ} (hstart : b.start = addrAt a.start d) (hk : k < b.insts.length)
    (hdk : d + k < a.insts.length) : a.insts[d + k] = b.insts[k] := by
  have hda := ha.decoded (d + k) hdk
  rw [← addrAt_add, ← hstart, hb.decoded k hk] at hda
  exact (Except.ok.inj hda).symm

/-- It does not go on where the other one ends, unless that one is cut there. -/
theorem WellBuilt.stays_inside {a b : BasicBlock} (ha : WellBuilt mem a) (hb : WellBuilt mem b)
    (hcut : CutAt a b) {d : ℕ} (hd : d < a.insts.length) (hstart : b.start = addrAt a.start d) :
    d + b.insts.length ≤ a.insts.length := by
  by_contra hlt
  have hend : addrAt b.start (a.insts.length - d) = addrAt a.start a.insts.length := by
    rw [hstart, addrAt_add, Nat.add_sub_cancel' hd.le]
  have hm : a.insts.length - d < b.insts.length := by omega
  have hk : a.insts.length - d - 1 < b.insts.length := by omega
  have hlast : d + (a.insts.length - d - 1) < a.insts.length := by omega
  have hone : d + (a.insts.length - d - 1) + 1 = a.insts.length := by omega
  obtain ⟨e, he⟩ := (decodeNext_shaped (ha.decoded _ hlast)).exits
  cases e with
  | some e =>
    -- a control instruction would also end `b`
    rw [ha.same_insts hb hstart hk hlast] at he
    obtain ⟨hb', -⟩ := hb.exit hk he
    omega
  | none =>
    rcases ha.inner hlast he with hin | ⟨-, -, e, hu⟩ | ⟨-, -, hs⟩
    · omega
    · rw [hone, ← hend, hb.decoded _ hm] at hu
      cases hu
    · rw [hone, ← hend] at hs
      exact (hcut.inside _ (by omega) hm).2 (hs ▸ List.mem_singleton_self _)

theorem CutAt.builtAfter {a b : BasicBlock} (h : CutAt a b) (ha : WellBuilt mem a)
    (hb : WellBuilt mem b) : BuiltAfter a b := by
  refine ⟨h.start, fun k hk hlt => (h.inside k hk hlt).1, fun k hk hlt => (h.inside k hk hlt).2,
    ?_⟩
  rintro ⟨x, hx, y, hy, hxy⟩
  obtain ⟨i, hi, rfl⟩ := List.getElem_of_mem hx
  obtain ⟨j, hj, rfl⟩ := List.getElem_of_mem hy
  rw [ha.pc_eq hi, hb.pc_eq hj] at hxy
  have hij : j ≤ i := by
    by_contra hlt
    have hback := addrAt_cancel (Nat.le_of_not_le hlt) hxy.symm
    exact (h.inside (j - i) (by omega) (by omega)).1 hback.symm
  have hstart := addrAt_cancel hij hxy
  have hd : i - j < a.insts.length := by omega
  have hin := ha.stays_inside hb h hd hstart
  refine ⟨i - j, Nat.pos_of_ne_zero fun h0 => h.start ?_, hd, hstart, ?_⟩
  · rw [hstart, h0, addrAt_zero]
  · rw [List.prefix_iff_eq_take]
    refine List.ext_getElem (by simp; omega) fun k hk _ => ?_
    rw [List.getElem_take, List.getElem_drop]
    exact (ha.same_insts hb hstart hk (by omega)).symm

/-- Blocks have distinct starts, none passes over the start or a successor of an earlier one,
and a later one shares code with an earlier one only as a repetition of it. -/
theorem blocks_overlap {entry : BitVec 64} {cfg : CFG} (h : Builds mem entry cfg) :
    cfg.blocks.Pairwise BuiltAfter := by
  have hwell := h.sound.built
  obtain ⟨fuel, h⟩ := h
  have hcut := buildLoop_cutAt (.initial mem entry) List.Pairwise.nil h
  exact hcut.imp_of_mem fun ha hb hab => hab.builtAfter (hwell _ ha) (hwell _ hb)

theorem back_overlap : backCFG.blocks.Pairwise BuiltAfter := blocks_overlap back_builds

/-- The branch back into a finished block puts two instructions into two blocks. -/
theorem back_not_partitioned :
    ¬ ∀ mem entry cfg, Builds mem entry cfg → cfg.Partitioned := by
  intro h
  have hpair := List.pairwise_cons.mp (h _ _ _ back_builds)
  refine hpair.1 ⟨4, [backNop 4, backBranch], .Branch, [4, 12]⟩ (by simp)
    ⟨backNop 4, by simp, backNop 4, by simp, rfl⟩

end Overlap

section Reads
variable {mem mem' : MemoryReader} {entry : BitVec 64}

/-- At an address both readers give one instruction, or neither gives any. -/
def DecodeAlike (mem mem' : MemoryReader) (a : BitVec 64) : Prop :=
  (decodeNext mem' a).toOption = (decodeNext mem a).toOption

theorem DecodeAlike.cases {a : BitVec 64} (h : DecodeAlike mem mem' a) :
    (∃ inst, decodeNext mem a = .ok inst ∧ decodeNext mem' a = .ok inst) ∨
      (∃ e e', decodeNext mem a = .error e ∧ decodeNext mem' a = .error e') := by
  unfold DecodeAlike at h
  cases hd : decodeNext mem a with
  | ok inst =>
    cases hd' : decodeNext mem' a with
    | ok inst' =>
      rw [hd, hd'] at h
      cases h
      exact Or.inl ⟨inst, rfl, rfl⟩
    | error e =>
      rw [hd, hd'] at h
      cases h
  | error e =>
    cases hd' : decodeNext mem' a with
    | ok inst' =>
      rw [hd, hd'] at h
      cases h
    | error e' => exact Or.inr ⟨e, e', rfl, rfl⟩

theorem scan_alike (h : ∀ a, StaticReach mem entry a → DecodeAlike mem mem' a)
    {known : BitVec 64 → Bool} {start : BitVec 64} {fuel : ℕ} {pc : BitVec 64}
    {insts : List DecodedInst} (hr : StaticReach mem entry pc) :
    scan mem' known start fuel pc insts = scan mem known start fuel pc insts := by
  induction fuel generalizing pc insts with
  | zero => rfl
  | succ fuel ih =>
    rw [scan, scan]
    rcases (h pc hr).cases with ⟨inst, hd, hd'⟩ | ⟨e, e', hd, hd'⟩
    · rw [hd, hd']
      cases he : exitOf inst with
      | error e => simp only [he]
      | ok r =>
        cases r with
        | some exit => simp only [he]
        | none => simp only [he, ih (.next hr hd ((decodeNext_shaped hd).exit_inner he))]
    · rw [hd, hd']

theorem LeadersOnly.initial : LeadersOnly mem entry (.initial entry) := by
  refine ⟨by simp [BuildState.initial], fun a ha => ?_, fun a ha => ?_⟩
  · rw [Finset.mem_singleton.mp ha]
    exact .entry
  · simp [BuildState.initial] at ha

theorem LeadersOnly.pop {s : BuildState} {start : BitVec 64} {rest : List (BitVec 64)}
    (h : LeadersOnly mem entry s) (hw : s.worklist = start :: rest) :
    LeadersOnly mem entry { s with worklist := rest } :=
  ⟨fun a ha => h.queued a (hw ▸ List.mem_cons_of_mem _ ha), h.leaders, h.index⟩

/-- The turn of a leader. -/
theorem LeadersOnly.scanned {s : BuildState} {start : BitVec 64} {fuel : ℕ} {bb : BasicBlock}
    (h : LeadersOnly mem entry s) (hstart : start ∈ s.leaders)
    (hscan : scan mem s.known start fuel start [] = some (.ok bb)) :
    LeadersOnly mem entry (s.record bb) := by
  obtain ⟨-, hbb⟩ := scan_built hscan
  exact h.record (hbb ▸ hstart)
    (scan_leaders (fun a ha => h.known ha) (h.leaders _ hstart).reach hscan)

theorem buildLoop_alike (h : ∀ a, StaticReach mem entry a → DecodeAlike mem mem' a) {fuel : ℕ}
    {s : BuildState} (hs : LeadersOnly mem entry s) :
    buildLoop mem' entry fuel s = buildLoop mem entry fuel s := by
  induction fuel generalizing s with
  | zero => rfl
  | succ fuel ih =>
    rw [buildLoop, buildLoop]
    cases hw : s.worklist with
    | nil => rfl
    | cons start rest =>
      have hpop := hs.pop hw
      have hstart : start ∈ s.leaders := hs.queued start (hw ▸ List.mem_cons_self ..)
      have hreach := (hs.leaders _ hstart).reach
      simp only [scan_alike h hreach, ih hpop]
      split_ifs
      · rfl
      · cases hscan : scan mem _ start (fuel + 1) start [] with
        | none => rfl
        | some r =>
          cases r with
          | error e => rfl
          | ok bb => exact ih (hpop.scanned hstart hscan)

theorem StaticReach.map (h : ∀ pc inst, StaticReach mem entry pc → StaticReach mem' entry pc →
      decodeNext mem pc = .ok inst → decodeNext mem' pc = .ok inst)
    {a : BitVec 64} (hr : StaticReach mem entry a) : StaticReach mem' entry a := by
  induction hr with
  | entry => exact .entry
  | next hpc hd hc ih => exact .next ih (h _ _ hpc ih hd) hc
  | target hpc hd hc ho ih => exact .target ih (h _ _ hpc ih hd) hc ho
  | notTaken hpc hd hc ih => exact .notTaken ih (h _ _ hpc ih hd) hc
  | jump hpc hd hop ho ih => exact .jump ih (h _ _ hpc ih hd) hop ho

theorem DecodeAlike.ok_iff {a : BitVec 64} {inst : DecodedInst} (h : DecodeAlike mem mem' a) :
    decodeNext mem' a = .ok inst ↔ decodeNext mem a = .ok inst := by
  rcases h.cases with ⟨i, hd, hd'⟩ | ⟨e, e', hd, hd'⟩
  · rw [hd, hd']
  · rw [hd, hd']
    constructor <;> intro he <;> cases he

/-- What `build` does with a reader, it does with every reader that gives the same instructions
at the addresses that the control flow reaches: data, padding and the kind of a failure do not
matter. -/
theorem build_reads_reached (h : ∀ a, StaticReach mem entry a → DecodeAlike mem mem' a) :
    (∀ fuel, build fuel mem' entry = build fuel mem entry) ∧
      ∀ a, StaticReach mem' entry a ↔ StaticReach mem entry a := by
  refine ⟨fun fuel => buildLoop_alike h .initial, fun a => ⟨fun hr => ?_, fun hr => ?_⟩⟩
  · exact hr.map fun pc inst _ hpc hd => (h pc hpc).ok_iff.mp hd
  · exact hr.map fun pc inst hpc _ hd => (h pc hpc).ok_iff.mpr hd

/-- Memory that is filled with zeros where nothing is mapped. -/
def zeroFilled (mem : MemoryReader) : MemoryReader := fun a => some ((mem a).getD 0)

theorem zeroFilled_alike (mem : MemoryReader) (a : BitVec 64) :
    DecodeAlike mem (zeroFilled mem) a := by
  unfold DecodeAlike decodeNext zeroFilled
  split_ifs
  · rfl
  · cases mem a with
    | none =>
      simp only [Option.getD_none]
      rfl
    | some w => rfl

theorem back_reads_reached :
    (∀ fuel, build fuel (zeroFilled backReader) 0 = build fuel backReader 0) ∧
      ∀ a, StaticReach (zeroFilled backReader) 0 a ↔ StaticReach backReader 0 a :=
  build_reads_reached fun a _ => zeroFilled_alike backReader a

end Reads

end Riscy.RISCV
