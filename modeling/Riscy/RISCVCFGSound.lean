import Riscy.RISCVCFG

/-! What a finished CFG looks like: every block is a straight line of decoded
instructions with the exit its last instruction asks for, every address has at most one
block, and every successor has one. -/
namespace Riscy.RISCV

def addrAt (start : BitVec 64) (i : ℕ) : BitVec 64 := start + BitVec.ofNat 64 (4 * i)

@[simp] theorem addrAt_zero (start : BitVec 64) : addrAt start 0 = start := by
  simp [addrAt]

theorem addrAt_add_four (start : BitVec 64) (i : ℕ) :
    addrAt start i + 4 = addrAt start (i + 1) := by
  unfold addrAt
  change _ + BitVec.ofNat 64 4 = _
  rw [BitVec.add_assoc]
  congr 1
  apply BitVec.eq_of_toNat_eq
  simp only [BitVec.toNat_add, BitVec.toNat_ofNat]
  omega

theorem addrAt_add (start : BitVec 64) (i j : ℕ) :
    addrAt (addrAt start i) j = addrAt start (i + j) := by
  unfold addrAt
  rw [BitVec.add_assoc]
  congr 1
  apply BitVec.eq_of_toNat_eq
  simp only [BitVec.toNat_add, BitVec.toNat_ofNat]
  omega

/-- Consecutive instructions from `start`, none of which ends a block. -/
structure Straight (mem : MemoryReader) (start : BitVec 64) (insts : List DecodedInst) :
    Prop where
  decoded : ∀ i (h : i < insts.length), decodeNext mem (addrAt start i) = .ok insts[i]
  inner : ∀ inst ∈ insts, exitOf inst = .ok none

theorem Straight.nil (mem : MemoryReader) (start : BitVec 64) : Straight mem start [] :=
  ⟨fun i h => absurd h (Nat.not_lt_zero i), fun _ h => absurd h List.not_mem_nil⟩

theorem Straight.snoc {mem : MemoryReader} {start : BitVec 64} {insts : List DecodedInst}
    {inst : DecodedInst} (h : Straight mem start insts)
    (hd : decodeNext mem (addrAt start insts.length) = .ok inst)
    (he : exitOf inst = .ok none) : Straight mem start (insts ++ [inst]) := by
  constructor
  · intro i hi
    rw [List.length_append, List.length_singleton] at hi
    by_cases hlt : i < insts.length
    · rw [List.getElem_append_left hlt]
      exact h.decoded i hlt
    · have hie : i = insts.length := by omega
      subst hie
      simpa using hd
  · intro x hx
    rcases List.mem_append.mp hx with hx | hx
    · exact h.inner x hx
    · rw [List.mem_singleton.mp hx]
      exact he

/-- The three ways in which the block loop ends. -/
inductive WellBuilt (mem : MemoryReader) : BasicBlock → Prop
  | control {start body last term succs} (hs : Straight mem start body)
      (hd : decodeNext mem (addrAt start body.length) = .ok last)
      (he : exitOf last = .ok (some (term, succs))) :
      WellBuilt mem ⟨start, body ++ [last], term, succs⟩
  | undecoded {start body e} (hs : Straight mem start body)
      (hd : decodeNext mem (addrAt start body.length) = .error e) :
      WellBuilt mem ⟨start, body, .Trap, []⟩
  | cut {start body} (hs : Straight mem start body)
      (hne : addrAt start body.length ≠ start)
      (hfresh : ∀ i < body.length, addrAt start i ≠ addrAt start body.length) :
      WellBuilt mem ⟨start, body, .Fallthrough, [addrAt start body.length]⟩

theorem addrAt_two_pow (start : BitVec 64) (i : ℕ) :
    addrAt start (i + 2 ^ 62) = addrAt start i := by
  have he : BitVec.ofNat 64 (4 * (i + 2 ^ 62)) = BitVec.ofNat 64 (4 * i) := by
    apply BitVec.eq_of_toNat_eq
    rw [BitVec.toNat_ofNat, BitVec.toNat_ofNat]
    omega
  rw [addrAt, addrAt, he]

theorem addrAt_inj {start : BitVec 64} {i j : ℕ} (hi : i < 2 ^ 62) (hj : j < 2 ^ 62)
    (h : addrAt start i = addrAt start j) : i = j := by
  have he : BitVec.ofNat 64 (4 * i) = BitVec.ofNat 64 (4 * j) := by
    simpa [addrAt] using h
  have hn := congrArg BitVec.toNat he
  simp only [BitVec.toNat_ofNat] at hn
  omega

/-- A block never runs once around the address space. -/
theorem WellBuilt.length_le {mem : MemoryReader} {bb : BasicBlock} (h : WellBuilt mem bb) :
    bb.insts.length ≤ 2 ^ 62 := by
  cases h with
  | @control start body last term succs hs hd he =>
    by_contra hlen
    rw [List.length_append, List.length_singleton] at hlen
    have hi : body.length - 2 ^ 62 < body.length := by omega
    have hd' := hs.decoded _ hi
    rw [← addrAt_two_pow, Nat.sub_add_cancel (by omega), hd] at hd'
    have hin := hs.inner _ (List.getElem_mem hi)
    rw [← Except.ok.inj hd', he] at hin
    cases hin
  | @undecoded start body e hs hd =>
    by_contra hlen
    change ¬ body.length ≤ 2 ^ 62 at hlen
    have hi : body.length - 2 ^ 62 < body.length := by omega
    have hd' := hs.decoded _ hi
    rw [← addrAt_two_pow, Nat.sub_add_cancel (by omega), hd] at hd'
    cases hd'
  | @cut start body hs hne hfresh =>
    by_contra hlen
    change ¬ body.length ≤ 2 ^ 62 at hlen
    have hi : body.length - 2 ^ 62 < body.length := by omega
    refine hfresh _ hi ?_
    rw [← addrAt_two_pow, Nat.sub_add_cancel (by omega)]

theorem scan_wellBuilt {mem : MemoryReader} {known : BitVec 64 → Bool} {start : BitVec 64}
    {fuel : ℕ} {insts : List DecodedInst} {bb : BasicBlock} (hs : Straight mem start insts)
    (hpass : ∀ i < insts.length, ¬ (addrAt start i ≠ start ∧ known (addrAt start i)))
    (h : scan mem known start fuel (addrAt start insts.length) insts = some (.ok bb)) :
    WellBuilt mem bb ∧ bb.start = start := by
  induction fuel generalizing insts with
  | zero => simp [scan] at h
  | succ fuel ih =>
    unfold scan at h
    split at h
    next hcut =>
      cases h
      refine ⟨.cut hs hcut.1 fun i hi he => hpass i hi ?_, rfl⟩
      rw [he]
      exact hcut
    next hgo =>
      split at h
      next e hd =>
        cases h
        exact ⟨.undecoded hs hd, rfl⟩
      next inst hd =>
        split at h
        · cases h
        next term succs he =>
          cases h
          exact ⟨.control hs hd he, rfl⟩
        next he =>
          refine ih (hs.snoc hd he) (fun i hi => ?_) ?_
          · rw [List.length_append, List.length_singleton] at hi
            rcases Nat.lt_succ_iff_lt_or_eq.mp hi with hi | rfl
            · exact hpass i hi
            · exact hgo
          · rw [List.length_append, List.length_singleton, ← addrAt_add_four]
            exact h

/-- The block that the loop returns for a start. -/
theorem scan_built {mem : MemoryReader} {known : BitVec 64 → Bool} {start : BitVec 64} {fuel : ℕ}
    {bb : BasicBlock} (h : scan mem known start fuel start [] = some (.ok bb)) :
    WellBuilt mem bb ∧ bb.start = start := by
  have hpass : ∀ i < ([] : List DecodedInst).length,
      ¬ (addrAt start i ≠ start ∧ known (addrAt start i)) :=
    fun i hi => absurd hi (Nat.not_lt_zero i)
  have hscan : scan mem known start fuel (addrAt start ([] : List DecodedInst).length) [] =
      some (.ok bb) := by
    rw [List.length_nil, addrAt_zero]
    exact h
  exact scan_wellBuilt (Straight.nil mem start) hpass hscan

/-- The bookkeeping of `build`, kept by every step of the worklist loop. `cur` is the
address whose block is under construction, if any: it is neither queued nor built. -/
structure BuildInv (mem : MemoryReader) (entry : BitVec 64) (cur : Option (BitVec 64))
    (s : BuildState) : Prop where
  built : ∀ b ∈ s.blocks, WellBuilt mem b
  index : ∀ a i, s.indexByAddr.lookup a = some i ↔
    ∃ h : i < s.blocks.length, s.blocks[i].start = a
  pending : ∀ a ∈ s.leaders, a ∈ s.worklist ∨ a ∈ cur ∨ a ∈ s.indexByAddr
  succs : ∀ b ∈ s.blocks, ∀ a ∈ b.succs, a ∈ s.leaders
  entry : entry ∈ s.leaders

theorem BuildInv.initial (mem : MemoryReader) (entry : BitVec 64) :
    BuildInv mem entry none (.initial entry) := by
  constructor <;> simp [BuildState.initial]

/-- `enqueue` adds a leader that is queued, and nothing else changes. -/
theorem enqueue_cases (s : BuildState) (a : BitVec 64) :
    (s.enqueue a).blocks = s.blocks ∧ (s.enqueue a).indexByAddr = s.indexByAddr ∧
      (∀ x, x ∈ (s.enqueue a).leaders ↔ x = a ∨ x ∈ s.leaders) ∧
      (∀ x, x ∈ s.worklist → x ∈ (s.enqueue a).worklist) ∧
      (a ∉ s.leaders → a ∈ (s.enqueue a).worklist) := by
  unfold BuildState.enqueue
  split_ifs with h
  · refine ⟨rfl, rfl, fun x => ⟨Or.inr, ?_⟩, fun x hx => hx, fun hn => absurd h hn⟩
    rintro (rfl | hx)
    · exact h
    · exact hx
  · exact ⟨rfl, rfl, fun x => Finset.mem_insert, fun x hx => List.mem_append_left _ hx,
      fun _ => List.mem_append_right _ (List.mem_singleton_self a)⟩

theorem BuildInv.enqueue {mem : MemoryReader} {entry : BitVec 64}
    {cur : Option (BitVec 64)} {s : BuildState} (hi : BuildInv mem entry cur s)
    (a : BitVec 64) : BuildInv mem entry cur (s.enqueue a) := by
  obtain ⟨hb, hx, hl, hw, hn⟩ := enqueue_cases s a
  constructor
  · rw [hb]
    exact hi.built
  · rw [hb, hx]
    exact hi.index
  · intro x hxl
    rw [hx]
    by_cases hold : x ∈ s.leaders
    · exact (hi.pending x hold).imp_left (hw x)
    · rcases (hl x).mp hxl with rfl | hxs
      · exact Or.inl (hn hold)
      · exact absurd hxs hold
  · rw [hb]
    exact fun b hbm x hxm => (hl x).mpr (Or.inr (hi.succs b hbm x hxm))
  · exact (hl entry).mpr (Or.inr hi.entry)

theorem BuildInv.foldl_enqueue {mem : MemoryReader} {entry : BitVec 64}
    {cur : Option (BitVec 64)} (as : List (BitVec 64)) {s : BuildState}
    (hi : BuildInv mem entry cur s) :
    BuildInv mem entry cur (as.foldl BuildState.enqueue s) ∧
      (as.foldl BuildState.enqueue s).indexByAddr = s.indexByAddr ∧
      (∀ x, x ∈ as ∨ x ∈ s.leaders → x ∈ (as.foldl BuildState.enqueue s).leaders) := by
  induction as generalizing s with
  | nil => exact ⟨hi, rfl, fun x hx => hx.resolve_left List.not_mem_nil⟩
  | cons a as ih =>
    obtain ⟨-, hx, hl, -⟩ := enqueue_cases s a
    obtain ⟨hi', hx', hl'⟩ := ih (hi.enqueue a)
    refine ⟨hi', hx'.trans hx, fun x hxm => hl' x ?_⟩
    rcases hxm with hxm | hxm
    · rcases List.mem_cons.mp hxm with rfl | hxm
      · exact Or.inr ((hl _).mpr (Or.inl rfl))
      · exact Or.inl hxm
    · exact Or.inr ((hl x).mpr (Or.inr hxm))

theorem BuildInv.pop {mem : MemoryReader} {entry start : BitVec 64} {s : BuildState}
    {rest : List (BitVec 64)} (hi : BuildInv mem entry none s)
    (hw : s.worklist = start :: rest) :
    BuildInv mem entry (some start) { s with worklist := rest } := by
  refine ⟨hi.built, hi.index, fun a ha => ?_, hi.succs, hi.entry⟩
  rcases hi.pending a ha with hq | hc | hx
  · rw [hw] at hq
    rcases List.mem_cons.mp hq with rfl | hq
    · exact Or.inr (Or.inl rfl)
    · exact Or.inl hq
  · cases hc
  · exact Or.inr (Or.inr hx)

/-- An address that is built already needs no block under construction. -/
theorem BuildInv.skip {mem : MemoryReader} {entry start : BitVec 64} {s : BuildState}
    (hi : BuildInv mem entry (some start) s) (hb : start ∈ s.indexByAddr) :
    BuildInv mem entry none s := by
  refine ⟨hi.built, hi.index, fun a ha => ?_, hi.succs, hi.entry⟩
  rcases hi.pending a ha with hq | hc | hx
  · exact Or.inl hq
  · cases hc
    exact Or.inr (Or.inr hb)
  · exact Or.inr (Or.inr hx)

/-- Positions of a list with one more block at its end. -/
theorem getElem_snoc_cases {α : Type*} {xs : List α} {x : α} {i : ℕ}
    (h : i < (xs ++ [x]).length) :
    (∃ h' : i < xs.length, (xs ++ [x])[i] = xs[i]) ∨
      (i = xs.length ∧ (xs ++ [x])[i] = x) := by
  by_cases hlt : i < xs.length
  · exact Or.inl ⟨hlt, List.getElem_append_left hlt⟩
  · rw [List.length_append, List.length_singleton] at h
    have hie : i = xs.length := by omega
    subst hie
    exact Or.inr ⟨rfl, by simp⟩

theorem BuildInv.push {mem : MemoryReader} {entry : BitVec 64} {s : BuildState}
    {bb : BasicBlock} (hi : BuildInv mem entry (some bb.start) s)
    (hnb : bb.start ∉ s.indexByAddr) (hwell : WellBuilt mem bb)
    (hsuccs : ∀ a ∈ bb.succs, a ∈ s.leaders) :
    BuildInv mem entry none { s with
      indexByAddr := s.indexByAddr.insert bb.start s.blocks.length
      blocks := s.blocks ++ [bb] } := by
  constructor
  · intro b hb
    rcases List.mem_append.mp hb with hb | hb
    · exact hi.built b hb
    · rw [List.mem_singleton.mp hb]
      exact hwell
  · intro a i
    by_cases ha : a = bb.start
    · subst ha
      rw [AList.lookup_insert]
      constructor
      · intro h
        cases h
        exact ⟨by simp, by simp⟩
      · rintro ⟨h, hs⟩
        rcases getElem_snoc_cases h with ⟨hlt, hg⟩ | ⟨hie, -⟩
        · have hl := (hi.index bb.start i).mpr ⟨hlt, hg ▸ hs⟩
          exact absurd (AList.lookup_isSome.mp (by rw [hl]; rfl)) hnb
        · rw [hie]
    · rw [AList.lookup_insert_ne ha, hi.index]
      constructor
      · rintro ⟨h, hs⟩
        exact ⟨by simp; omega, by rw [List.getElem_append_left h]; exact hs⟩
      · rintro ⟨h, hs⟩
        rcases getElem_snoc_cases h with ⟨hlt, hg⟩ | ⟨-, hg⟩
        · exact ⟨hlt, hg ▸ hs⟩
        · exact absurd (hg ▸ hs).symm ha
  · intro a ha
    rcases hi.pending a ha with hq | hc | hx
    · exact Or.inl hq
    · cases hc
      exact Or.inr (Or.inr ((AList.mem_insert _).mpr (Or.inl rfl)))
    · exact Or.inr (Or.inr ((AList.mem_insert _).mpr (Or.inr hx)))
  · intro b hb
    rcases List.mem_append.mp hb with hb | hb
    · exact hi.succs b hb
    · rw [List.mem_singleton.mp hb]
      exact hsuccs
  · exact hi.entry

theorem BuildInv.record {mem : MemoryReader} {entry : BitVec 64} {s : BuildState}
    {bb : BasicBlock} (hi : BuildInv mem entry (some bb.start) s)
    (hnb : bb.start ∉ s.indexByAddr) (hwell : WellBuilt mem bb) :
    BuildInv mem entry none (s.record bb) := by
  obtain ⟨hi', hx', hl'⟩ := hi.foldl_enqueue bb.succs
  exact hi'.push (by rw [hx']; exact hnb) hwell fun a ha => hl' a (Or.inl ha)

theorem buildLoop_inv {mem : MemoryReader} {entry : BitVec 64} {fuel : ℕ} {s : BuildState}
    {cfg : CFG} (hi : BuildInv mem entry none s)
    (h : buildLoop mem entry fuel s = some (.ok cfg)) :
    ∃ s', BuildInv mem entry none s' ∧ s'.worklist = [] ∧
      cfg = ⟨entry, s'.blocks, s'.indexByAddr⟩ := by
  induction fuel generalizing s with
  | zero => simp [buildLoop] at h
  | succ fuel ih =>
    unfold buildLoop at h
    split at h
    next hw =>
      cases h
      exact ⟨s, hi, hw, rfl⟩
    next start rest hw =>
      dsimp only at h
      split at h
      next hb => exact ih ((hi.pop hw).skip hb) h
      next hb =>
        split at h
        · cases h
        · cases h
        next bb hscan =>
          obtain ⟨hwell, rfl⟩ := scan_built hscan
          exact ih ((hi.pop hw).record hb hwell) h

section Blocks
variable {reader : MemoryReader} {bb : BasicBlock}

theorem WellBuilt.decoded (h : WellBuilt reader bb) (i : ℕ) (hi : i < bb.insts.length) :
    decodeNext reader (addrAt bb.start i) = .ok bb.insts[i] := by
  cases h with
  | control hs hd he =>
    rcases getElem_snoc_cases hi with ⟨hlt, hg⟩ | ⟨rfl, hg⟩
    · rw [hg]
      exact hs.decoded i hlt
    · rw [hg]
      exact hd
  | undecoded hs hd => exact hs.decoded i hi
  | cut hs hne hfresh => exact hs.decoded i hi

theorem Straight.exit_inner {start : BitVec 64} {body : List DecodedInst}
    (hs : Straight reader start body) {j : ℕ} (hj : j < body.length)
    {x : Option (TermKind × List (BitVec 64))} (hx : exitOf body[j] = .ok x) : x = none := by
  rw [hs.inner _ (List.getElem_mem hj)] at hx
  cases hx
  rfl

/-- An instruction that ends a block is the last one of it and gives it its exit. -/
theorem WellBuilt.exit (h : WellBuilt reader bb) {j : ℕ} (hj : j < bb.insts.length)
    {t : TermKind} {ss : List (BitVec 64)} (hx : exitOf bb.insts[j] = .ok (some (t, ss))) :
    j + 1 = bb.insts.length ∧ bb.term = t ∧ bb.succs = ss := by
  cases h with
  | control hs hd he =>
    rcases getElem_snoc_cases hj with ⟨hlt, hg⟩ | ⟨rfl, hg⟩
    · rw [hg] at hx
      cases hs.exit_inner hlt hx
    · rw [hg, he] at hx
      cases hx
      exact ⟨by simp, rfl, rfl⟩
  | undecoded hs hd => cases hs.exit_inner hj hx
  | cut hs hne hfresh => cases hs.exit_inner hj hx

/-- After any other instruction the block goes on, stops undecoded or is cut. -/
theorem WellBuilt.inner (h : WellBuilt reader bb) {j : ℕ} (hj : j < bb.insts.length)
    (hx : exitOf bb.insts[j] = .ok none) :
    j + 1 < bb.insts.length ∨
      (j + 1 = bb.insts.length ∧ bb.term = .Trap ∧
        ∃ e, decodeNext reader (addrAt bb.start (j + 1)) = .error e) ∨
      (j + 1 = bb.insts.length ∧ bb.term = .Fallthrough ∧
        bb.succs = [addrAt bb.start (j + 1)]) := by
  by_cases hlast : j + 1 < bb.insts.length
  · exact Or.inl hlast
  have hje : j + 1 = bb.insts.length := by omega
  right
  cases h with
  | control hs hd he =>
    rcases getElem_snoc_cases hj with ⟨hlt, hg⟩ | ⟨-, hg⟩
    · simp at hje
      omega
    · rw [hg, he] at hx
      cases hx
  | undecoded hs hd =>
    left
    rw [← hje] at hd
    exact ⟨hje, rfl, _, hd⟩
  | cut hs hne hfresh =>
    right
    rw [← hje]
    exact ⟨rfl, rfl, rfl⟩

end Blocks

/-- The facts about a finished CFG that the later passes rely on. -/
structure CFG.Sound (mem : MemoryReader) (entry : BitVec 64) (cfg : CFG) : Prop where
  built : ∀ b ∈ cfg.blocks, WellBuilt mem b
  index : ∀ a i, cfg.indexByAddr.lookup a = some i ↔
    ∃ h : i < cfg.blocks.length, cfg.blocks[i].start = a
  closed : ∀ b ∈ cfg.blocks, ∀ a ∈ b.succs, a ∈ cfg.indexByAddr
  entry : entry ∈ cfg.indexByAddr

theorem Builds.sound {mem : MemoryReader} {entry : BitVec 64} {cfg : CFG}
    (h : Builds mem entry cfg) : cfg.Sound mem entry := by
  obtain ⟨fuel, h⟩ := h
  obtain ⟨s, hi, hw, rfl⟩ := buildLoop_inv (.initial mem entry) h
  have hdone : ∀ a ∈ s.leaders, a ∈ s.indexByAddr := by
    intro a ha
    rcases hi.pending a ha with hq | hc | hx
    · rw [hw] at hq
      exact absurd hq List.not_mem_nil
    · cases hc
    · exact hx
  exact ⟨hi.built, hi.index, fun b hb a ha => hdone a (hi.succs b hb a ha), hdone _ hi.entry⟩

theorem CFG.Sound.start_key {mem : MemoryReader} {entry : BitVec 64} {cfg : CFG}
    (h : cfg.Sound mem entry) {b : BasicBlock} (hb : b ∈ cfg.blocks) :
    b.start ∈ cfg.indexByAddr := by
  obtain ⟨i, hi, hget⟩ := List.getElem_of_mem hb
  exact AList.lookup_isSome.mp
    (Option.isSome_iff_exists.mpr ⟨i, (h.index _ _).mpr ⟨hi, by rw [hget]⟩⟩)

/-- The block that starts at an address. -/
def CFG.blockAt (cfg : CFG) (a : BitVec 64) : Option BasicBlock :=
  (cfg.indexByAddr.lookup a).bind fun i => cfg.blocks[i]?

theorem CFG.Sound.blockAt_iff {mem : MemoryReader} {entry : BitVec 64} {cfg : CFG}
    (h : cfg.Sound mem entry) (a : BitVec 64) (b : BasicBlock) :
    cfg.blockAt a = some b ↔ b ∈ cfg.blocks ∧ b.start = a := by
  unfold CFG.blockAt
  rw [Option.bind_eq_some_iff]
  constructor
  · rintro ⟨i, hl, hg⟩
    obtain ⟨hlt, hs⟩ := (h.index a i).mp hl
    rw [List.getElem?_eq_getElem hlt] at hg
    cases hg
    exact ⟨List.getElem_mem hlt, hs⟩
  · rintro ⟨hm, hs⟩
    obtain ⟨i, hlt, hg⟩ := List.getElem_of_mem hm
    refine ⟨i, (h.index a i).mpr ⟨hlt, by rw [hg]; exact hs⟩, ?_⟩
    rw [List.getElem?_eq_getElem hlt, hg]

theorem CFG.Sound.blockAt_of_mem {mem : MemoryReader} {entry : BitVec 64} {cfg : CFG}
    (h : cfg.Sound mem entry) {a : BitVec 64} (ha : a ∈ cfg.indexByAddr) :
    ∃ b, cfg.blockAt a = some b := by
  obtain ⟨i, hl⟩ := Option.isSome_iff_exists.mp (AList.lookup_isSome.mpr ha)
  obtain ⟨hlt, -⟩ := (h.index a i).mp hl
  exact ⟨cfg.blocks[i], by simp [CFG.blockAt, hl, hlt]⟩

end Riscy.RISCV
