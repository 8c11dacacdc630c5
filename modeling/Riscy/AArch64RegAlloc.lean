import Riscy.AArch64LiveRanges

/-! `RegAlloc::allocate`: a linear scan without spilling. Registers that share a physical
register have ranges of which one ends where the other starts, or before. -/
namespace Riscy.AArch64

structure Item where
  v : VReg
  lr : LiveRange
  deriving DecidableEq, Repr

structure Active where
  p : PReg
  lr : LiveRange
  v : VReg
  deriving DecidableEq, Repr

abbrev RegAssignment := VReg → Option PReg

/-- The variables of `allocate` between two items. -/
structure AllocState where
  pool : List PReg
  active : List Active
  v2p : RegAssignment

/-- All but `x0`, `x1`, `x19`, `x21`, `x29` and `x30`; the last one is taken first. -/
def initialPool : List PReg :=
  [2, 3, 4, 5, 6, 7, 8, 9, 10, 11, 12, 13, 14, 15, 16, 17, 18, 20, 22, 23, 24, 25, 26, 27, 28]

/-- Return expired physical registers to the pool. -/
def AllocState.expire (s : AllocState) (cur : ℕ) : AllocState :=
  { s with
    active := s.active.filter fun a => cur < a.lr.last
    pool := s.pool ++ (s.active.filter fun a => a.lr.last ≤ cur).map Active.p }

def AllocState.assign (s : AllocState) (it : Item) : Except Fault AllocState :=
  let s := s.expire it.lr.start
  match s.pool.getLast? with
  | none => .error .abort
  | some p => .ok ⟨s.pool.dropLast, s.active ++ [⟨p, it.lr, it.v⟩],
      Function.update s.v2p it.v (some p)⟩

def AllocState.initial : AllocState := ⟨initialPool, [], fun _ => none⟩

/-- The loop over the sorted items. -/
def allocate (items : List Item) : Except Fault RegAssignment := do
  let s ← items.foldlM AllocState.assign .initial
  return s.v2p

/-- What iteration over the map and `std::sort` may leave: any order with ascending
starts. -/
structure ItemOrder (live : LivenessMap) (items : List Item) : Prop where
  perm : items.Perm (live.entries.map fun e => ⟨e.1, e.2⟩)
  starts : items.Pairwise fun a b => a.lr.start ≤ b.lr.start

section Scan

/-- The invariant of the scan at position `cur`, after the items `done`. -/
structure AllocInv (done : List Item) (cur : ℕ) (s : AllocState) : Prop where
  pool : (s.pool ++ s.active.map Active.p).Perm initialPool
  active : ∀ a ∈ s.active, ⟨a.v, a.lr⟩ ∈ done ∧ s.v2p a.v = some a.p
  vregs : (s.active.map Active.v).Nodup
  held : ∀ it ∈ done, ∃ p ∈ initialPool, s.v2p it.v = some p ∧
    (⟨p, it.lr, it.v⟩ ∈ s.active ∨ it.lr.last ≤ cur)
  apart : ∀ it ∈ done, ∀ it' ∈ done, it.v ≠ it'.v → s.v2p it.v = s.v2p it'.v →
    it.lr.last ≤ it'.lr.start ∨ it'.lr.last ≤ it.lr.start

theorem AllocInv.initial : AllocInv [] 0 .initial where
  pool := by
    change (initialPool ++ []).Perm initialPool
    rw [List.append_nil]
  active := fun a ha => by cases ha
  vregs := List.nodup_nil
  held := fun it hit => by cases hit
  apart := fun it hit => by cases hit

variable {done : List Item} {cur c : ℕ} {s s' : AllocState} {it : Item}

/-- Expiry moves registers from the active ranges to the pool. -/
theorem expire_perm (s : AllocState) (c : ℕ) :
    ((s.expire c).pool ++ (s.expire c).active.map Active.p).Perm
      (s.pool ++ s.active.map Active.p) := by
  have hsplit : ((s.active.filter fun a => a.lr.last ≤ c) ++
      (s.active.filter fun a => c < a.lr.last)).Perm s.active := by
    have hneg : (fun a : Active => decide (c < a.lr.last)) =
        fun a => !decide (a.lr.last ≤ c) := by
      funext a
      rw [← decide_not, decide_eq_decide]
      exact not_le.symm
    rw [hneg]
    exact List.filter_append_perm ..
  change (s.pool ++ _ ++ _).Perm _
  rw [List.append_assoc, ← List.map_append]
  exact (hsplit.map _).append_left _

theorem AllocInv.expire (h : AllocInv done cur s) (hc : cur ≤ c) :
    AllocInv done c (s.expire c) where
  pool := (expire_perm s c).trans h.pool
  active := fun a ha => h.active a (List.mem_of_mem_filter ha)
  vregs := h.vregs.sublist (List.Sublist.map _ List.filter_sublist)
  held := fun it hit => by
    obtain ⟨p, hp, hv, ha⟩ := h.held it hit
    refine ⟨p, hp, hv, ?_⟩
    by_cases hlast : it.lr.last ≤ c
    · exact Or.inr hlast
    · refine Or.inl (List.mem_filter.mpr ⟨ha.resolve_right fun hle => hlast ?_, ?_⟩)
      · exact le_trans hle hc
      · simpa using hlast
  apart := h.apart

/-- What `assign` does: it takes the last register of the pool after expiry. -/
theorem assign_eq (h : s.assign it = .ok s') : ∃ pool p,
    (s.expire it.lr.start).pool = pool ++ [p] ∧
      s' = ⟨pool, (s.expire it.lr.start).active ++ [⟨p, it.lr, it.v⟩],
        Function.update s.v2p it.v (some p)⟩ := by
  unfold AllocState.assign at h
  cases hl : (s.expire it.lr.start).pool.getLast? with
  | none =>
    simp only [hl] at h
    cases h
  | some p =>
    simp only [hl] at h
    obtain ⟨ys, hys⟩ := List.getLast?_eq_some_iff.mp hl
    refine ⟨ys, p, hys, ?_⟩
    rw [hys, List.dropLast_concat] at h
    exact (Except.ok.inj h).symm

theorem initialPool_nodup : initialPool.Nodup := by decide

theorem AllocInv.assign (h : AllocInv done cur s) (hc : cur ≤ it.lr.start)
    (hnew : ∀ w ∈ done, w.v ≠ it.v) (hs : s.assign it = .ok s') :
    AllocInv (done ++ [it]) it.lr.start s' := by
  obtain ⟨pool, p, hpool, rfl⟩ := assign_eq hs
  have he := h.expire hc
  obtain ⟨act, hact⟩ : ∃ act, act = (s.expire it.lr.start).active := ⟨_, rfl⟩
  have hperm := he.pool
  have hactive := he.active
  have hvregs := he.vregs
  have hheld := he.held
  rw [hpool] at hperm
  rw [← hact] at hperm hactive hvregs hheld ⊢
  have hp : p ∈ initialPool := hperm.subset (by simp)
  have hfree : ∀ a ∈ act, a.p ≠ p := by
    intro a ha hap
    have hnd := hperm.nodup_iff.mpr initialPool_nodup
    rw [List.append_assoc] at hnd
    have hdis := (List.nodup_append.mp (List.nodup_append.mp hnd).2.1).2.2
    exact hdis p (by simp) a.p (List.mem_map_of_mem ha) hap.symm
  have hold : ∀ w ∈ done, Function.update s.v2p it.v (some p) w.v = s.v2p w.v :=
    fun w hw => Function.update_of_ne (hnew w hw) ..
  constructor
  · rw [List.map_append]
    refine List.Perm.trans ?_ hperm
    rw [List.append_assoc pool [p]]
    exact List.Perm.append_left _ List.perm_append_comm
  · intro a ha
    rcases List.mem_append.mp ha with ha | ha
    · obtain ⟨hd, hv⟩ := hactive a ha
      exact ⟨List.mem_append_left _ hd, (hold _ hd).trans hv⟩
    · rw [List.mem_singleton.mp ha]
      exact ⟨by simp, Function.update_self ..⟩
  · rw [List.map_append]
    refine List.Nodup.append hvregs (List.nodup_singleton _) ?_
    intro v hv hv'
    obtain ⟨a, ha, rfl⟩ := List.mem_map.mp hv
    exact hnew _ (hactive a ha).1 (List.mem_singleton.mp hv')
  · intro w hw
    rcases List.mem_append.mp hw with hw | hw
    · obtain ⟨q, hq, hv, ha⟩ := hheld w hw
      exact ⟨q, hq, (hold w hw).trans hv, ha.imp_left (List.mem_append_left _)⟩
    · rw [List.mem_singleton.mp hw]
      exact ⟨p, hp, Function.update_self .., Or.inl (by simp)⟩
  · have hlast : ∀ w ∈ done, s.v2p w.v = some p → w.lr.last ≤ it.lr.start := by
      intro w hw hwp
      obtain ⟨q, -, hv, ha⟩ := hheld w hw
      rcases ha with ha | ha
      · have hqp : q = p := Option.some.inj (hv.symm.trans hwp)
        exact absurd hqp (hfree _ ha)
      · exact ha
    intro w hw w' hw' hne heq
    change Function.update s.v2p it.v (some p) w.v = Function.update s.v2p it.v (some p) w'.v at heq
    rcases List.mem_append.mp hw with hw | hw <;> rcases List.mem_append.mp hw' with hw' | hw'
    · exact h.apart w hw w' hw' hne (by rw [← hold w hw, ← hold w' hw', heq])
    · rw [List.mem_singleton.mp hw'] at heq ⊢
      rw [Function.update_self, hold w hw] at heq
      exact Or.inl (hlast w hw heq)
    · rw [List.mem_singleton.mp hw] at heq ⊢
      rw [Function.update_self, hold w' hw'] at heq
      exact Or.inr (hlast w' hw' heq.symm)
    · rw [List.mem_singleton.mp hw, List.mem_singleton.mp hw'] at hne
      exact absurd rfl hne

/-- The items still to come start at `cur` or later and are new. -/
structure Pending (done : List Item) (cur : ℕ) (items : List Item) : Prop where
  starts : (items.Pairwise fun a b => a.lr.start ≤ b.lr.start) ∧ ∀ it ∈ items, cur ≤ it.lr.start
  fresh : ∀ it ∈ items, ∀ w ∈ done, w.v ≠ it.v
  nodup : (items.map Item.v).Nodup

theorem Pending.tail {items : List Item} (h : Pending done cur (it :: items)) :
    cur ≤ it.lr.start ∧ (∀ w ∈ done, w.v ≠ it.v) ∧
      Pending (done ++ [it]) it.lr.start items := by
  obtain ⟨hle, hpair⟩ := List.pairwise_cons.mp h.starts.1
  have hnd := List.nodup_cons.mp h.nodup
  refine ⟨h.starts.2 it (by simp), h.fresh it (by simp), ⟨hpair, hle⟩, ?_, hnd.2⟩
  intro it' hit' w hw
  rcases List.mem_append.mp hw with hw | hw
  · exact h.fresh it' (List.mem_cons_of_mem _ hit') w hw
  · rw [List.mem_singleton.mp hw]
    exact fun he => hnd.1 (he ▸ List.mem_map_of_mem hit')

theorem run_cons {items : List Item} : (it :: items).foldlM AllocState.assign s = .ok s' ↔
    ∃ s₁, s.assign it = .ok s₁ ∧ items.foldlM AllocState.assign s₁ = .ok s' := by
  rw [List.foldlM_cons]
  cases s.assign it with
  | error e => exact ⟨nofun, fun ⟨_, h, _⟩ => nomatch h⟩
  | ok s₁ =>
    constructor
    · exact fun h => ⟨s₁, rfl, h⟩
    · rintro ⟨_, ⟨⟩, h⟩
      exact h

theorem allocate_eq_ok {items : List Item} {asg : RegAssignment} : allocate items = .ok asg ↔
    ∃ s, items.foldlM AllocState.assign .initial = .ok s ∧ s.v2p = asg := by
  unfold allocate
  cases items.foldlM AllocState.assign .initial with
  | error e => exact ⟨nofun, fun ⟨_, h, _⟩ => nomatch h⟩
  | ok s =>
    constructor
    · exact fun h => ⟨s, rfl, Except.ok.inj h⟩
    · rintro ⟨_, ⟨⟩, rfl⟩
      rfl

theorem AllocInv.run {items : List Item} (h : AllocInv done cur s) (hp : Pending done cur items)
    (hs : items.foldlM AllocState.assign s = .ok s') :
    ∃ c, AllocInv (done ++ items) c s' := by
  induction items generalizing done cur s with
  | nil =>
    cases hs
    exact ⟨cur, by rwa [List.append_nil]⟩
  | cons it items ih =>
    obtain ⟨hc, hnew, hp'⟩ := hp.tail
    obtain ⟨s₁, ha, hs⟩ := run_cons.mp hs
    obtain ⟨c, hinv⟩ := ih (h.assign hc hnew ha) hp' hs
    exact ⟨c, by rwa [List.append_assoc] at hinv⟩

/-- Never more than 24 of the ranges of `items` are open at a position. -/
def LowPressure (items : List Item) : Prop :=
  ∀ c, ∀ ws : List Item, (ws.map Item.v).Nodup →
    (∀ w ∈ ws, w ∈ items ∧ w.lr.start ≤ c ∧ c < w.lr.last) → ws.length < initialPool.length

/-- Where `it` starts, never more than 24 of the other ranges of `items` are open. -/
def HasRoom (items : List Item) (it : Item) : Prop :=
  ∀ ws : List Item, (ws.map Item.v).Nodup →
    (∀ w ∈ ws, w ∈ items ∧ w.v ≠ it.v ∧ w.lr.start ≤ it.lr.start ∧ it.lr.start < w.lr.last) →
      ws.length < initialPool.length

theorem LowPressure.hasRoom {items : List Item} (h : LowPressure items) (it : Item) :
    HasRoom items it := by
  intro ws hnd hws
  exact h it.lr.start ws hnd fun w hw => ⟨(hws w hw).1, (hws w hw).2.2⟩

/-- Open ranges hold their registers, so that a low pressure leaves one in the pool. -/
theorem AllocInv.assign_ok {all : List Item} (h : AllocInv done cur s)
    (hc : cur ≤ it.lr.start) (hnew : ∀ w ∈ done, w.v ≠ it.v)
    (hdone : ∀ w ∈ done, w ∈ all ∧ w.lr.start ≤ it.lr.start) (hroom : HasRoom all it) :
    ∃ s', s.assign it = .ok s' := by
  have he := h.expire hc
  unfold AllocState.assign
  cases hl : (s.expire it.lr.start).pool.getLast? with
  | some p =>
    simp only [hl]
    exact ⟨_, rfl⟩
  | none =>
    have hempty := List.getLast?_eq_none_iff.mp hl
    have hperm := he.pool.length_eq
    rw [hempty, List.nil_append, List.length_map] at hperm
    have hlt := hroom ((s.expire it.lr.start).active.map fun a => ⟨a.v, a.lr⟩)
      (by simpa [Function.comp_def] using he.vregs) (by
        intro w hw
        obtain ⟨a, ha, rfl⟩ := List.mem_map.mp hw
        have hin := (he.active a ha).1
        obtain ⟨hall, hstart⟩ := hdone _ hin
        exact ⟨hall, hnew _ hin, hstart, by simpa using (List.mem_filter.mp ha).2⟩)
    rw [List.length_map] at hlt
    omega

theorem AllocInv.run_ok {all items : List Item} (h : AllocInv done cur s)
    (hp : Pending done cur items) (hdone : ∀ w ∈ done, w ∈ all ∧ w.lr.start ≤ cur)
    (hitems : ∀ w ∈ items, w ∈ all) (hroom : ∀ it ∈ items, HasRoom all it) :
    ∃ s', items.foldlM AllocState.assign s = .ok s' := by
  induction items generalizing done cur s with
  | nil => exact ⟨s, rfl⟩
  | cons it items ih =>
    obtain ⟨hc, hnew, hp'⟩ := hp.tail
    have hdone' : ∀ w ∈ done, w ∈ all ∧ w.lr.start ≤ it.lr.start :=
      fun w hw => ⟨(hdone w hw).1, le_trans (hdone w hw).2 hc⟩
    obtain ⟨s₁, hs₁⟩ := h.assign_ok hc hnew hdone' (hroom it (by simp))
    have hsnoc : ∀ w ∈ done ++ [it], w ∈ all ∧ w.lr.start ≤ it.lr.start := by
      intro w hw
      rcases List.mem_append.mp hw with hw | hw
      · exact hdone' w hw
      · rw [List.mem_singleton.mp hw]
        exact ⟨hitems it (by simp), le_rfl⟩
    obtain ⟨s', hs'⟩ := ih (h.assign hc hnew hs₁) hp' hsnoc
      (fun w hw => hitems w (List.mem_cons_of_mem _ hw))
      fun w hw => hroom w (List.mem_cons_of_mem _ hw)
    exact ⟨s', run_cons.mpr ⟨s₁, hs₁, hs'⟩⟩

/-- The only way not to return is to run out of registers. -/
theorem run_aborts {items : List Item} {e : Fault}
    (h : items.foldlM AllocState.assign s = .error e) : e = .abort := by
  induction items generalizing s with
  | nil => cases h
  | cons it items ih =>
    rw [List.foldlM_cons] at h
    cases ha : s.assign it with
    | ok s₁ =>
      rw [ha] at h
      exact ih h
    | error e' =>
      rw [ha] at h
      cases h
      unfold AllocState.assign at ha
      cases hl : (s.expire it.lr.start).pool.getLast? with
      | none =>
        simp only [hl] at ha
        exact (Except.error.inj ha).symm
      | some p =>
        simp only [hl] at ha
        cases ha

end Scan

section Order
variable {live : LivenessMap} {items : List Item}

theorem ItemOrder.mem_iff (h : ItemOrder live items) (it : Item) :
    it ∈ items ↔ live.lookup it.v = some it.lr := by
  rw [h.perm.mem_iff, List.mem_map]
  constructor
  · rintro ⟨e, he, rfl⟩
    exact AList.mem_lookup_iff.mpr he
  · intro hl
    exact ⟨⟨it.v, it.lr⟩, AList.mem_lookup_iff.mp hl, rfl⟩

theorem ItemOrder.pending (h : ItemOrder live items) : Pending [] 0 items where
  starts := ⟨h.starts, fun _ _ => Nat.zero_le _⟩
  fresh := fun _ _ w hw => by cases hw
  nodup := by
    have hkeys : (live.entries.map fun e => (⟨e.1, e.2⟩ : Item)).map Item.v = live.keys := by
      rw [List.map_map]
      rfl
    have hnd := (h.perm.map Item.v).nodup_iff.mpr (hkeys ▸ live.keys_nodup)
    exact hnd

/-- Every order is allocated when the pressure is low. -/
theorem ItemOrder.allocate_ok (h : ItemOrder live items) (hlow : LowPressure items) :
    ∃ asg, allocate items = .ok asg := by
  obtain ⟨s, hs⟩ := AllocInv.initial.run_ok h.pending (fun w hw => by cases hw)
    (fun w hw => hw) fun it _ => hlow.hasRoom it
  exact ⟨s.v2p, by rw [allocate, hs]; rfl⟩

/-- Allocation gives every register of the map a register of the pool, and shares it only
between ranges that do not overlap. -/
theorem ItemOrder.allocated (h : ItemOrder live items) {asg : RegAssignment}
    (ha : allocate items = .ok asg) :
    (∀ v lr, live.lookup v = some lr → ∃ p ∈ initialPool, asg v = some p) ∧
      ∀ v lr w lr', live.lookup v = some lr → live.lookup w = some lr' → v ≠ w →
        asg v = asg w → lr.last ≤ lr'.start ∨ lr'.last ≤ lr.start := by
  obtain ⟨s, hs, rfl⟩ := allocate_eq_ok.mp ha
  obtain ⟨c, hinv⟩ := AllocInv.initial.run h.pending hs
  rw [List.nil_append] at hinv
  refine ⟨fun v lr hv => ?_, fun v lr w lr' hv hw hne heq => ?_⟩
  · obtain ⟨p, hp, hvp, -⟩ := hinv.held ⟨v, lr⟩ ((h.mem_iff _).mpr hv)
    exact ⟨p, hp, hvp⟩
  · exact hinv.apart ⟨v, lr⟩ ((h.mem_iff _).mpr hv) ⟨w, lr'⟩ ((h.mem_iff _).mpr hw) hne heq

/-- The ranges of the map for which `q` holds. -/
def rangeCount (live : LivenessMap) (q : LiveRange → Bool) : ℕ := live.entries.countP fun e => q e.2

/-- How many ranges contain a position, their ends included. -/
def rangesAt (live : LivenessMap) (p : ℕ) : ℕ :=
  rangeCount live fun lr => lr.start ≤ p ∧ p ≤ lr.last

/-- How many ranges go on behind a position. -/
def rangesAcross (live : LivenessMap) (p : ℕ) : ℕ :=
  rangeCount live fun lr => lr.start ≤ p ∧ p < lr.last

theorem ItemOrder.countP_eq (h : ItemOrder live items) (q : LiveRange → Bool) :
    items.countP (fun it => q it.lr) = rangeCount live q := by
  rw [h.perm.countP_eq, List.countP_map]
  rfl

/-- Different items that satisfy `q` are no more than there are in the map. -/
theorem ItemOrder.length_le (h : ItemOrder live items) (q : LiveRange → Bool) {ws : List Item}
    (hnd : (ws.map Item.v).Nodup) (hws : ∀ w ∈ ws, w ∈ items ∧ q w.lr = true) :
    ws.length ≤ rangeCount live q := by
  have hsub : ws ⊆ items.filter fun it => q it.lr := fun w hw => List.mem_filter.mpr (hws w hw)
  have hle := (List.subperm_of_subset (List.Nodup.of_map _ hnd) hsub).length_le
  rwa [← List.countP_eq_length_filter, h.countP_eq q] at hle

/-- No position with 26 ranges: there is room for every item. -/
theorem ItemOrder.hasRoom (h : ItemOrder live items)
    (hlive : ∀ v lr, live.lookup v = some lr → lr.start ≤ lr.last)
    (hlow : ∀ p, rangesAt live p < 26) {it : Item} (hit : it ∈ items) : HasRoom items it := by
  intro ws hnd hws
  have hfresh : it.v ∉ ws.map Item.v := by
    intro hmem
    obtain ⟨w, hw, he⟩ := List.mem_map.mp hmem
    exact (hws w hw).2.1 he
  have hall : ∀ w ∈ it :: ws, w ∈ items ∧
      decide (w.lr.start ≤ it.lr.start ∧ it.lr.start ≤ w.lr.last) = true := by
    intro w hw
    rcases List.mem_cons.mp hw with rfl | hw
    · have hle := hlive _ _ ((h.mem_iff w).mp hit)
      exact ⟨hit, by simpa using hle⟩
    · obtain ⟨hin, -, hstart, hlast⟩ := hws w hw
      exact ⟨hin, by simpa using ⟨hstart, hlast.le⟩⟩
  have hnd' : ((it :: ws).map Item.v).Nodup := List.nodup_cons.mpr ⟨hfresh, hnd⟩
  have hle := h.length_le (fun lr => lr.start ≤ it.lr.start ∧ it.lr.start ≤ lr.last) hnd' hall
  have hlt := hle.trans_lt (hlow it.lr.start)
  exact Nat.lt_of_succ_lt_succ hlt

/-- What an assignment owes to the ranges of the map. -/
structure PoolAssigned (live : LivenessMap) (asg : RegAssignment) : Prop where
  pool : ∀ v lr, live.lookup v = some lr → ∃ p ∈ initialPool, asg v = some p
  apart : ∀ v lr w lr', live.lookup v = some lr → live.lookup w = some lr' → v ≠ w →
    asg v = asg w → lr.last ≤ lr'.start ∨ lr'.last ≤ lr.start

/-- Ranges that go on behind one position have different registers. -/
theorem ItemOrder.across_le (h : ItemOrder live items) {asg : RegAssignment}
    (hasg : PoolAssigned live asg) (p : ℕ) : rangesAcross live p ≤ 25 := by
  obtain ⟨ws, hws⟩ : ∃ ws, ws = items.filter fun it => decide (it.lr.start ≤ p ∧ p < it.lr.last) :=
    ⟨_, rfl⟩
  have hmem : ∀ w ∈ ws, live.lookup w.v = some w.lr ∧ w.lr.start ≤ p ∧ p < w.lr.last := by
    intro w hw
    rw [hws, List.mem_filter] at hw
    exact ⟨(h.mem_iff w).mp hw.1, by simpa using hw.2⟩
  have hnd : (ws.map Item.v).Nodup := by
    rw [hws]
    exact h.pending.nodup.sublist (List.Sublist.map _ List.filter_sublist)
  have hplaces : (ws.map fun w => asg w.v).Nodup := by
    refine List.pairwise_map.mpr ((List.pairwise_map.mp hnd).imp_of_mem ?_)
    intro w w' hw hw' hne he
    obtain ⟨hl, hstart, hlast⟩ := hmem w hw
    obtain ⟨hl', hstart', hlast'⟩ := hmem w' hw'
    rcases hasg.apart _ _ _ _ hl hl' hne he with hle | hle <;> omega
  have hpool : (ws.map fun w => asg w.v) ⊆ initialPool.map some := by
    intro x hx
    obtain ⟨w, hw, rfl⟩ := List.mem_map.mp hx
    obtain ⟨q, hq, he⟩ := hasg.pool _ _ (hmem w hw).1
    exact List.mem_map.mpr ⟨q, hq, he.symm⟩
  have hle := (List.subperm_of_subset hplaces hpool).length_le
  rw [List.length_map, hws, ← List.countP_eq_length_filter,
    h.countP_eq fun lr => decide (lr.start ≤ p ∧ p < lr.last)] at hle
  exact hle

/-- How the scan may end: with registers for all ranges, or without registers where 26
ranges meet. -/
structure ScanOutcome (live : LivenessMap) (items : List Item) : Prop where
  ends : (∃ asg, allocate items = .ok asg) ∨ allocate items = .error .abort
  returns : ∀ asg, allocate items = .ok asg → PoolAssigned live asg
  pressure : allocate items = .error .abort → ∃ p, 26 ≤ rangesAt live p
  aborts : ∀ p, 26 ≤ rangesAcross live p → allocate items = .error .abort

/-- The scan is sound in every order, and gives up only under pressure. -/
theorem allocate_sound (h : ItemOrder live items)
    (hlive : ∀ v lr, live.lookup v = some lr → lr.start ≤ lr.last) : ScanOutcome live items := by
  have hreturns : ∀ asg, allocate items = .ok asg → PoolAssigned live asg := by
    intro asg ha
    obtain ⟨hpool, hapart⟩ := h.allocated ha
    exact ⟨hpool, hapart⟩
  have hends : (∃ asg, allocate items = .ok asg) ∨ allocate items = .error .abort := by
    unfold allocate
    cases hs : items.foldlM AllocState.assign .initial with
    | ok s => exact Or.inl ⟨s.v2p, rfl⟩
    | error e =>
      rw [run_aborts hs]
      exact Or.inr rfl
  refine ⟨hends, hreturns, fun habort => ?_, fun p hp => ?_⟩
  · by_contra hlow
    obtain ⟨s, hs⟩ := AllocInv.initial.run_ok h.pending (fun w hw => by cases hw)
      (fun w hw => hw) fun it hit =>
        h.hasRoom hlive (fun p => not_le.mp fun hp => hlow ⟨p, hp⟩) hit
    rw [allocate, hs] at habort
    cases habort
  · refine hends.resolve_left ?_
    rintro ⟨asg, ha⟩
    have hle := h.across_le (hreturns asg ha) p
    omega

/-- Two ranges that overlap at position 1. -/
def twoRanges : LivenessMap := ((∅ : LivenessMap).insert 1 ⟨0, 2⟩).insert 2 ⟨1, 3⟩

theorem twoRanges_sound : ScanOutcome twoRanges [⟨1, ⟨0, 2⟩⟩, ⟨2, ⟨1, 3⟩⟩] := by
  have hall : ∀ e ∈ twoRanges.entries, e.2.start ≤ e.2.last := by decide
  exact allocate_sound ⟨by decide, by decide⟩ fun v lr hl => hall _ (AList.mem_lookup_iff.mp hl)

end Order

end Riscy.AArch64
