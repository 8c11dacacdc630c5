import Riscy.AArch64AllocSound

/-! Blocks that start with an instruction on two registers. The range of the first register
is recorded from the instruction on, where the range of the second one has ended. So it
is given the place of the second one, unless the register of the result is met before. -/
namespace Riscy.AArch64

section Scan

/-- A register that no item is about keeps its place. -/
theorem run_keeps {items : List Item} {s s' : AllocState} {v : VReg}
    (h : items.foldlM AllocState.assign s = .ok s') (hv : ∀ it ∈ items, it.v ≠ v) :
    s'.v2p v = s.v2p v := by
  induction items generalizing s with
  | nil =>
    cases h
    rfl
  | cons it items ih =>
    obtain ⟨s₁, ha, h⟩ := run_cons.mp h
    obtain ⟨pool, p, -, rfl⟩ := assign_eq ha
    rw [ih h fun it' hit => hv it' (List.mem_cons_of_mem _ hit)]
    exact Function.update_of_ne (hv it (List.mem_cons_self ..)).symm ..

/-- All but the last register of the pool. -/
def lowerPool : List PReg := initialPool.dropLast

theorem initial_assign (it : Item) : AllocState.initial.assign it =
    .ok ⟨lowerPool, [⟨28, it.lr, it.v⟩], Function.update (fun _ => none) it.v (some 28)⟩ := rfl

variable {lr : LiveRange} {v : VReg} {f : RegAssignment} {it : Item}

/-- The only active register is taken over by the next item when its range has ended. -/
theorem assign_ended (h : lr.last ≤ it.lr.start) :
    (AllocState.mk lowerPool [⟨28, lr, v⟩] f).assign it =
      .ok ⟨lowerPool, [⟨28, it.lr, it.v⟩], Function.update f it.v (some 28)⟩ := by
  have hno : ¬ it.lr.start < lr.last := by omega
  simp only [AllocState.assign, AllocState.expire, List.filter_cons, h, hno, decide_true,
    decide_false, if_true, Bool.false_eq_true, if_false, List.filter_nil, List.map_cons,
    List.map_nil]
  rfl

theorem assign_open (h : it.lr.start < lr.last) :
    (AllocState.mk lowerPool [⟨28, lr, v⟩] f).assign it =
      .ok ⟨lowerPool.dropLast, [⟨28, lr, v⟩, ⟨27, it.lr, it.v⟩],
        Function.update f it.v (some 27)⟩ := by
  have hno : ¬ lr.last ≤ it.lr.start := by omega
  simp only [AllocState.assign, AllocState.expire, List.filter_cons, h, hno, decide_true,
    decide_false, if_true, Bool.false_eq_true, if_false, List.filter_nil, List.map_nil,
    List.append_nil]
  rfl

end Scan

/-- Positions of the registers of a block that starts with an instruction on the registers 1
and 2 at position `p`. -/
structure TwoOperands (ts : List (VReg × ℕ)) (p : ℕ) : Prop where
  two_le : 2 ≤ p
  fst_op : (1, p) ∈ ts
  fst : ∀ j, (1, j) ∈ ts → j = 0 ∨ p ≤ j
  snd_def : (2, 1) ∈ ts
  snd_op : (2, p) ∈ ts
  snd : ∀ j, (2, j) ∈ ts → 1 ≤ j ∧ j ≤ p
  others : ∀ v j, (v, j) ∈ ts → v = 1 ∨ v = 2 ∨ v = 3 ∧ p ≤ j ∨ p < j

section Ranges
variable {ts : List (VReg × ℕ)} {p : ℕ} {lr : LiveRange}

/-- A use at position 0 is lost if there is another one: the range starts there. -/
theorem lookup_second {v : VReg} (hs : ts.Pairwise fun e e' => e.2 ≤ e'.2) (hp : p ≠ 0)
    (hv : (v, p) ∈ ts) (hmin : ∀ j, (v, j) ∈ ts → j = 0 ∨ p ≤ j) :
    ∃ m, (touchAll ∅ ts).lookup v = some ⟨p, m⟩ ∧ p ≤ m := by
  cases hl : (touchAll ∅ ts).lookup v with
  | none => exact absurd hv ((lookup_touchAll ts v).2 hl p)
  | some lr =>
    have hr := (lookup_touchAll ts v).1 lr hl
    have hlast := hr.upper p hv
    have hlow := hr.lower p hv
    have hstart : lr.start = p := by
      rcases hmin _ hr.start with h0 | hle
      · have hz := start_unset hs hl h0
        omega
      · omega
    exact ⟨lr.last, by rw [← hstart], hlast⟩

theorem TwoOperands.lookup_fst (h : TwoOperands ts p)
    (hs : ts.Pairwise fun e e' => e.2 ≤ e'.2) :
    ∃ m, (touchAll ∅ ts).lookup 1 = some ⟨p, m⟩ ∧ p ≤ m := by
  have hp := h.two_le
  exact lookup_second hs (by omega) h.fst_op h.fst

theorem TwoOperands.lookup_snd (h : TwoOperands ts p) :
    (touchAll ∅ ts).lookup 2 = some ⟨1, p⟩ := by
  have hp := h.two_le
  cases hl : (touchAll ∅ ts).lookup 2 with
  | none => exact absurd h.snd_op ((lookup_touchAll ts 2).2 hl p)
  | some lr =>
    have hr := (lookup_touchAll ts 2).1 lr hl
    have hlast := hr.upper p h.snd_op
    have hlow := hr.lower 1 h.snd_def
    have hs := h.snd _ hr.start
    have hl' := h.snd _ hr.last
    obtain ⟨s, l⟩ := lr
    simp only at hlast hlow hs hl'
    congr 2 <;> omega

/-- No other register starts before the instruction, and only its result there. -/
theorem TwoOperands.lookup_other (h : TwoOperands ts p) {v : VReg}
    (hv : (touchAll ∅ ts).lookup v = some lr) (h1 : v ≠ 1) (h2 : v ≠ 2) :
    p ≤ lr.start ∧ (v ≠ 3 → p < lr.start) ∧ lr.start ≤ lr.last := by
  have hr := (lookup_touchAll ts v).1 lr hv
  have hle := hr.upper _ hr.start
  rcases h.others v _ hr.start with h' | h' | ⟨h3, hp⟩ | hp
  · exact absurd h' h1
  · exact absurd h' h2
  · exact ⟨hp, fun hne => absurd h3 hne, hle⟩
  · exact ⟨hp.le, fun _ => hp, hle⟩

end Ranges

section Order
variable {ts : List (VReg × ℕ)} {p : ℕ} {items : List Item} {asg : RegAssignment}

/-- The orders in which the items of the first registers can come: `m` and `m₃` are the
ends of the first register and of the result. -/
inductive FirstItems (p m : ℕ) : List Item → Prop
  | alone {rest} (hrest : ∀ it ∈ rest, p < it.lr.start) :
    FirstItems p m (⟨2, ⟨1, p⟩⟩ :: ⟨1, ⟨p, m⟩⟩ :: rest)
  | before {m₃ rest} (hrest : ∀ it ∈ rest, p < it.lr.start) :
    FirstItems p m (⟨2, ⟨1, p⟩⟩ :: ⟨1, ⟨p, m⟩⟩ :: ⟨3, ⟨p, m₃⟩⟩ :: rest)
  | after {m₃ rest} (hrest : ∀ it ∈ rest, p < it.lr.start) :
    FirstItems p m (⟨2, ⟨1, p⟩⟩ :: ⟨3, ⟨p, m₃⟩⟩ :: ⟨1, ⟨p, m⟩⟩ :: rest)

theorem head_start {it : Item} (hs : items.Pairwise fun a b => a.lr.start ≤ b.lr.start)
    (hit : it ∈ items) : ∃ x rest, items = x :: rest ∧ x.lr.start ≤ it.lr.start := by
  cases items with
  | nil => cases hit
  | cons x rest =>
    refine ⟨x, rest, rfl, ?_⟩
    rcases List.mem_cons.mp hit with rfl | hit
    · exact le_rfl
    · exact (List.pairwise_cons.mp hs).1 it hit

/-- An item that starts no later than the instruction is one of the first three registers. -/
theorem TwoOperands.early (h : TwoOperands ts p) {m : ℕ}
    (hm : (touchAll ∅ ts).lookup 1 = some ⟨p, m⟩) {it : Item}
    (hl : (touchAll ∅ ts).lookup it.v = some it.lr) (hle : it.lr.start ≤ p) :
    it = ⟨1, ⟨p, m⟩⟩ ∨ it = ⟨2, ⟨1, p⟩⟩ ∨ ∃ m₃, it = ⟨3, ⟨p, m₃⟩⟩ := by
  obtain ⟨v, lr⟩ := it
  by_cases hv1 : v = 1
  · subst hv1
    rw [hm] at hl
    cases hl
    exact Or.inl rfl
  by_cases hv2 : v = 2
  · subst hv2
    rw [h.lookup_snd] at hl
    cases hl
    exact Or.inr (Or.inl rfl)
  obtain ⟨hge, hgt, -⟩ := h.lookup_other hl hv1 hv2
  by_cases hv3 : v = 3
  · subst hv3
    obtain ⟨s, l⟩ := lr
    obtain rfl : s = p := le_antisymm hle hge
    exact Or.inr (Or.inr ⟨l, rfl⟩)
  · exact absurd (hgt hv3) (not_lt.mpr hle)

theorem TwoOperands.firstItems (h : TwoOperands ts p) {m : ℕ}
    (hm : (touchAll ∅ ts).lookup 1 = some ⟨p, m⟩) (ho : ItemOrder (touchAll ∅ ts) items) :
    FirstItems p m items := by
  have hp := h.two_le
  have hnd := ho.pending.nodup
  have hsorted := ho.starts
  have h1 : (⟨1, ⟨p, m⟩⟩ : Item) ∈ items := (ho.mem_iff _).mpr hm
  have h2 : (⟨2, ⟨1, p⟩⟩ : Item) ∈ items := (ho.mem_iff _).mpr h.lookup_snd
  have hearly : ∀ it ∈ items, it.lr.start ≤ p → it = ⟨1, ⟨p, m⟩⟩ ∨ it = ⟨2, ⟨1, p⟩⟩ ∨
      ∃ m₃, it = ⟨3, ⟨p, m₃⟩⟩ := fun it hit => h.early hm ((ho.mem_iff it).mp hit)
  have hlate : ∀ w ∈ items, w.v ≠ 1 → w.v ≠ 2 → w.v ≠ 3 → p < w.lr.start := by
    intro w hw hw1 hw2 hw3
    by_contra hle
    rcases hearly w hw (not_lt.mp hle) with rfl | rfl | ⟨_, rfl⟩
    · exact hw1 rfl
    · exact hw2 rfl
    · exact hw3 rfl
  obtain ⟨x, rest, rfl, hx⟩ := head_start hsorted h2
  have hx2 : x = ⟨2, ⟨1, p⟩⟩ := by
    have hx' : x.lr.start ≤ 1 := hx
    rcases hearly x (List.mem_cons_self ..) (by omega) with rfl | rfl | ⟨m₃, rfl⟩
    · simp only at hx'
      omega
    · rfl
    · simp only at hx'
      omega
  subst hx2
  have hsorted' := (List.pairwise_cons.mp hsorted).2
  obtain ⟨hno2, hnd'⟩ := List.nodup_cons.mp hnd
  have hrest2 : ∀ it ∈ rest, it.v ≠ 2 :=
    fun it hit he => hno2 (List.mem_map.mpr ⟨it, hit, he⟩)
  have h1' : (⟨1, ⟨p, m⟩⟩ : Item) ∈ rest := (List.mem_cons.mp h1).resolve_left (by simp)
  obtain ⟨y, rest', rfl, hy⟩ := head_start hsorted' h1'
  have hsorted'' := (List.pairwise_cons.mp hsorted').2
  obtain ⟨hnoy, hnd''⟩ := List.nodup_cons.mp hnd'
  have hresty : ∀ it ∈ rest', it.v ≠ y.v :=
    fun it hit he => hnoy (List.mem_map.mpr ⟨it, hit, he⟩)
  have hin : ∀ it ∈ rest', it ∈ (⟨2, ⟨1, p⟩⟩ :: y :: rest' : List Item) ∧ it.v ≠ 2 := fun it hit =>
    ⟨List.mem_cons_of_mem _ (List.mem_cons_of_mem _ hit), hrest2 it (List.mem_cons_of_mem _ hit)⟩
  rcases hearly y (by simp) hy with rfl | rfl | ⟨m₃, rfl⟩
  · by_cases h3 : ∃ it ∈ rest', it.lr.start ≤ p
    · obtain ⟨it, hit, hle⟩ := h3
      obtain ⟨z, rest'', rfl, hz⟩ := head_start hsorted'' hit
      have hno3 := (List.nodup_cons.mp hnd'').1
      rcases hearly z (by simp) (hz.trans hle) with rfl | rfl | ⟨m₃, rfl⟩
      · exact absurd rfl (hresty _ (List.mem_cons_self ..))
      · exact absurd rfl (hin _ (List.mem_cons_self ..)).2
      · refine .before fun w hw => ?_
        have hw' := hin w (List.mem_cons_of_mem _ hw)
        exact hlate w hw'.1 (hresty w (List.mem_cons_of_mem _ hw)) hw'.2
          fun he => hno3 (List.mem_map.mpr ⟨w, hw, he⟩)
    · refine .alone fun w hw => ?_
      by_contra hle
      exact h3 ⟨w, hw, not_lt.mp hle⟩
  · exact absurd rfl (hrest2 _ (List.mem_cons_self ..))
  · have h1'' : (⟨1, ⟨p, m⟩⟩ : Item) ∈ rest' := (List.mem_cons.mp h1').resolve_left (by simp)
    obtain ⟨z, rest'', rfl, hz⟩ := head_start hsorted'' h1''
    have hno1 := (List.nodup_cons.mp hnd'').1
    rcases hearly z (by simp) hz with rfl | rfl | ⟨m₄, rfl⟩
    · refine .after fun w hw => ?_
      have hw' := hin w (List.mem_cons_of_mem _ hw)
      exact hlate w hw'.1 (fun he => hno1 (List.mem_map.mpr ⟨w, hw, he⟩)) hw'.2
        (hresty w (List.mem_cons_of_mem _ hw))
    · exact absurd rfl (hin _ (List.mem_cons_self ..)).2
    · exact (hresty _ (List.mem_cons_self ..) rfl).elim

/-- Where nothing but the first two registers starts early, the result is not met there. -/
theorem not_alone {m m₃ : ℕ} {rest : List Item} (hrest : ∀ it ∈ rest, p < it.lr.start) :
    (⟨3, ⟨p, m₃⟩⟩ : Item) ∉ (⟨2, ⟨1, p⟩⟩ :: ⟨1, ⟨p, m⟩⟩ :: rest : List Item) := by
  intro hit
  rcases List.mem_cons.mp hit with hit | hit
  · cases hit
  · rcases List.mem_cons.mp hit with hit | hit
    · cases hit
    · exact absurd (hrest _ hit) (lt_irrefl p)

/-- The first two items take the same place, one after the other. -/
theorem allocate_two {x : Item} {rest : List Item} (hx : x.lr.start = p)
    (ha : allocate (⟨2, ⟨1, p⟩⟩ :: x :: rest) = .ok asg) :
    ∃ s', rest.foldlM AllocState.assign ⟨lowerPool, [⟨28, x.lr, x.v⟩],
      Function.update (Function.update (fun _ => none) 2 (some 28)) x.v (some 28)⟩ = .ok s' ∧
        asg = s'.v2p := by
  have hend : (⟨1, p⟩ : LiveRange).last ≤ x.lr.start := hx.ge
  obtain ⟨s', hs, rfl⟩ := allocate_eq_ok.mp ha
  obtain ⟨s₁, h₁, hs⟩ := run_cons.mp hs
  rw [initial_assign] at h₁
  cases h₁
  obtain ⟨s₂, h₂, hs⟩ := run_cons.mp hs
  rw [assign_ended hend] at h₂
  cases h₂
  exact ⟨s', hs, rfl⟩

theorem allocate_first {x : Item} {rest : List Item} (hx : x.lr.start = p)
    (hnd : ((⟨2, ⟨1, p⟩⟩ :: x :: rest : List Item).map Item.v).Nodup)
    (ha : allocate (⟨2, ⟨1, p⟩⟩ :: x :: rest) = .ok asg) :
    asg 2 = some 28 ∧ asg x.v = some 28 := by
  obtain ⟨s', hs, rfl⟩ := allocate_two hx ha
  have hnd2 := List.nodup_cons.mp hnd
  have hndx := List.nodup_cons.mp hnd2.2
  have h2 := run_keeps hs fun it hit he =>
    hnd2.1 (List.mem_map.mpr ⟨it, List.mem_cons_of_mem _ hit, he⟩)
  have hv := run_keeps hs fun it hit he => hndx.1 (List.mem_map.mpr ⟨it, hit, he⟩)
  have hne : x.v ≠ 2 := fun he => hnd2.1 (List.mem_map.mpr ⟨x, List.mem_cons_self .., he⟩)
  rw [h2, hv]
  exact ⟨(Function.update_of_ne hne.symm ..).trans (Function.update_self ..),
    Function.update_self ..⟩

/-- A third item takes the place over if its range starts where the one before it ends. -/
theorem allocate_third {x y : Item} {rest : List Item} (hx : x.lr.start = p)
    (hy : y.lr.start = p)
    (hnd : ((⟨2, ⟨1, p⟩⟩ :: x :: y :: rest : List Item).map Item.v).Nodup)
    (ha : allocate (⟨2, ⟨1, p⟩⟩ :: x :: y :: rest) = .ok asg) :
    asg y.v = if x.lr.last ≤ p then some 28 else some 27 := by
  obtain ⟨s', hs, rfl⟩ := allocate_two hx ha
  have hndy := (List.nodup_cons.mp (List.nodup_cons.mp (List.nodup_cons.mp hnd).2).2).1
  have hrest : ∀ it ∈ rest, it.v ≠ y.v := fun it hit he =>
    hndy (List.mem_map.mpr ⟨it, hit, he⟩)
  rw [List.foldlM_cons] at hs
  split_ifs with hend
  · rw [assign_ended (hy ▸ hend)] at hs
    exact (run_keeps hs hrest).trans (Function.update_self ..)
  · rw [assign_open (hy ▸ not_le.mp hend)] at hs
    exact (run_keeps hs hrest).trans (Function.update_self ..)

/-- A later register does not take the place of the first one while that is in use. -/
theorem ItemOrder.later_apart {live : LivenessMap} (ho : ItemOrder live items)
    (ha : allocate items = .ok asg) {m : ℕ} (hm : live.lookup 1 = some ⟨p, m⟩) {w : VReg}
    {lr : LiveRange} (h1 : w ≠ 1) (hl : live.lookup w = some lr) (hlate : p < lr.last)
    (he : asg w = asg 1) : m ≤ lr.start := by
  rcases (ho.allocated ha).2 w lr 1 ⟨p, m⟩ hl hm h1 he with hle | hle
  · have hle' : lr.last ≤ p := hle
    omega
  · exact hle

/-- The first register takes the place of the second one. -/
theorem TwoOperands.merged_two (h : TwoOperands ts p) {m : ℕ} (hpm : p ≤ m)
    (hm : (touchAll ∅ ts).lookup 1 = some ⟨p, m⟩) (ho : ItemOrder (touchAll ∅ ts) items)
    (ha : allocate items = .ok asg) (hsame : asg 2 = asg 1)
    (hthree : p < m → (touchAll ∅ ts).lookup 3 = some ⟨p, p⟩ → asg 3 ≠ asg 1) :
    MergedBy (touchAll ∅ ts) asg [1, 2] m where
  one := by simp
  same u hu := by
    simp only [List.mem_cons, List.not_mem_nil, or_false] at hu
    rcases hu with rfl | rfl
    · rfl
    · exact hsame
  last u hu lr hl := by
    simp only [List.mem_cons, List.not_mem_nil, or_false] at hu
    rcases hu with rfl | rfl
    · rw [hm] at hl
      cases hl
      exact le_rfl
    · rw [h.lookup_snd] at hl
      cases hl
      exact hpm
  apart w lr hw hl he := by
    simp only [List.mem_cons, List.not_mem_nil, or_false, not_or] at hw
    obtain ⟨hge, hgt, hle⟩ := h.lookup_other hl hw.1 hw.2
    by_cases hlate : p < lr.last
    · exact ho.later_apart ha hm hw.1 hl hlate he
    · have h3 : w = 3 := by
        by_contra hne
        have := hgt hne
        omega
      subst h3
      obtain ⟨s, l⟩ := lr
      simp only at hge hle hlate
      obtain rfl : s = p := by omega
      obtain rfl : l = s := by omega
      by_contra hlt
      exact hthree (not_le.mp hlt) hl he

/-- The result takes the place of the second register, and the first one that of both. -/
theorem TwoOperands.merged_three (h : TwoOperands ts p) {m : ℕ} (hpm : p ≤ m)
    (hm : (touchAll ∅ ts).lookup 1 = some ⟨p, m⟩) (ho : ItemOrder (touchAll ∅ ts) items)
    (ha : allocate items = .ok asg) (hsame : asg 2 = asg 1)
    (hthree : (touchAll ∅ ts).lookup 3 = some ⟨p, p⟩) (hsame' : asg 3 = asg 1) :
    MergedBy (touchAll ∅ ts) asg [1, 2, 3] m where
  one := by simp
  same u hu := by
    simp only [List.mem_cons, List.not_mem_nil, or_false] at hu
    rcases hu with rfl | rfl | rfl
    · rfl
    · exact hsame
    · exact hsame'
  last u hu lr hl := by
    simp only [List.mem_cons, List.not_mem_nil, or_false] at hu
    rcases hu with rfl | rfl | rfl
    · rw [hm] at hl
      cases hl
      exact le_rfl
    · rw [h.lookup_snd] at hl
      cases hl
      exact hpm
    · rw [hthree] at hl
      cases hl
      exact hpm
  apart w lr hw hl he := by
    simp only [List.mem_cons, List.not_mem_nil, or_false, not_or] at hw
    obtain ⟨-, hgt, hle⟩ := h.lookup_other hl hw.1 hw.2.1
    exact ho.later_apart ha hm hw.1 hl ((hgt hw.2.2).trans_le hle) he

/-- The result has the place of the second register, and the first one has its own. -/
theorem TwoOperands.merged_none (h : TwoOperands ts p) {m m₃ : ℕ}
    (hm : (touchAll ∅ ts).lookup 1 = some ⟨p, m⟩) (ho : ItemOrder (touchAll ∅ ts) items)
    (ha : allocate items = .ok asg) (hne : asg 2 ≠ asg 1)
    (hthree : (touchAll ∅ ts).lookup 3 = some ⟨p, m₃⟩) (hlive : p < m₃) :
    MergedBy (touchAll ∅ ts) asg [1] m where
  one := by simp
  same u hu := by rw [List.mem_singleton.mp hu]
  last u hu lr hl := by
    rw [List.mem_singleton.mp hu, hm] at hl
    cases hl
    exact le_rfl
  apart w lr hw hl he := by
    have h1 : w ≠ 1 := fun h1 => hw (h1 ▸ List.mem_singleton_self w)
    have h2 : w ≠ 2 := fun h2 => hne (h2 ▸ he)
    obtain ⟨hge, hgt, hle⟩ := h.lookup_other hl h1 h2
    refine ho.later_apart ha hm h1 hl ?_ he
    by_cases h3 : w = 3
    · rw [h3, hthree] at hl
      cases hl
      exact hlive
    · exact (hgt h3).trans_le hle

/-- Items that start together may come the other way round. -/
theorem ItemOrder.swap {live : LivenessMap} {x y z : Item} {rest : List Item}
    (ho : ItemOrder live (x :: y :: z :: rest)) (he : y.lr.start = z.lr.start) :
    ItemOrder live (x :: z :: y :: rest) where
  perm := ((List.Perm.swap y z rest).cons x).trans ho.perm
  starts := by
    have hs := ho.starts
    simp only [List.pairwise_cons, List.mem_cons, forall_eq_or_imp] at hs ⊢
    obtain ⟨⟨hxy, hxz, hx⟩, ⟨-, hy⟩, hz, hrest⟩ := hs
    exact ⟨⟨hxz, hxy, hx⟩, ⟨he.ge, hz⟩, hy, hrest⟩

section Cases
variable (h : TwoOperands ts p) {m : ℕ} (hpm : p ≤ m)
  (hm : (touchAll ∅ ts).lookup 1 = some ⟨p, m⟩)
include h hpm hm

theorem TwoOperands.merged_before {rest : List Item}
    (ho : ItemOrder (touchAll ∅ ts) (⟨2, ⟨1, p⟩⟩ :: ⟨1, ⟨p, m⟩⟩ :: rest))
    (ha : allocate (⟨2, ⟨1, p⟩⟩ :: ⟨1, ⟨p, m⟩⟩ :: rest) = .ok asg) :
    MergedBy (touchAll ∅ ts) asg [1, 2] m := by
  have hnd := ho.pending.nodup
  obtain ⟨ha2, ha1⟩ := allocate_first rfl hnd ha
  refine h.merged_two hpm hm ho ha (ha2.trans ha1.symm) fun hlt h3 he => ?_
  have hit := (ho.mem_iff ⟨3, ⟨p, p⟩⟩).mpr h3
  have hfirst := h.firstItems hm ho
  cases hfirst with
  | alone hrest => exact absurd hit (not_alone hrest)
  | @before m₃ rest hrest =>
    have ha3 := allocate_third (x := ⟨1, ⟨p, m⟩⟩) (y := ⟨3, ⟨p, m₃⟩⟩) rfl rfl hnd ha
    rw [if_neg (not_le.mpr hlt)] at ha3
    have h31 : asg 3 = some 28 := he.trans ha1
    rw [ha3] at h31
    cases h31

theorem TwoOperands.merged_after {m₃ : ℕ} {rest : List Item}
    (ho : ItemOrder (touchAll ∅ ts) (⟨2, ⟨1, p⟩⟩ :: ⟨3, ⟨p, m₃⟩⟩ :: ⟨1, ⟨p, m⟩⟩ :: rest))
    (ha : allocate (⟨2, ⟨1, p⟩⟩ :: ⟨3, ⟨p, m₃⟩⟩ :: ⟨1, ⟨p, m⟩⟩ :: rest) = .ok asg) :
    MergedBy (touchAll ∅ ts) asg (if m₃ = p then [1, 2, 3] else [1]) m := by
  have hnd := ho.pending.nodup
  obtain ⟨ha2, ha3⟩ := allocate_first rfl hnd ha
  have ha1 := allocate_third (x := ⟨3, ⟨p, m₃⟩⟩) (y := ⟨1, ⟨p, m⟩⟩) rfl rfl hnd ha
  have h3 := (ho.mem_iff ⟨3, ⟨p, m₃⟩⟩).mp (by simp)
  have hle : p ≤ m₃ := (h.lookup_other (v := 3) h3 (by decide) (by decide)).2.2
  split_ifs with hdead
  · rw [if_pos hdead.le] at ha1
    exact h.merged_three hpm hm ho ha (ha2.trans ha1.symm) (hdead ▸ h3) (ha3.trans ha1.symm)
  · have hlive : p < m₃ := lt_of_le_of_ne hle (Ne.symm hdead)
    rw [if_neg (not_le.mpr hlive)] at ha1
    refine h.merged_none hm ho ha (fun he => ?_) h3 hlive
    have h21 : asg 1 = some 28 := he.symm.trans ha2
    rw [ha1] at h21
    cases h21

end Cases

/-- In every order the first register has its own place, or that of the second one, or that
of the second one and the result. -/
theorem TwoOperands.mergedBy (h : TwoOperands ts p) (hs : ts.Pairwise fun e e' => e.2 ≤ e'.2)
    (ho : ItemOrder (touchAll ∅ ts) items) (ha : allocate items = .ok asg) :
    ∃ M, MergedBy (touchAll ∅ ts) asg [1] M ∨ MergedBy (touchAll ∅ ts) asg [1, 2] M ∨
      (touchAll ∅ ts).lookup 3 = some ⟨p, p⟩ ∧ MergedBy (touchAll ∅ ts) asg [1, 2, 3] M := by
  obtain ⟨m, hm, hpm⟩ := h.lookup_fst hs
  refine ⟨m, ?_⟩
  cases h.firstItems hm ho with
  | alone => exact Or.inr (Or.inl (h.merged_before hpm hm ho ha))
  | before => exact Or.inr (Or.inl (h.merged_before hpm hm ho ha))
  | @after m₃ =>
    have hmerged := h.merged_after hpm hm ho ha
    by_cases hdead : m₃ = p
    · rw [if_pos hdead] at hmerged
      exact Or.inr (Or.inr ⟨hdead ▸ (ho.mem_iff ⟨3, ⟨p, m₃⟩⟩).mp (by simp), hmerged⟩)
    · rw [if_neg hdead] at hmerged
      exact Or.inl hmerged

section Exists
variable (h : TwoOperands ts p) (hs : ts.Pairwise fun e e' => e.2 ≤ e'.2)
  (hok : ∀ items, ItemOrder (touchAll ∅ ts) items → ∃ asg, allocate items = .ok asg)
  (ho : ItemOrder (touchAll ∅ ts) items)
include h hs hok ho

/-- Some order gives the first register the place of the second one. -/
theorem TwoOperands.exists_two : ∃ items asg M, ItemOrder (touchAll ∅ ts) items ∧
    allocate items = .ok asg ∧ MergedBy (touchAll ∅ ts) asg [1, 2] M := by
  obtain ⟨m, hm, hpm⟩ := h.lookup_fst hs
  have hfirst : ∃ rest, ItemOrder (touchAll ∅ ts) (⟨2, ⟨1, p⟩⟩ :: ⟨1, ⟨p, m⟩⟩ :: rest) := by
    cases h.firstItems hm ho with
    | alone => exact ⟨_, ho⟩
    | before => exact ⟨_, ho⟩
    | after => exact ⟨_, ho.swap rfl⟩
  obtain ⟨rest, ho'⟩ := hfirst
  obtain ⟨asg, ha⟩ := hok _ ho'
  exact ⟨_, asg, m, ho', ha, h.merged_before hpm hm ho' ha⟩

/-- If the result is not used, some order gives it that place, too. -/
theorem TwoOperands.exists_three (h3 : (touchAll ∅ ts).lookup 3 = some ⟨p, p⟩) :
    ∃ items asg M, ItemOrder (touchAll ∅ ts) items ∧ allocate items = .ok asg ∧
      MergedBy (touchAll ∅ ts) asg [1, 2, 3] M := by
  obtain ⟨m, hm, hpm⟩ := h.lookup_fst hs
  have hend : ∀ {items : List Item}, ItemOrder (touchAll ∅ ts) items → ∀ {m₃},
      (⟨3, ⟨p, m₃⟩⟩ : Item) ∈ items → m₃ = p := by
    intro items ho m₃ hit
    have hl := (ho.mem_iff _).mp hit
    rw [h3] at hl
    cases hl
    rfl
  have hfirst : ∃ rest, ItemOrder (touchAll ∅ ts)
      (⟨2, ⟨1, p⟩⟩ :: ⟨3, ⟨p, p⟩⟩ :: ⟨1, ⟨p, m⟩⟩ :: rest) := by
    have hit := (ho.mem_iff ⟨3, ⟨p, p⟩⟩).mpr h3
    cases h.firstItems hm ho with
    | alone hrest => exact absurd hit (not_alone hrest)
    | @before m₃ =>
      obtain rfl : m₃ = p := hend ho (by simp)
      exact ⟨_, ho.swap rfl⟩
    | @after m₃ =>
      obtain rfl : m₃ = p := hend ho (by simp)
      exact ⟨_, ho⟩
  obtain ⟨rest, ho'⟩ := hfirst
  obtain ⟨asg, ha⟩ := hok _ ho'
  have hmerged := h.merged_after hpm hm ho' ha
  rw [if_pos rfl] at hmerged
  exact ⟨_, asg, m, ho', ha, hmerged⟩

end Exists

end Order

end Riscy.AArch64
