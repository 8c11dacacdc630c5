import Riscy.AArch64Lines

/-! `Liveness::analyze`, and what the ranges it returns say about the positions at which a
register is touched. A range that is still `{0, 0}` counts as unset, so that a register of
the first instruction starts at its second occurrence. -/
namespace Riscy.AArch64

/-- A live range with both ends, as 32-bit numbers. -/
structure LiveRange where
  start : ℕ
  last : ℕ
  deriving DecidableEq, Repr

abbrev LivenessMap := AList (fun _ : VReg => LiveRange)

def LiveRange.widen (lr : LiveRange) (pos : ℕ) : LiveRange :=
  let lr := if lr.start = 0 ∧ lr.last = 0 then ⟨pos, pos⟩ else lr
  let lr := if pos < lr.start then { lr with start := pos } else lr
  if lr.last < pos then { lr with last := pos } else lr

def touch (map : LivenessMap) (v : VReg) (pos : ℕ) : LivenessMap :=
  map.insert v (((map.lookup v).getD ⟨0, 0⟩).widen pos)

def touchInstr (map : LivenessMap) (pos : ℕ) (i : Instr) : LivenessMap :=
  i.vregs.foldl (fun m v => touch m v pos) map

/-- The loop over the instructions, with the position after the last one. -/
def touchInstrs : LivenessMap → ℕ → List Instr → LivenessMap × ℕ
  | map, pos, [] => (map, pos)
  | map, pos, i :: is => touchInstrs (touchInstr map pos i) ((pos + 1) % 2 ^ 32) is

def analyze (b : Block) : Except Fault LivenessMap :=
  let (map, pos) := touchInstrs ∅ 0 b.instrs
  match b.term.kind, b.term.data with
  | .CBr, .cbr cond _ _ => .ok (touch map cond pos)
  | .BrIndirect, .brIndirect target => .ok (touch map target pos)
  | .CBr, _ | .BrIndirect, _ => .error .badVariantAccess
  | _, _ => .ok map

/-- Registers of consecutive instructions with the positions they are touched at. -/
def touchesFrom : ℕ → List Instr → List (VReg × ℕ)
  | _, [] => []
  | pos, i :: is => i.vregs.map (fun v => (v, pos % 2 ^ 32)) ++ touchesFrom (pos + 1) is

/-- All that a block touches, in order. -/
def touches (b : Block) : List (VReg × ℕ) :=
  touchesFrom 0 b.instrs ++ b.term.vregs.map fun v => (v, b.instrs.length % 2 ^ 32)

def touchAll (map : LivenessMap) (es : List (VReg × ℕ)) : LivenessMap :=
  es.foldl (fun m e => touch m e.1 e.2) map

theorem mem_touchesFrom {pos : ℕ} {is : List Instr} {v p : ℕ} :
    (v, p) ∈ touchesFrom pos is ↔
      ∃ j i, is[j]? = some i ∧ v ∈ i.vregs ∧ p = (pos + j) % 2 ^ 32 := by
  induction is generalizing pos with
  | nil => simp [touchesFrom]
  | cons i is ih =>
    rw [touchesFrom, List.mem_append, ih]
    constructor
    · rintro (h | ⟨j, i', hi', hv, hp⟩)
      · obtain ⟨w, hw, he⟩ := List.mem_map.mp h
        cases he
        exact ⟨0, i, rfl, hw, rfl⟩
      · exact ⟨j + 1, i', hi', hv, by rw [hp, Nat.add_assoc, Nat.add_comm 1]⟩
    · rintro ⟨j, i', hi', hv, hp⟩
      cases j with
      | zero =>
        cases hi'
        exact Or.inl (List.mem_map.mpr ⟨v, hv, by rw [hp]; rfl⟩)
      | succ j => exact Or.inr ⟨j, i', hi', hv, by rw [hp, Nat.add_assoc, Nat.add_comm 1]⟩

theorem touchInstrs_eq (map : LivenessMap) (pos : ℕ) (is : List Instr) :
    touchInstrs map (pos % 2 ^ 32) is =
      (touchAll map (touchesFrom pos is), (pos + is.length) % 2 ^ 32) := by
  induction is generalizing map pos with
  | nil => rfl
  | cons i is ih =>
    have hinstr : touchInstr map (pos % 2 ^ 32) i =
        touchAll map (i.vregs.map fun v => (v, pos % 2 ^ 32)) := by
      rw [touchAll, List.foldl_map]
      rfl
    rw [touchInstrs, Nat.mod_add_mod, ih, hinstr, touchesFrom, touchAll, touchAll, touchAll,
      List.foldl_append, List.length_cons, Nat.add_assoc, Nat.add_comm 1]

/-- Terminators that name a register where their kind asks for one. -/
def Terminator.Complete (t : Terminator) : Prop :=
  match t.kind, t.data with
  | .CBr, .cbr .. | .BrIndirect, .brIndirect _ => True
  | .CBr, _ | .BrIndirect, _ => False
  | _, _ => True

theorem selectedTerm_complete (t : IR.Terminator) : (selectedTerm t).Complete := by
  obtain ⟨kind, data⟩ := t
  cases kind <;> cases data <;> trivial

/-- Selected blocks are analysed without a fault. -/
theorem analyze_eq {b : Block} (hb : b.term.Complete) :
    analyze b = .ok (touchAll ∅ (touches b)) := by
  have hloop := touchInstrs_eq ∅ 0 b.instrs
  rw [Nat.zero_mod, Nat.zero_add] at hloop
  unfold analyze touches
  rw [hloop, touchAll, touchAll, List.foldl_append]
  obtain ⟨pc, instrs, kind, data⟩ := b
  cases kind <;> cases data <;> first
    | rfl
    | exact hb.elim

/-- What a range says about the positions `ps`. -/
structure RangeOf (ps : ℕ → Prop) (lr : LiveRange) : Prop where
  start : ps lr.start
  last : ps lr.last
  upper : ∀ p, ps p → p ≤ lr.last
  lower : ∀ p, ps p → p = 0 ∨ lr.start ≤ p

theorem widen_unset (pos : ℕ) : (⟨0, 0⟩ : LiveRange).widen pos = ⟨pos, pos⟩ := by
  simp [LiveRange.widen]

theorem widen_set {lr : LiveRange} (h : lr.start ≤ lr.last) (h0 : lr.last ≠ 0) (pos : ℕ) :
    lr.widen pos = ⟨min lr.start pos, max lr.last pos⟩ := by
  have hne : ¬ (lr.start = 0 ∧ lr.last = 0) := fun hz => h0 hz.2
  simp only [LiveRange.widen, if_neg hne]
  by_cases h1 : pos < lr.start
  · have h2 : ¬ lr.last < pos := by omega
    simp only [if_pos h1, if_neg h2]
    rw [min_eq_right h1.le, max_eq_left (le_of_not_gt h2)]
  · simp only [if_neg h1]
    by_cases h2 : lr.last < pos
    · rw [if_pos h2, min_eq_left (le_of_not_gt h1), max_eq_right h2.le]
    · rw [if_neg h2, min_eq_left (le_of_not_gt h1), max_eq_left (le_of_not_gt h2)]

theorem RangeOf.single (pos : ℕ) : RangeOf (· = pos) ((⟨0, 0⟩ : LiveRange).widen pos) := by
  rw [widen_unset]
  exact ⟨rfl, rfl, fun p hp => le_of_eq hp, fun p hp => Or.inr (le_of_eq hp.symm)⟩

/-- A further position: an unset range is at position 0 only, so nothing but that is lost. -/
theorem RangeOf.widen {ps : ℕ → Prop} {lr : LiveRange} (h : RangeOf ps lr) (pos : ℕ) :
    RangeOf (fun p => ps p ∨ p = pos) (lr.widen pos) := by
  have hsl : lr.start ≤ lr.last := h.upper _ h.start
  by_cases h0 : lr.last = 0
  · have hlr : lr = ⟨0, 0⟩ := by
      obtain ⟨s, l⟩ := lr
      simp only [LiveRange.mk.injEq] at h0 hsl ⊢
      omega
    have hzero : ∀ p, ps p → p = 0 := fun p hp => by
      have hle := h.upper p hp
      omega
    rw [hlr, widen_unset]
    refine ⟨Or.inr rfl, Or.inr rfl, ?_, ?_⟩
    · rintro p (hp | rfl)
      · rw [hzero p hp]
        exact Nat.zero_le _
      · exact le_rfl
    · rintro p (hp | rfl)
      · exact Or.inl (hzero p hp)
      · exact Or.inr le_rfl
  · rw [widen_set hsl h0]
    refine ⟨?_, ?_, ?_, ?_⟩
    · rcases min_choice lr.start pos with hm | hm <;> rw [hm]
      · exact Or.inl h.start
      · exact Or.inr rfl
    · rcases max_choice lr.last pos with hm | hm <;> rw [hm]
      · exact Or.inl h.last
      · exact Or.inr rfl
    · rintro p (hp | rfl)
      · exact le_max_of_le_left (h.upper p hp)
      · exact le_max_right ..
    · rintro p (hp | rfl)
      · exact (h.lower p hp).imp_right fun hle => min_le_of_left_le hle
      · exact Or.inr (min_le_right ..)

theorem RangeOf.congr {ps qs : ℕ → Prop} {lr : LiveRange} (h : RangeOf ps lr)
    (hpq : ∀ p, ps p ↔ qs p) : RangeOf qs lr := by
  have he : ps = qs := funext fun p => propext (hpq p)
  exact he ▸ h

/-- The map holds exactly the registers that are touched, each with the range of its
positions. -/
theorem lookup_touchAll (es : List (VReg × ℕ)) (v : VReg) :
    (∀ lr, (touchAll ∅ es).lookup v = some lr → RangeOf (fun p => (v, p) ∈ es) lr) ∧
      ((touchAll ∅ es).lookup v = none → ∀ p, (v, p) ∉ es) := by
  induction es using List.reverseRecOn with
  | nil => simp [touchAll]
  | append_singleton es e ih =>
    obtain ⟨w, pos⟩ := e
    have hfold : touchAll ∅ (es ++ [(w, pos)]) = touch (touchAll ∅ es) w pos := by
      rw [touchAll, List.foldl_append]
      rfl
    rw [hfold, touch]
    by_cases hvw : v = w
    · subst hvw
      rw [AList.lookup_insert]
      refine ⟨fun lr hlr => ?_, fun hnone => by cases hnone⟩
      cases hlr
      cases hl : (touchAll ∅ es).lookup v with
      | none =>
        refine (RangeOf.single pos).congr fun p => ?_
        simp [ih.2 hl p]
      | some lr =>
        refine ((ih.1 lr hl).widen pos).congr fun p => ?_
        simp
    · rw [AList.lookup_insert_ne hvw]
      simpa [hvw] using ih

/-- When positions are touched in ascending order, a range that starts at 0 is unset. -/
theorem start_unset {es : List (VReg × ℕ)} (hs : es.Pairwise fun e e' => e.2 ≤ e'.2)
    {v : VReg} {lr : LiveRange} (h : (touchAll ∅ es).lookup v = some lr) (h0 : lr.start = 0) :
    lr.last = 0 := by
  induction es using List.reverseRecOn generalizing lr with
  | nil => simp [touchAll] at h
  | append_singleton es e ih =>
    obtain ⟨w, pos⟩ := e
    obtain ⟨hes, -, hpos⟩ := List.pairwise_append.mp hs
    rw [touchAll, List.foldl_append] at h
    change (touch (touchAll ∅ es) w pos).lookup v = some lr at h
    rw [touch] at h
    by_cases hvw : v = w
    · subst hvw
      rw [AList.lookup_insert] at h
      cases hl : (touchAll ∅ es).lookup v with
      | none =>
        rw [hl, Option.getD_none, widen_unset] at h
        cases h
        exact h0
      | some lr' =>
        have hr := (lookup_touchAll es v).1 lr' hl
        have hle : lr'.last ≤ pos := hpos _ hr.last _ (List.mem_singleton_self _)
        rw [hl, Option.getD_some] at h
        by_cases hz : lr'.last = 0
        · have hlr : lr' = ⟨0, 0⟩ := by
            have hsl := hr.upper _ hr.start
            obtain ⟨s, l⟩ := lr'
            simp only [LiveRange.mk.injEq] at hz hsl ⊢
            omega
          rw [hlr, widen_unset] at h
          cases h
          exact h0
        · rw [widen_set (hr.upper _ hr.start) hz] at h
          cases h
          have hs0 : lr'.start = 0 := by
            simp only at h0
            omega
          exact absurd (ih hes hl hs0) hz
    · rw [AList.lookup_insert_ne hvw] at h
      exact ih hes h h0

end Riscy.AArch64
