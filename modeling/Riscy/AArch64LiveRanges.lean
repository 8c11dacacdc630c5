import Riscy.AArch64Liveness

/-! The ranges of `Liveness::analyze` against the positions at which registers occur. A
range that starts at position 0 counts as unset as long as it also ends there, so that
position 0 is forgotten at the next occurrence. -/
namespace Riscy.AArch64

section Positions
variable {b : Block} {v : VReg} {p q : ℕ}

/-- Register `v` occurs in instruction `p`, or in the terminator, which comes behind the
last instruction. -/
def Block.OccursAt (b : Block) (v : VReg) (p : ℕ) : Prop :=
  (∃ i, b.instrs[p]? = some i ∧ v ∈ i.vregs) ∨ p = b.instrs.length ∧ v ∈ b.term.vregs

theorem Block.OccursAt.le (h : b.OccursAt v p) : p ≤ b.instrs.length := by
  rcases h with ⟨i, hi, -⟩ | ⟨rfl, -⟩
  · exact (List.getElem?_eq_some_iff.mp hi).1.le
  · exact le_rfl

theorem mem_touches_mod :
    (v, q) ∈ touches b ↔ ∃ p, b.OccursAt v p ∧ q = p % 2 ^ 32 := by
  unfold touches
  rw [List.mem_append, mem_touchesFrom]
  constructor
  · rintro (⟨j, i, hj, hv, rfl⟩ | h)
    · exact ⟨j, Or.inl ⟨i, hj, hv⟩, by rw [Nat.zero_add]⟩
    · obtain ⟨w, hw, he⟩ := List.mem_map.mp h
      cases he
      exact ⟨_, Or.inr ⟨rfl, hw⟩, rfl⟩
  · rintro ⟨p, ⟨i, hi, hv⟩ | ⟨rfl, hv⟩, rfl⟩
    · exact Or.inl ⟨p, i, hi, hv, by rw [Nat.zero_add]⟩
    · exact Or.inr (List.mem_map.mpr ⟨v, hv, rfl⟩)

/-- All registers occur at positions that are 32-bit numbers. -/
def Block.InRange (b : Block) : Prop := ∀ v p, b.OccursAt v p → p < 2 ^ 32

theorem Block.inRange_of_short (h : b.instrs.length < 2 ^ 32) : b.InRange :=
  fun _ _ hp => hp.le.trans_lt h

theorem mem_touches_iff (h : b.InRange) : (v, p) ∈ touches b ↔ b.OccursAt v p := by
  rw [mem_touches_mod]
  constructor
  · rintro ⟨j, hj, rfl⟩
    rwa [Nat.mod_eq_of_lt (h v j hj)]
  · intro hp
    exact ⟨p, hp, (Nat.mod_eq_of_lt (h v p hp)).symm⟩

/-- Instructions without registers may stand anywhere. -/
theorem touchesFrom_sorted {pos : ℕ} {is : List Instr}
    (h : ∀ j i, is[j]? = some i → i.vregs ≠ [] → pos + j < 2 ^ 32) :
    (touchesFrom pos is).Pairwise (fun e e' => e.2 ≤ e'.2) ∧
      ∀ e ∈ touchesFrom pos is, pos ≤ e.2 ∧ e.2 < pos + is.length := by
  induction is generalizing pos with
  | nil => exact ⟨.nil, fun e he => by cases he⟩
  | cons i is ih =>
    have htail : ∀ j i', is[j]? = some i' → i'.vregs ≠ [] → pos + 1 + j < 2 ^ 32 := by
      intro j i' hj hne
      have hlt := h (j + 1) i' hj hne
      omega
    obtain ⟨hs, hb⟩ := ih htail
    have hhead : ∀ e ∈ i.vregs.map fun v => (v, pos % 2 ^ 32), e.2 = pos := by
      intro e he
      obtain ⟨w, hw, rfl⟩ := List.mem_map.mp he
      exact Nat.mod_eq_of_lt (h 0 i rfl (List.ne_nil_of_mem hw))
    constructor
    · refine List.pairwise_append.mpr ⟨?_, hs, fun e he e' he' => ?_⟩
      · exact List.pairwise_of_forall_mem_list fun e he e' he' =>
          ((hhead e he).trans (hhead e' he').symm).le
      · have hle := (hb e' he').1
        rw [hhead e he]
        omega
    · intro e he
      rw [List.length_cons]
      rcases List.mem_append.mp he with he | he
      · have heq := hhead e he
        omega
      · have hlt := hb e he
        omega

theorem Terminator.vregs_length (t : Terminator) : t.vregs.length ≤ 1 := by
  obtain ⟨kind, data⟩ := t
  cases kind <;> cases data <;> simp [Terminator.vregs]

theorem touches_sorted (h : b.InRange) : (touches b).Pairwise fun e e' => e.2 ≤ e'.2 := by
  have hbody : ∀ j i, b.instrs[j]? = some i → i.vregs ≠ [] → 0 + j < 2 ^ 32 := by
    intro j i hj hne
    obtain ⟨v, hv⟩ := List.exists_mem_of_ne_nil _ hne
    have hlt := h v j (Or.inl ⟨i, hj, hv⟩)
    omega
  obtain ⟨hs, hb⟩ := touchesFrom_sorted hbody
  refine List.pairwise_append.mpr ⟨hs, ?_, fun e he e' he' => ?_⟩
  · have hone := Terminator.vregs_length b.term
    match b.term.vregs, hone with
    | [], _ => exact .nil
    | [w], _ => exact List.pairwise_singleton ..
  · have hlt := (hb e he).2
    obtain ⟨w, hw, rfl⟩ := List.mem_map.mp he'
    rw [Nat.mod_eq_of_lt (h w _ (Or.inr ⟨rfl, hw⟩))]
    omega

end Positions

section Exact
variable {b : Block} {live : LivenessMap} {v : VReg} {lr : LiveRange}

/-- The range from the first to the last occurrence of a register. -/
structure ExactRange (b : Block) (v : VReg) (lr : LiveRange) : Prop where
  start : IsLeast {p | b.OccursAt v p} lr.start
  last : IsGreatest {p | b.OccursAt v p} lr.last

/-- The map has exactly the registers that occur, each with its exact range. -/
def ExactRanges (b : Block) : Prop :=
  ∃ live, analyze b = .ok live ∧ ∀ v lr, live.lookup v = some lr ↔ ExactRange b v lr

/-- The terminator has the data of its kind, positions are 32-bit numbers, and what occurs in
the first instruction occurs nowhere else. -/
structure Recordable (b : Block) : Prop where
  complete : b.term.Complete
  inRange : b.InRange
  first : ∀ v p, b.OccursAt v 0 → b.OccursAt v p → p = 0

theorem ExactRange.unique {lr' : LiveRange} (h : ExactRange b v lr) (h' : ExactRange b v lr') :
    lr = lr' := by
  obtain ⟨s, l⟩ := lr
  obtain ⟨s', l'⟩ := lr'
  have hs : s = s' := h.start.unique h'.start
  have hl : l = l' := h.last.unique h'.last
  rw [hs, hl]

/-- Every register that occurs has an exact range. -/
theorem exists_exactRange {p : ℕ} (h : b.OccursAt v p) : ∃ lr, ExactRange b v lr := by
  have hne : {p | b.OccursAt v p}.Nonempty := ⟨p, h⟩
  have hbdd : BddAbove {p | b.OccursAt v p} := ⟨b.instrs.length, fun q hq => hq.le⟩
  exact ⟨⟨sInf {p | b.OccursAt v p}, sSup {p | b.OccursAt v p}⟩,
    ⟨Nat.sInf_mem hne, fun q hq => Nat.sInf_le hq⟩,
    ⟨Nat.sSup_mem hne hbdd, fun q hq => le_csSup hbdd hq⟩⟩

theorem complete_of_analyze (h : analyze b = .ok live) : b.term.Complete := by
  obtain ⟨pc, instrs, kind, data⟩ := b
  cases kind <;> cases data <;> trivial

/-- The range of a register that is touched lies within 32 bits and covers its positions. -/
theorem RangeOf.bounds (hr : RangeOf (fun p => (v, p) ∈ touches b) lr) :
    lr.start < 2 ^ 32 ∧ lr.last < 2 ^ 32 := by
  obtain ⟨p, -, hp⟩ := mem_touches_mod.mp hr.start
  obtain ⟨q, -, hq⟩ := mem_touches_mod.mp hr.last
  omega

theorem Recordable.exact (h : Recordable b) : ExactRanges b := by
  refine ⟨_, analyze_eq h.complete, fun v lr => ?_⟩
  have hmem : ∀ p, (v, p) ∈ touches b ↔ b.OccursAt v p := fun p => mem_touches_iff h.inRange
  have hexact : ∀ lr, (touchAll ∅ (touches b)).lookup v = some lr → ExactRange b v lr := by
    intro lr hl
    have hr := ((lookup_touchAll _ v).1 lr hl).congr hmem
    refine ⟨⟨hr.start, fun p hp => ?_⟩, hr.last, fun p hp => hr.upper p hp⟩
    rcases hr.lower p hp with rfl | hle
    · exact (h.first v _ hp hr.start).le
    · exact hle
  constructor
  · exact hexact lr
  · intro hlr
    cases hl : (touchAll ∅ (touches b)).lookup v with
    | none => exact absurd ((hmem _).mpr hlr.start.1) ((lookup_touchAll _ v).2 hl lr.start)
    | some lr' => rw [hlr.unique (hexact lr' hl)]

/-- An exact map leaves no position out, although it cannot record all of them. -/
theorem ExactRanges.recordable (h : ExactRanges b) : Recordable b := by
  obtain ⟨live, ha, hlive⟩ := h
  have hc := complete_of_analyze ha
  rw [analyze_eq hc] at ha
  cases ha
  have hrange : ∀ v p, b.OccursAt v p → ∃ lr, ExactRange b v lr ∧
      (touchAll ∅ (touches b)).lookup v = some lr ∧ RangeOf (fun p => (v, p) ∈ touches b) lr := by
    intro v p hp
    obtain ⟨lr, hlr⟩ := exists_exactRange hp
    have hl := (hlive v lr).mpr hlr
    exact ⟨lr, hlr, hl, (lookup_touchAll _ v).1 lr hl⟩
  have hin : b.InRange := by
    intro v p hp
    obtain ⟨lr, hlr, -, hr⟩ := hrange v p hp
    exact (hlr.last.2 hp).trans_lt hr.bounds.2
  refine ⟨hc, hin, fun v p h0 hp => ?_⟩
  obtain ⟨lr, hlr, hl, -⟩ := hrange v p hp
  have hstart : lr.start = 0 := Nat.le_zero.mp (hlr.start.2 h0)
  have hlast := start_unset (touches_sorted hin) hl hstart
  have hle : p ≤ lr.last := hlr.last.2 hp
  omega

/-- Live ranges are exact where position 0 is the only one of its registers. -/
theorem analyze_exact_iff (b : Block) : ExactRanges b ↔ Recordable b :=
  ⟨fun h => h.recordable, fun h => h.exact⟩

/-- A guest register is loaded and stored again. -/
def copyBlock : Block :=
  ⟨0, [⟨.LdrX, [.regV 1, .mem 0 8]⟩, ⟨.StrX, [.regV 1, .mem 0 16]⟩], ⟨.Ret, .monostate⟩⟩

/-- The range of register 1 is recorded as `{1, 1}`. -/
theorem copyBlock_not_exact : ¬ ExactRanges copyBlock := by
  intro h
  have h0 : copyBlock.OccursAt 1 0 := Or.inl ⟨_, rfl, List.mem_cons_self ..⟩
  have h1 : copyBlock.OccursAt 1 1 := Or.inl ⟨_, rfl, List.mem_cons_self ..⟩
  exact absurd (h.recordable.first 1 1 h0 h1) Nat.one_ne_zero

end Exact

end Riscy.AArch64
