import Riscy.AArch64LineNames
import Riscy.AArch64Emitter

/-! What a block computes when its registers are the physical ones of an assignment. The
first register of a block is in use from position 0 on, whatever its range says; if others
share its place in that time, the block computes what it computes with these registers
merged into the first one. -/
namespace Riscy.AArch64

section Map
variable {ρ σ τ : Type}

theorem Line.reads_map (f : ρ → σ) (l : Line ρ) : (l.map f).reads = l.reads.map f := by
  cases l <;> rfl

theorem Line.dest_map (f : ρ → σ) (l : Line ρ) : (l.map f).dest = l.dest.map f := by
  cases l <;> rfl

theorem Line.base_map (f : ρ → σ) (l : Line ρ) : (l.map f).base = l.base.map f := by
  cases l <;> rfl

theorem Line.map_map (f : ρ → σ) (g : σ → τ) (l : Line ρ) : (l.map f).map g = l.map (g ∘ f) := by
  cases l <;> rfl

theorem Line.occurs_map {f : ρ → σ} {l : Line ρ} {n : σ} (h : (l.map f).Occurs n) :
    ∃ m, l.Occurs m ∧ n = f m := by
  rcases h with h | h
  · rw [Line.reads_map] at h
    obtain ⟨m, hm, rfl⟩ := List.mem_map.mp h
    exact ⟨m, Or.inl hm, rfl⟩
  · rw [Line.dest_map, Option.map_eq_some_iff] at h
    obtain ⟨m, hm, rfl⟩ := h
    exact ⟨m, Or.inr hm, rfl⟩

end Map

/-- A block whose instructions are the lines `ls`. -/
structure Lines (b : Block) (ls : List (Line VName)) : Prop where
  body : List.Forall₂ Matches b.instrs ls
  defined : DefinedFrom (fun _ => False) (ls ++ termLines b.term)
  first : ∀ i v, b.instrs[0]? = some i → v ∈ i.vregs → v = 1
  short : b.instrs.length < 2 ^ 32

section Positions
variable {b : Block} {ls : List (Line VName)}

theorem termLines_occurs {t : Terminator} {l : Line VName} (hl : l ∈ termLines t) :
    (∀ v, l.Occurs (.virt v) ↔ v ∈ t.vregs) ∧ (∀ p, .phys p ∉ l.reads) ∧
      ∀ n, l.dest = some n → n = .phys 1 := by
  obtain ⟨kind, data⟩ := t
  cases kind <;> cases data <;>
    simp only [termLines, List.mem_singleton, List.not_mem_nil] at hl
  · rw [hl]
    simp [Line.Occurs, Line.reads, Line.dest, Terminator.vregs]
  · rw [hl]
    simp [Line.Occurs, Line.reads, Line.dest, Terminator.vregs, eq_comm]

theorem termLines_length (t : Terminator) : (termLines t).length = t.vregs.length := by
  obtain ⟨kind, data⟩ := t
  cases kind <;> cases data <;> rfl

/-- A line of the block is that of an instruction, or the one of the terminator. -/
theorem Lines.get (h : Lines b ls) {j : ℕ} {l : Line VName}
    (hj : (ls ++ termLines b.term)[j]? = some l) :
    (∃ i, b.instrs[j]? = some i ∧ Matches i l) ∨ j = b.instrs.length ∧ l ∈ termLines b.term := by
  have hlen : b.instrs.length = ls.length := h.body.length_eq
  rcases Nat.lt_or_ge j ls.length with hlt | hge
  · left
    rw [List.getElem?_append_left hlt] at hj
    have hjb : j < b.instrs.length := by omega
    have hi : b.instrs[j]? = some b.instrs[j] := List.getElem?_eq_getElem hjb
    refine ⟨_, hi, ?_⟩
    have hl := (List.getElem?_eq_some_iff.mp hj).2
    rw [← hl]
    exact h.body.get (by omega) hlt
  · right
    rw [List.getElem?_append_right hge] at hj
    have hone := Terminator.vregs_length b.term
    rw [← termLines_length] at hone
    have hlt := (List.getElem?_eq_some_iff.mp hj).1
    exact ⟨by omega, List.mem_of_getElem? hj⟩

/-- Registers occur where liveness touches them. -/
theorem Lines.touched (h : Lines b ls) {j : ℕ} {l : Line VName} {v : VReg}
    (hj : (ls ++ termLines b.term)[j]? = some l) (hv : l.Occurs (.virt v)) :
    (v, j) ∈ touches b := by
  have hshort := h.short
  rcases h.get hj with ⟨i, hi, hm⟩ | ⟨rfl, hl⟩
  · refine List.mem_append_left _ (mem_touchesFrom.mpr ⟨j, i, hi, (hm.vregs v).mp hv, ?_⟩)
    have hlt := (List.getElem?_eq_some_iff.mp hi).1
    rw [Nat.zero_add, Nat.mod_eq_of_lt (by omega)]
  · refine List.mem_append_right _ (List.mem_map.mpr ⟨v, ((termLines_occurs hl).1 v).mp hv, ?_⟩)
    rw [Nat.mod_eq_of_lt hshort]

/-- Only the first register occurs at position 0. -/
theorem Lines.occurs_zero (h : Lines b ls) {l : Line VName} {v : VReg}
    (hj : (ls ++ termLines b.term)[0]? = some l) (hv : l.Occurs (.virt v)) : v = 1 := by
  rcases h.get hj with ⟨i, hi, hm⟩ | ⟨-, hl⟩
  · exact h.first i v hi ((hm.vregs v).mp hv)
  · rcases hv with hr | hd
    · rcases h.defined.get hj hr with hf | ⟨k, hk, -⟩
      · exact hf.elim
      · exact absurd hk (Nat.not_lt_zero k)
    · cases (termLines_occurs hl).2.2 _ hd

/-- The range of a register covers its positions, except for position 0. -/
theorem Lines.range (h : Lines b ls) {j : ℕ} {l : Line VName} {v : VReg}
    (hj : (ls ++ termLines b.term)[j]? = some l) (hv : l.Occurs (.virt v)) :
    ∃ lr, (touchAll ∅ (touches b)).lookup v = some lr ∧ j ≤ lr.last ∧ (j = 0 ∨ lr.start ≤ j) := by
  have ht := h.touched hj hv
  cases hl : (touchAll ∅ (touches b)).lookup v with
  | none => exact absurd ht ((lookup_touchAll _ v).2 hl j)
  | some lr =>
    have hr := (lookup_touchAll _ v).1 lr hl
    exact ⟨lr, rfl, hr.upper j ht, hr.lower j ht⟩

/-- A host register in a line is the state pointer, the memory base, or the argument
register that the terminator writes at the end. -/
theorem Lines.phys (h : Lines b ls) {j : ℕ} {l : Line VName} {p : PReg}
    (hj : (ls ++ termLines b.term)[j]? = some l) (hp : l.Occurs (.phys p)) :
    p = 0 ∨ p = 21 ∨ p = 1 ∧ j = b.instrs.length := by
  rcases h.get hj with ⟨i, hi, hm⟩ | ⟨hlen, hl⟩
  · rcases hp with hr | hd
    · exact (hm.reads p hr).imp_right Or.inl
    · exact absurd hd (hm.dest p)
  · rcases hp with hr | hd
    · exact absurd hr ((termLines_occurs hl).2.1 p)
    · exact Or.inr (Or.inr ⟨VName.phys.inj ((termLines_occurs hl).2.2 _ hd), hlen⟩)

end Positions

section Merge

/-- The registers of `K` go by the name of the first one. -/
def merged (K : List VReg) : VName → VName
  | .virt v => if v ∈ K then .virt 1 else .virt v
  | .phys p => .phys p

/-- The registers of `K` have one place, which no other register takes before `M`, where
all their ranges have ended. -/
structure MergedBy (live : LivenessMap) (asg : RegAssignment) (K : List VReg) (M : ℕ) : Prop where
  one : 1 ∈ K
  same : ∀ u ∈ K, asg u = asg 1
  last : ∀ u ∈ K, ∀ lr, live.lookup u = some lr → lr.last ≤ M
  apart : ∀ w lr, w ∉ K → live.lookup w = some lr → asg w = asg 1 → M ≤ lr.start

variable {live : LivenessMap} {asg : RegAssignment} {K : List VReg} {M : ℕ}

theorem MergedBy.names_comp (h : MergedBy live asg K M) : names asg ∘ merged K = names asg := by
  funext n
  cases n with
  | phys p => rfl
  | virt v =>
    change names asg (if v ∈ K then .virt 1 else .virt v) = _
    split_ifs with hv
    · change (asg 1).getD 0 = (asg v).getD 0
      rw [h.same v hv]
    · rfl

def firstOf (live : LivenessMap) (L : ℕ) : VName → ℕ
  | .virt v => if v = 1 then 0 else ((live.lookup v).getD ⟨0, 0⟩).start
  | .phys _ => L

def lastOf (live : LivenessMap) (M L : ℕ) : VName → ℕ
  | .virt v => if v = 1 then M else ((live.lookup v).getD ⟨0, 0⟩).last
  | .phys _ => L + 1

/-- The instructions of a block with merged registers. -/
def mergedInstrs (K : List VReg) (ls : List (Line VName)) :
    List (Renaming.Instr VName (BitVec 64) Rest) :=
  (ls.map (Line.map (merged K))).map (Line.toInstr (.phys 0))

theorem mergedInstrs_get {ls : List (Line VName)} {j : ℕ}
    {i : Renaming.Instr VName (BitVec 64) Rest} (h : (mergedInstrs K ls)[j]? = some i) :
    ∃ l, ls[j]? = some l ∧ i = (l.map (merged K)).toInstr (.phys 0) := by
  unfold mergedInstrs at h
  rw [List.getElem?_map, List.getElem?_map, Option.map_map, Option.map_eq_some_iff] at h
  obtain ⟨l, hl, rfl⟩ := h
  exact ⟨l, hl, rfl⟩

theorem initialPool_free {p : PReg} (h : p ∈ initialPool) : p ≠ 0 ∧ p ≠ 1 ∧ p ≠ 21 := by
  refine ⟨?_, ?_, ?_⟩ <;> rintro rfl <;> revert h <;> decide

variable {b : Block} {ls : List (Line VName)} {items : List Item}

theorem ItemOrder.named (ho : ItemOrder live items) (ha : allocate items = .ok asg) {v : VReg}
    {lr : LiveRange} (hv : live.lookup v = some lr) :
    asg v = some (names asg (.virt v)) ∧ names asg (.virt v) ∈ initialPool := by
  obtain ⟨p, hp, hvp⟩ := (ho.allocated ha).1 v lr hv
  have hn : names asg (.virt v) = p := by
    change (asg v).getD 0 = p
    rw [hvp]
    rfl
  rw [hn]
  exact ⟨hvp, hp⟩

/-- Names of merged lines: host registers, the first register for those of `K`, and the
others. -/
inductive MergedName (live : LivenessMap) (K : List VReg) (L j : ℕ) : VName → Prop
  | host {p : PReg} (h : p = 0 ∨ p = 21) : MergedName live K L j (.phys p)
  | arg (h : j = L) : MergedName live K L j (.phys 1)
  | first {u : VReg} {lr : LiveRange} (hu : u ∈ K) (hl : live.lookup u = some lr)
    (hj : j ≤ lr.last) : MergedName live K L j (.virt 1)
  | other {v : VReg} {lr : LiveRange} (hv : v ∉ K) (hl : live.lookup v = some lr)
    (hj : lr.start ≤ j ∧ j ≤ lr.last) : MergedName live K L j (.virt v)

theorem Lines.mergedName (h : Lines b ls) (hone : 1 ∈ K) {j : ℕ}
    {i : Renaming.Instr VName (BitVec 64) Rest} {n : VName}
    (hi : (mergedInstrs K (ls ++ termLines b.term))[j]? = some i) (hn : i.Occurs n) :
    MergedName (touchAll ∅ (touches b)) K b.instrs.length j n := by
  obtain ⟨l, hj, rfl⟩ := mergedInstrs_get hi
  obtain ⟨m, hm, rfl⟩ := Line.occurs_map hn
  cases m with
  | phys p =>
    rcases h.phys hj hm with hp | hp | ⟨rfl, hlen⟩
    · exact .host (Or.inl hp)
    · exact .host (Or.inr hp)
    · exact .arg hlen
  | virt v =>
    obtain ⟨lr, hl, hlast, hstart⟩ := h.range hj hm
    change MergedName _ K _ j (if v ∈ K then .virt 1 else .virt v)
    split_ifs with hv
    · exact .first hv hl hlast
    · refine .other hv hl ⟨?_, hlast⟩
      rcases hstart with rfl | hstart
      · exact absurd ((h.occurs_zero hj hm) ▸ hone) hv
      · exact hstart

theorem firstOf_other {v : VReg} {lr : LiveRange} {L : ℕ} (hv : v ≠ 1)
    (hl : live.lookup v = some lr) : firstOf live L (.virt v) = lr.start := by
  simp [firstOf, hv, hl]

theorem lastOf_other {v : VReg} {lr : LiveRange} {L : ℕ} (hv : v ≠ 1)
    (hl : live.lookup v = some lr) : lastOf live M L (.virt v) = lr.last := by
  simp [lastOf, hv, hl]

/-- The place of a name that is no global one. -/
theorem MergedName.place (hm : MergedBy live asg K M) (ho : ItemOrder live items)
    (ha : allocate items = .ok asg) {L j : ℕ} {n : VName} (hn : MergedName live K L j n)
    (hg : ¬ (n = .phys 0 ∨ n = .phys 21)) :
    n = .phys 1 ∨ ∃ v, n = .virt v ∧ asg v = some (names asg n) ∧ names asg n ∈ initialPool := by
  cases hn with
  | host hp => exact (hg (hp.imp (congrArg _) (congrArg _))).elim
  | arg => exact Or.inl rfl
  | @first u lr hu hl hj =>
    have hsame := hm.same u hu
    have hu := ho.named ha hl
    have hname : names asg (.virt 1) = names asg (.virt u) := by
      change (asg 1).getD 0 = (asg u).getD 0
      rw [hsame]
    refine Or.inr ⟨1, rfl, ?_, hname ▸ hu.2⟩
    rw [← hsame, hu.1, hname]
  | @other v lr hv hl hj => exact Or.inr ⟨v, rfl, ho.named ha hl⟩

/-- The merged block keeps the names of one place apart. -/
theorem MergedBy.names_apart (hm : MergedBy live asg K M) (ho : ItemOrder live items)
    (ha : allocate items = .ok asg) {L j j' : ℕ} {n n' : VName}
    (hn : MergedName live K L j n) (hn' : MergedName live K L j' n')
    (hg : ¬ (n = .phys 0 ∨ n = .phys 21)) (hg' : ¬ (n' = .phys 0 ∨ n' = .phys 21))
    (hne : n ≠ n') (heq : names asg n = names asg n') :
    lastOf live M L n ≤ firstOf live L n' ∨ lastOf live M L n' ≤ firstOf live L n := by
  have hone : ∀ {v}, v ∉ K → v ≠ 1 := fun hv h1 => hv (h1 ▸ hm.one)
  have hvirt : ∀ {v w : VReg}, asg v = some (names asg (.virt v)) →
      asg w = some (names asg (.virt w)) →
      names asg (.virt v) = names asg (.virt w) → asg v = asg w := by
    intro v w hv hw h
    rw [hv, hw, h]
  rcases hn.place hm ho ha hg with rfl | ⟨v, rfl, hv, hvp⟩ <;>
    rcases hn'.place hm ho ha hg' with rfl | ⟨w, rfl, hw, hwp⟩
  · exact absurd rfl hne
  · exact absurd heq.symm (initialPool_free hwp).2.1
  · exact absurd heq (initialPool_free hvp).2.1
  have hvw := hvirt hv hw heq
  cases hn with
  | first hu hl hj =>
    cases hn' with
    | first => exact absurd rfl hne
    | @other _ lr' hwK hl' hj' =>
      left
      rw [firstOf_other (hone hwK) hl']
      exact hm.apart w lr' hwK hl' hvw.symm
  | @other _ lr hvK hl hj =>
    cases hn' with
    | first =>
      right
      rw [firstOf_other (hone hvK) hl]
      exact hm.apart v lr hvK hl hvw
    | @other _ lr' hwK hl' hj' =>
      rw [firstOf_other (hone hvK) hl, firstOf_other (hone hwK) hl', lastOf_other (hone hvK) hl,
        lastOf_other (hone hwK) hl']
      exact (ho.allocated ha).2 v lr w lr' hl hl' (fun h => hne (congrArg _ h)) hvw

/-- An assignment as an allocation of the merged block. -/
def MergedBy.allocation (h : Lines b ls) (hm : MergedBy (touchAll ∅ (touches b)) asg K M)
    (ho : ItemOrder (touchAll ∅ (touches b)) items) (ha : allocate items = .ok asg) :
    Renaming.Allocation (mergedInstrs K (ls ++ termLines b.term)) (names asg) where
  glob n := n = .phys 0 ∨ n = .phys 21
  first := firstOf (touchAll ∅ (touches b)) b.instrs.length
  last := lastOf (touchAll ∅ (touches b)) M b.instrs.length
  within j i n hi hn hg := by
    have hone : ∀ {v}, v ∉ K → v ≠ 1 := fun hv h1 => hv (h1 ▸ hm.one)
    cases h.mergedName hm.one hi hn with
    | host hp => exact (hg (hp.imp (congrArg _) (congrArg _))).elim
    | arg hj => exact ⟨hj.ge, hj.le.trans (Nat.le_succ _)⟩
    | first hu hl hj => exact ⟨Nat.zero_le _, hj.trans (hm.last _ hu _ hl)⟩
    | other hv hl hj =>
      rw [firstOf_other (hone hv) hl, lastOf_other (hone hv) hl]
      exact hj
  defined j i n hi hn hg := by
    obtain ⟨l, hj, rfl⟩ := mergedInstrs_get hi
    have hread : n ∈ (l.map (merged K)).reads := hn
    rw [Line.reads_map] at hread
    obtain ⟨m, hr, rfl⟩ := List.mem_map.mp hread
    cases m with
    | phys p =>
      exfalso
      rcases h.phys hj (Or.inl hr) with hp | hp | ⟨rfl, hlen⟩
      · exact hg (Or.inl (congrArg _ hp))
      · exact hg (Or.inr (congrArg _ hp))
      · rcases h.get hj with ⟨i, hi, hmatch⟩ | ⟨-, hl⟩
        · rcases hmatch.reads 1 hr with h1 | h1 <;> exact absurd h1 (by decide)
        · exact (termLines_occurs hl).2.1 1 hr
    | virt v =>
      rcases h.defined.get hj hr with hf | ⟨k, hk, l', hl', hd⟩
      · exact hf.elim
      · refine ⟨k, hk, (l'.map (merged K)).toInstr (.phys 0), ?_, ?_⟩
        · rw [mergedInstrs, List.getElem?_map, List.getElem?_map, hl']
          rfl
        · change (l'.map (merged K)).dest = _
          rw [Line.dest_map, hd]
          rfl
  apart n n' hn hn' hg hg' hne heq := by
    obtain ⟨i, hi, hocc⟩ := hn
    obtain ⟨i', hi', hocc'⟩ := hn'
    obtain ⟨j, hj⟩ := List.mem_iff_getElem?.mp hi
    obtain ⟨j', hj'⟩ := List.mem_iff_getElem?.mp hi'
    exact hm.names_apart ho ha (h.mergedName hm.one hj hocc) (h.mergedName hm.one hj' hocc') hg hg'
      hne heq
  glob_apart g n hg hw hne := by
    obtain ⟨i, hi, hd⟩ := hw
    obtain ⟨j, hj⟩ := List.mem_iff_getElem?.mp hi
    have hn := h.mergedName hm.one hj (Or.inr hd)
    by_cases hng : n = .phys 0 ∨ n = .phys 21
    · rcases hg with rfl | rfl <;> rcases hng with rfl | rfl <;>
        simp_all [names]
    · rcases hn.place hm ho ha hng with rfl | ⟨v, rfl, -, hp⟩
      · rcases hg with rfl | rfl <;> simp [names]
      · rcases hg with rfl | rfl
        · exact (initialPool_free hp).1
        · exact (initialPool_free hp).2.2

end Merge

section Outcome
variable {ρ σ : Type} [DecidableEq ρ] [DecidableEq σ]

/-- What a block leaves for the guest: the struct, the memory, and the exit that it takes. -/
def AsmBlock.outcome (x0 x1 : ρ) (b : AsmBlock ρ) (s : Host ρ) :
    Option ((ℕ → BitVec 64) × ByteMemory.Memory 64 × Exit) :=
  (b.run x0 x1 s).map fun out => (out.1.words, out.1.mem, out.2)

omit [DecidableEq ρ] [DecidableEq σ] in
theorem exitOf_congr {x : ρ} {y : σ} {s : Host ρ} {s' : Host σ} {js : List Jump}
    (hf : s.flags = s'.flags) (hx : .bl ∈ js → s.r x = s'.r y) :
    exitOf x s js = exitOf y s' js := by
  induction js with
  | nil => rfl
  | cons j js ih =>
    have ih' := ih fun h => hx (List.mem_cons_of_mem _ h)
    cases j with
    | bne t => simp only [exitOf, hf, ih']
    | bl => simp only [exitOf, hx (List.mem_cons_self ..)]
    | _ => rfl

theorem run_prologue {x0 : ρ} {d : ρ} {q : ρ → BitVec 64} {t : Rest} (h : q x0 = t.addr)
    (ls : List (Line ρ)) : runLines x0 (.ldr .x d x0 256 :: ls) (t.host q) =
      runLines x0 ls (t.host (Function.update q d (t.words 32))) := by
  have hx0 : (t.host q).r x0 = (t.host q).addr := h
  rw [runLines_cons, Line.exec, if_pos rfl, if_pos ⟨hx0, rfl⟩]
  rfl

theorem termJumps_bl {t : Terminator} (h : .bl ∈ termJumps t) :
    ∃ v, termLines t = [.mov (.phys 1) (.virt v)] := by
  obtain ⟨kind, data⟩ := t
  cases kind <;> cases data <;> simp [termJumps] at h
  exact ⟨_, rfl⟩

end Outcome

/-- A block with the registers of `K` merged. -/
def mergedBlock (K : List VReg) (b : AsmBlock VName) : AsmBlock VName :=
  { b with lines := b.lines.map (Line.map (merged K)) }

section Run
variable {asg : RegAssignment} {K : List VReg} {M : ℕ} {b : Block} {ls : List (Line VName)}
  {items : List Item}

/-- The lines under an assignment are the merged lines under it. -/
theorem MergedBy.lines (hm : MergedBy (touchAll ∅ (touches b)) asg K M) :
    ls.map (Line.map (names asg)) = (ls.map (Line.map (merged K))).map (Line.map (names asg)) := by
  rw [List.map_map]
  congr 1
  funext l
  rw [Function.comp_apply, Line.map_map, hm.names_comp]

/-- No register is given the place of the state pointer. -/
theorem MergedBy.base (h : Lines b ls) (hm : MergedBy (touchAll ∅ (touches b)) asg K M)
    (ho : ItemOrder (touchAll ∅ (touches b)) items) (ha : allocate items = .ok asg)
    {l : Line VName} (hl : l ∈ (ls ++ termLines b.term).map (Line.map (merged K))) {n : VName}
    (hn : l.base = some n) (hx : names asg n = names asg (.phys 0)) : n = .phys 0 := by
  have hmem : l.toInstr (.phys 0) ∈ mergedInstrs K (ls ++ termLines b.term) :=
    List.mem_map_of_mem hl
  obtain ⟨j, hj⟩ := List.mem_iff_getElem?.mp hmem
  have hname := h.mergedName hm.one hj (Or.inl (Line.base_reads hn))
  by_cases hg : n = .phys 0 ∨ n = .phys 21
  · rcases hg with rfl | rfl
    · rfl
    · exact absurd hx (by simp [names])
  · rcases hname.place hm ho ha hg with rfl | ⟨v, rfl, -, hp⟩
    · exact absurd hx (by simp [names])
    · exact absurd hx (initialPool_free hp).1

variable {t : Rest} {q : PReg → BitVec 64} {r : VName → BitVec 64}

theorem MergedBy.phys_run (h : Lines b ls) (hm : MergedBy (touchAll ∅ (touches b)) asg K M)
    (ho : ItemOrder (touchAll ∅ (touches b)) items) (ha : allocate items = .ok asg)
    (hq : q 0 = t.addr) :
    runLines 0 ((prologue .phys :: (ls ++ termLines b.term)).map (Line.map (names asg)))
        (t.host q) =
      (Renaming.run (names asg) (mergedInstrs K (ls ++ termLines b.term))
        (Function.update q 21 (t.words 32), t)).map fun c => c.2.host c.1 := by
  rw [List.map_cons, hm.lines]
  refine (run_prologue (d := 21) hq _).trans ?_
  exact runLines_map (.phys 0) (names asg) _ (fun l hl n hn hx => hm.base h ho ha hl hn hx) _ t

theorem merged_run {ls : List (Line VName)} (hr : r (.phys 0) = t.addr) :
    runLines (.phys 0) ((prologue .phys :: ls).map (Line.map (merged K))) (t.host r) =
      (Renaming.run id (mergedInstrs K ls)
        (Function.update r (.phys 21) (t.words 32), t)).map fun c => c.2.host c.1 := by
  have hid : (Line.map id : Line VName → Line VName) = id := funext Line.map_id
  rw [List.map_cons]
  refine (run_prologue (d := .phys 21) hr _).trans ?_
  have hrun := runLines_map (.phys 0) (id : VName → VName) (ls.map (Line.map (merged K)))
    (fun _ _ _ _ hx => by exact hx) (Function.update r (.phys 21) (t.words 32)) t
  rwa [hid, List.map_id] at hrun

/-- The argument of an indirect jump is the same. -/
theorem MergedBy.arg_eq (h : Lines b ls) (hm : MergedBy (touchAll ∅ (touches b)) asg K M)
    (ho : ItemOrder (touchAll ∅ (touches b)) items) (ha : allocate items = .ok asg)
    (hagree : Renaming.Agree (hm.allocation h ho ha)
      (mergedInstrs K (ls ++ termLines b.term)).length r q) (hbl : .bl ∈ termJumps b.term) :
    q 1 = r (.phys 1) := by
  obtain ⟨v, hv⟩ := termJumps_bl hbl
  have hlen : (mergedInstrs K (ls ++ termLines b.term)).length = b.instrs.length + 1 := by
    rw [mergedInstrs, List.length_map, List.length_map, List.length_append, hv, h.body.length_eq]
    rfl
  refine hagree.names (.phys 1) (by rintro (h1 | h1) <;> cases h1) ?_ hlen.le
  refine ⟨ls.length, ?_, (Line.mov (.phys 1) (merged K (.virt v))).toInstr (.phys 0), ?_, rfl⟩
  · rw [hlen, h.body.length_eq]
    exact Nat.lt_succ_self _
  · rw [mergedInstrs, List.getElem?_map, List.getElem?_map, List.getElem?_append_right le_rfl, hv,
      Nat.sub_self]
    rfl

/-- Under an assignment the block ends as the merged block does. -/
theorem MergedBy.outcome_eq (h : Lines b ls) (hm : MergedBy (touchAll ∅ (touches b)) asg K M)
    (ho : ItemOrder (touchAll ∅ (touches b)) items) (ha : allocate items = .ok asg)
    (label : String) (hq : q 0 = t.addr) (hr : r (.phys 0) = t.addr) :
    (AsmBlock.mk label ((prologue .phys :: (ls ++ termLines b.term)).map (Line.map (names asg)))
        (termJumps b.term)).outcome 0 1 (t.host q) =
      (mergedBlock K ⟨label, prologue .phys :: (ls ++ termLines b.term),
        termJumps b.term⟩).outcome (.phys 0) (.phys 1) (t.host r) := by
  obtain ⟨a, ha'⟩ : ∃ a, a = hm.allocation h ho ha := ⟨_, rfl⟩
  have hglob : ∀ g, a.glob g → Function.update q 21 (t.words 32) (names asg g) =
      Function.update r (.phys 21) (t.words 32) g := by
    rw [ha']
    rintro g (rfl | rfl)
    · change q 0 = r (.phys 0)
      rw [hq, hr]
    · rfl
  have hrel := Renaming.run_rel a hglob t
  unfold AsmBlock.outcome AsmBlock.run mergedBlock
  simp only [hm.phys_run h ho ha hq, merged_run hr]
  generalize Renaming.run id (mergedInstrs K (ls ++ termLines b.term)) _ = x at hrel
  generalize Renaming.run (names asg) (mergedInstrs K (ls ++ termLines b.term)) _ = y at hrel
  cases hrel with
  | none => rfl
  | @some c c' hc =>
    obtain ⟨cr, cs⟩ := c
    obtain ⟨cr', cs'⟩ := c'
    obtain ⟨rfl, hagree⟩ := hc
    have hexit : exitOf 1 (cs.host cr') (termJumps b.term) =
        exitOf (.phys 1) (cs.host cr) (termJumps b.term) :=
      exitOf_congr rfl fun hbl => hm.arg_eq h ho ha (ha' ▸ hagree) hbl
    change ((exitOf 1 (cs.host cr') (termJumps b.term)).bind _).map _ =
      ((exitOf (.phys 1) (cs.host cr) (termJumps b.term)).bind _).map _
    rw [hexit]
    cases exitOf (.phys 1) (cs.host cr) (termJumps b.term) <;> rfl

end Run

end Riscy.AArch64
