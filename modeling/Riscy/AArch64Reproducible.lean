import Riscy.AArch64Preserved
import Riscy.AArch64Ties

/-! Whether allocation depends on the order of the registers. Every register starts where it
is defined, but the first one of a block where it is used, together with what the
instruction there defines. -/
namespace Riscy.AArch64
open RISCV

section Starts
variable {b : Block} {ls : List (Line VName)} {v w : VReg} {j p : ℕ} {lr : LiveRange}

/-- A register that is touched occurs in the line of the position. -/
theorem Lines.line_at (h : Lines b ls) (hv : (v, j) ∈ touches b) :
    ∃ l, (ls ++ termLines b.term)[j]? = some l ∧ l.Occurs (.virt v) := by
  have hlen : b.instrs.length = ls.length := h.body.length_eq
  rcases (mem_touches h.short).mp hv with ⟨i, hi, hvi⟩ | ⟨rfl, hvt⟩
  · obtain ⟨hlt, rfl⟩ := List.getElem?_eq_some_iff.mp hi
    have hls : j < ls.length := by omega
    refine ⟨ls[j], ?_, ((h.body.get hlt hls).vregs v).mpr hvi⟩
    rw [List.getElem?_append_left hls, List.getElem?_eq_getElem hls]
  · have hpos : 0 < (termLines b.term).length := by
      rw [termLines_length]
      exact List.length_pos_of_mem hvt
    refine ⟨(termLines b.term)[0], ?_, ((termLines_occurs (List.getElem_mem hpos)).1 v).mpr hvt⟩
    rw [List.getElem?_append_right hlen.ge, hlen, Nat.sub_self, List.getElem?_eq_getElem hpos]

/-- Registers but the first one start where they are written. -/
theorem Lines.written_at_start (h : Lines b ls) (hv : v ≠ 1)
    (hl : (touchAll ∅ (touches b)).lookup v = some lr) :
    ∃ l, (ls ++ termLines b.term)[lr.start]? = some l ∧ l.dest = some (.virt v) := by
  have hr := (lookup_touchAll _ v).1 lr hl
  obtain ⟨l, hj, hocc⟩ := h.line_at hr.start
  refine ⟨l, hj, hocc.resolve_left fun hread => ?_⟩
  rcases h.defined.get hj hread with hf | ⟨k, hk, l', hl', hd⟩
  · exact hf
  · rcases hr.lower k (h.touched hl' (Or.inr hd)) with rfl | hle
    · exact hv (h.occurs_zero hl' (Or.inr hd))
    · exact absurd hk (not_lt.mpr hle)

theorem Lines.startsApart (h : Lines b ls) : StartsApart (touchAll ∅ (touches b)) := by
  intro v w lr lr' hv hw hl hl' he
  obtain ⟨l, hj, hd⟩ := h.written_at_start hv hl
  obtain ⟨l', hj', hd'⟩ := h.written_at_start hw hl'
  rw [he, hj'] at hj
  cases hj
  rw [hd'] at hd
  cases hd
  rfl

theorem touchAll_valid (hl : (touchAll ∅ (touches b)).lookup v = some lr) :
    lr.start ≤ lr.last := by
  have hr := (lookup_touchAll _ v).1 lr hl
  exact hr.upper _ hr.start

end Starts

section Live
variable {b : Block} {A T : List Instr} {v : VReg} {j p : ℕ} {dead : Prop}

/-- Code whose first register is used by an instruction on a register that is used again. -/
inductive LiveTie : ℕ → VReg → List Instr → Prop
  | mk {c o u : Instr} {X W : List Instr} {w : VReg} (hc : c.vregs = [1])
    (hX : ∀ x ∈ X, x.vregs = [2]) (h1 : 1 ∈ o.vregs) (hw : w ∈ o.vregs) (hlt : 2 < w)
    (hu : u ∈ W) (hwu : w ∈ u.vregs) : LiveTie (X.length + 1) w (c :: (X ++ o :: W))

variable {w : VReg}

theorem LiveTie.before (h : LiveTie p w A) {i : Instr} (hj : A[j]? = some i) (hlt : j < p)
    (hv : v ∈ i.vregs) : j = 0 ∧ v = 1 ∨ v = 2 := by
  cases h with
  | @mk c o u X W w hc hX h1 hw hlt2 hu hwu =>
    cases j with
    | zero =>
      cases hj
      rw [hc, List.mem_singleton] at hv
      exact Or.inl ⟨rfl, hv⟩
    | succ j =>
      rw [List.getElem?_cons_succ, List.getElem?_append_left (by omega)] at hj
      rw [hX i (List.mem_of_getElem? hj), List.mem_singleton] at hv
      exact Or.inr hv

theorem LiveTie.uses (h : LiveTie p w A) : p ≠ 0 ∧ 2 < w ∧
    (∃ i, A[p]? = some i ∧ 1 ∈ i.vregs ∧ w ∈ i.vregs) ∧
      ∃ q i, p < q ∧ A[q]? = some i ∧ w ∈ i.vregs := by
  cases h with
  | @mk c o u X W w hc hX h1 hw hlt hu hwu =>
    obtain ⟨n, hn⟩ := List.mem_iff_getElem?.mp hu
    refine ⟨Nat.succ_ne_zero _, hlt, ⟨o, ?_, h1, hw⟩, X.length + (n + 1) + 1, u, by omega, ?_, hwu⟩
    · rw [List.getElem?_cons_succ, List.getElem?_append_right le_rfl, Nat.sub_self]
      rfl
    · rw [List.getElem?_cons_succ, List.getElem?_append_right (by omega), Nat.add_sub_cancel_left,
        List.getElem?_cons_succ]
      exact hn

/-- The two registers start together, and one range goes on. -/
theorem LiveTie.not_ended (h : LiveTie p w A) (hb : b.instrs = A ++ T)
    (hshort : b.instrs.length < 2 ^ 32) : ¬ TiesEnded (touchAll ∅ (touches b)) := by
  intro hties
  obtain ⟨hp, hw, ⟨i, hi, h1, hwi⟩, q, i', hq, hi', hwq⟩ := h.uses
  have hin : ∀ {j i v}, A[j]? = some i → v ∈ i.vregs → (v, j) ∈ touches b := by
    intro j i v hj hv
    refine (mem_touches hshort).mpr (Or.inl ⟨i, ?_, hv⟩)
    rw [hb, List.getElem?_append_left (List.getElem?_eq_some_iff.mp hj).1]
    exact hj
  have hbefore : ∀ v j, (v, j) ∈ touches b → p ≤ j ∨ j = 0 ∧ v = 1 ∨ v = 2 := by
    intro v j hv
    by_contra hno
    obtain ⟨hlt, hno⟩ := not_or.mp hno
    have hplt := (List.getElem?_eq_some_iff.mp hi).1
    rcases (mem_touches hshort).mp hv with ⟨c, hc, hvc⟩ | ⟨rfl, -⟩
    · rw [hb, List.getElem?_append_left (by omega)] at hc
      exact hno (h.before hc (by omega) hvc)
    · rw [hb, List.length_append] at hlt
      omega
  have hs := touches_sorted (Block.inRange_of_short hshort)
  obtain ⟨m, hm, -⟩ := lookup_second hs hp (hin hi h1) fun j hj => by
    rcases hbefore 1 j hj with hle | ⟨h0, -⟩ | h2
    · exact Or.inr hle
    · exact Or.inl h0
    · cases h2
  obtain ⟨m', hm', -⟩ := lookup_second hs hp (hin hi hwi) fun j hj => by
    rcases hbefore w j hj with hle | ⟨-, rfl⟩ | rfl
    · exact Or.inr hle
    · exact absurd hw (by decide)
    · exact absurd hw (by decide)
  have hw1 : w ≠ 1 := by
    rintro rfl
    exact absurd hw (by decide)
  have hend : m' ≤ p := (hties _ w _ hw1 hm hm' rfl).2
  have hlast : q ≤ m' := ((lookup_touchAll _ w).1 _ hm').upper q (hin hi' hwq)
  omega

end Live

section Code
variable {start : BitVec 64} {k rd rs1 rs base : ℕ} {v off ra : BitVec 64} {src : Source}

theorem binary_tie {c o u : Instr} {X W : List Instr} (hc : c.vregs = [1])
    (hX : ∀ x ∈ X, x.vregs = [2]) (ho : o.vregs = [3, 1, 2]) (hu : u ∈ W) (h3 : 3 ∈ u.vregs) :
    ∃ p w, LiveTie p w (c :: (X ++ o :: W)) :=
  ⟨_, 3, .mk hc hX (by simp [ho]) (by simp [ho]) (by decide) hu h3⟩

theorem alu_tie {op : IR.BinOpKind} (h0 : rd ≠ 0) :
    ∃ p w, LiveTie p w (segment start 0 k (.alu op rd rs1 src)) := by
  obtain ⟨u, hu, h3⟩ := @write_uses start k rd 2 h0
  rw [segment_alu]
  exact binary_tie rfl (source_two src).2 rfl hu h3

theorem auipc_tie (h0 : rd ≠ 0) : ∃ p w, LiveTie p w (segment start 0 k (.auipc rd v)) := by
  obtain ⟨u, hu, h3⟩ := @write_uses start k rd 2 h0
  rw [segment_auipc]
  exact binary_tie rfl const_two.2 rfl hu h3

theorem addWord_tie : ∃ p w, LiveTie p w (segment start 0 k (.addWord rd rs1 src)) := by
  rw [segment_addWord]
  exact binary_tie rfl (source_two src).2 rfl (List.mem_cons_self ..) (by decide)

theorem jumpReg_tie : ∃ p w, LiveTie p w (segment start 0 k (.jumpReg rd base off ra)) := by
  rw [segment_jumpReg]
  refine binary_tie rfl const_two.2 rfl
    (List.mem_append_right _ (List.mem_cons_self ..)) (by decide)

/-- The first register ties with the address temporary. -/
theorem access_tie {c u : Instr} {X W : List Instr} (hk : 2 < addrReg k) (hc : c.vregs = [1])
    (hX : ∀ x ∈ X, x.vregs = [2]) (hu : addrReg k ∈ u.vregs) :
    ∃ p w, LiveTie p w (c :: (X ++ addrCode k 0 :: u :: W)) :=
  ⟨_, addrReg k, .mk hc hX (List.mem_cons_of_mem _ (List.mem_singleton_self 1))
    (List.mem_cons_self ..) hk (List.mem_cons_self ..) hu⟩

theorem base_used (hk : 2 < addrReg k) (op : Op) (x : VReg) (o : BitVec 32) :
    addrReg k ∈ (⟨op, [.regV x, .mem (addrReg k) o]⟩ : Instr).vregs := by
  have h0 : addrReg k ≠ 0 := Nat.ne_of_gt (Nat.zero_lt_of_lt hk)
  simp [Instr.vregs, Operand.vregs, h0]

theorem loadWord_tie (hk : 2 < addrReg k) (signed : Bool) :
    ∃ p w, LiveTie p w (segment start 0 k (.loadWord signed rd base off)) := by
  have hu := base_used hk .LdrW 2 (off.setWidth 32)
  cases signed <;> exact access_tie (X := []) hk rfl (fun x hx => by cases hx) hu

theorem loadDouble_tie (hk : 2 < addrReg k) :
    ∃ p w, LiveTie p w (segment start 0 k (.loadDouble rd base off)) := by
  have hu := base_used hk .LdrX 2 (off.setWidth 32)
  exact access_tie (X := []) hk rfl (fun x hx => by cases hx) hu

theorem store_tie (hk : 2 < addrReg k) (ty : IR.TypeKind) :
    ∃ p w, LiveTie p w (segment start 0 k (.store ty base rs off)) := by
  have hu := base_used hk (storeOp ty) 2 (off.setWidth 32)
  have hX : ∀ x ∈ ([⟨.LdrX, [.regV 2, .mem 0 (guestRegOffsetBytes rs)]⟩] : List Instr),
      x.vregs = [2] := by
    intro x hx
    rw [List.mem_singleton.mp hx]
    rfl
  exact access_tie hk rfl hX hu

end Code

section Dead
variable {b : Block} {A T : List Instr} {p : ℕ}

/-- A result that is not used ends where it starts, and so does the first register unless the
terminator reads it. -/
theorem Opens.dead_ended (h : Opens b A T) (ho : OnTwo True p A) (h3 : 3 ∉ b.term.vregs) :
    TiesEnded (touchAll ∅ (touches b)) ↔ 1 ∉ b.term.vregs := by
  have htwo := h.twoOperands ho
  have hp := htwo.two_le
  obtain ⟨-, hlen, -⟩ := ho.operands
  have hs := touches_sorted (Block.inRange_of_short h.short)
  obtain ⟨m, hm, hpm⟩ := htwo.lookup_fst hs
  have hr := (lookup_touchAll _ 1).1 _ hm
  have hresult := (h.lookup_result ho fun _ => h3).mpr trivial
  constructor
  · intro hties h1
    have hend : m ≤ p := (hties _ 3 _ (by decide) hm hresult rfl).1
    have hlast : b.instrs.length ≤ m :=
      hr.upper _ ((mem_touches h.short).mpr (Or.inr ⟨rfl, h1⟩))
    rw [h.instrs, List.length_append] at hlast
    omega
  · intro h1 lr w lr' hw hl hl' he
    rw [hm] at hl
    cases hl
    have hmp : m = p := by
      rcases h.touched hr.last with ⟨i, hi, hv⟩ | ⟨-, hlt | ht⟩
      · rcases ho.cases_at hi hv with ⟨h0, -⟩ | ⟨-, hv⟩ | ⟨hj, -⟩ | ⟨-, hv⟩
        · have h0' : m = 0 := h0
          omega
        · cases hv
        · exact hj
        · exact absurd hv (by decide)
      · exact absurd hlt (by decide)
      · exact absurd ht h1
    have hw2 : w ≠ 2 := by
      rintro rfl
      rw [htwo.lookup_snd] at hl'
      cases hl'
      have h1p : p = 1 := he
      omega
    obtain ⟨-, hgt, -⟩ := htwo.lookup_other hl' hw hw2
    have hw3 : w = 3 := by
      by_contra hw3
      exact absurd he (Nat.ne_of_lt (hgt hw3))
    subst hw3
    rw [hresult] at hl'
    cases hl'
    exact ⟨hmp.le, le_rfl⟩

/-- An instruction on two registers that defines none ties with nothing. -/
theorem Opens.free_ended (h : Opens b A T) {dead : Prop} (ho : OnTwo dead p A)
    (hfree : ∀ i ∈ A, 1 ∈ i.vregs → 3 ∉ i.vregs) : TiesEnded (touchAll ∅ (touches b)) := by
  have htwo := h.twoOperands ho
  have hp := htwo.two_le
  obtain ⟨-, hlen, -, i, hi, h1, -⟩ := ho.operands
  have hs := touches_sorted (Block.inRange_of_short h.short)
  obtain ⟨m, hm, -⟩ := htwo.lookup_fst hs
  intro lr w lr' hw hl hl' he
  rw [hm] at hl
  cases hl
  obtain ⟨s, m'⟩ := lr'
  obtain rfl : p = s := he
  have hstart := ((lookup_touchAll _ w).1 _ hl').start
  rcases h.touched hstart with ⟨c, hc, hv⟩ | ⟨hge, -⟩
  · rw [show A[p]? = some i from hi] at hc
    cases hc
    rcases ho.cases_at hi hv with ⟨h0, -⟩ | ⟨⟨-, hlt⟩, -⟩ | ⟨-, rfl | rfl | rfl⟩ | ⟨hlt, -⟩
    · omega
    · omega
    · exact absurd rfl hw
    · rw [htwo.lookup_snd] at hl'
      cases hl'
      omega
    · exact absurd hv (hfree _ (List.mem_of_getElem? hi) h1)
    · omega
  · have hge' : A.length ≤ p := hge
    omega

theorem compare_free {start : BitVec 64} {k rs1 rs2 : ℕ} {c : IR.ICmpCond} {i : Instr}
    (hi : i ∈ segment start 0 k (.compare c rs1 rs2)) (h1 : 1 ∈ i.vregs) : 3 ∉ i.vregs := by
  have hseg : segment start 0 k (.compare c rs1 rs2) =
      [⟨.LdrX, [.regV 1, .mem 0 (guestRegOffsetBytes rs1)]⟩,
        ⟨.LdrX, [.regV 2, .mem 0 (guestRegOffsetBytes rs2)]⟩, ⟨.Cmp, [.regV 1, .regV 2]⟩,
        ⟨csetOp c, [.regV 3]⟩] := rfl
  rw [hseg] at hi
  simp only [List.mem_cons, List.not_mem_nil, or_false] at hi
  rcases hi with rfl | rfl | rfl | rfl <;> simp [Instr.vregs, Operand.vregs] at h1 ⊢

end Dead

section Blocks
variable {mem : MemoryReader} {entry : BitVec 64} {cfg : CFG} {bb : BasicBlock}

/-- The order of the registers makes no difference to the assignment, and so none to the
block that is emitted. -/
def Reproducible (bb : BasicBlock) : Prop :=
  ∃ ir blk live asg asm, lift bb = .ok ir ∧ select ir = .ok blk ∧ analyze blk = .ok live ∧
    ∀ items, ItemOrder live items → allocate items = .ok asg ∧ emitBlock blk asg = .ok asm

/-- The block has no code, or starts with a comparison or a JAL, or with an ALU instruction
whose result goes to `x0` and whose first operand the terminator does not name. -/
def OrderFree (bb : BasicBlock) : Prop :=
  match firstLowering bb.insts with
  | .nothing | .compare .. | .link .. => True
  | .alu _ rd _ _ | .auipc rd _ => rd = 0 ∧ 0 ∉ termIds (lifted bb).term
  | .addWord .. | .loadWord .. | .loadDouble .. | .store .. | .jumpReg .. => False

/-- No register but the first one starts anywhere. -/
theorem ended_of_only {b : Block} (hone : ∀ v j, (v, j) ∈ touches b → v = 1) :
    TiesEnded (touchAll ∅ (touches b)) := fun _ w _ hw _ hl' _ =>
  absurd (hone w _ ((lookup_touchAll _ w).1 _ hl').start) hw

theorem one_mem_term :
    1 ∈ (selectedBlock (lifted bb)).term.vregs ↔ 0 ∈ termIds (lifted bb).term := by
  have hmap : (selectedBlock (lifted bb)).term.vregs = (termIds (lifted bb).term).map valueReg :=
    selectedTerm_vregs
  rw [hmap, List.mem_map]
  constructor
  · rintro ⟨id, hid, h1⟩
    have h0 : id = 0 := Nat.succ.inj h1
    rwa [← h0]
  · exact fun h => ⟨0, h, rfl⟩

variable {i : DecodedInst} {rest : List DecodedInst}

theorem Opening.temp_gt (h : Opening bb i rest) (hs : Short bb) (hone : addrCount (lowering i) = 1)
    (hsize : 2 ≤ (lowering i).size) : 2 < addrReg (irSize bb.insts + 1) := by
  have hbound := hs.2
  obtain ⟨hsizes, hcounts⟩ := h.sizes
  change (2 : ℕ) < (irSize bb.insts + 1 + 1) % 2 ^ 32
  omega

/-- A write of the result keeps its range open; without one the terminator decides. -/
theorem Opening.binary_ended (h : Opening bb i rest) (hs : Short bb) (hexit : BlockExit mem cfg bb)
    {rd : ℕ} (hsize : 3 ≤ (lowering i).size) (hcmp : ¬ ∃ c r s, lowering i = .compare c r s)
    (htwo : ∃ p, OnTwo (rd = 0) p (segment bb.start 0 (irSize bb.insts + 1) (lowering i)))
    (htie : rd ≠ 0 → ∃ p w, LiveTie p w (segment bb.start 0 (irSize bb.insts + 1) (lowering i))) :
    TiesEnded (liveMap bb) ↔ rd = 0 ∧ 0 ∉ termIds (lifted bb).term := by
  by_cases h0 : rd = 0
  · obtain ⟨p, hp⟩ := htwo
    rw [eq_true h0] at hp
    rw [← one_mem_term, and_iff_right h0]
    exact (h.opens hs hexit hsize).dead_ended hp (h.unused hs hexit hsize hcmp)
  · obtain ⟨p, w, ht⟩ := htie h0
    exact iff_of_false (ht.not_ended h.instrs hs.1) fun hrd => h0 hrd.1

theorem tiesEnded_iff (hb : WellBuilt mem bb) (hexit : BlockExit mem cfg bb) (hs : Short bb) :
    TiesEnded (liveMap bb) ↔ OrderFree bb := by
  unfold OrderFree
  rcases opening_cases bb with hnone | ⟨i, rest, hopen⟩
  · rw [firstLowering_none hnone]
    refine iff_of_true (ended_of_only fun v j hv => ?_) trivial
    exact absurd hv (no_touches hnone hexit hs v j)
  rw [hopen.first]
  have htie : (∃ p w, LiveTie p w (segment bb.start 0 (irSize bb.insts + 1) (lowering i))) →
      ¬ TiesEnded (liveMap bb) := fun ⟨_, _, ht⟩ => ht.not_ended hopen.instrs hs.1
  cases hl : lowering i with
  | alu op rd rs1 src =>
    exact hopen.binary_ended hs hexit (hl ▸ Nat.le_add_right ..) (by simp [hl])
      (hl ▸ onTwo_alu) fun h0 => hl ▸ alu_tie h0
  | auipc rd v =>
    exact hopen.binary_ended hs hexit (hl ▸ Nat.le_add_right ..) (by simp [hl])
      (hl ▸ onTwo_auipc) fun h0 => hl ▸ auipc_tie h0
  | addWord rd rs1 src => exact iff_false_intro (htie (hl ▸ addWord_tie))
  | jumpReg rd base off ra => exact iff_false_intro (htie (hl ▸ jumpReg_tie))
  | loadWord signed rd base off =>
    have hk := hopen.temp_gt hs (by rw [hl]; rfl)
      (by rw [hl]; exact Nat.le_add_right_of_le (show 2 ≤ 3 by decide))
    exact iff_false_intro (htie (hl ▸ loadWord_tie hk signed))
  | loadDouble rd base off =>
    have hk := hopen.temp_gt hs (by rw [hl]; rfl) (by rw [hl]; exact Nat.le_add_right ..)
    exact iff_false_intro (htie (hl ▸ loadDouble_tie hk))
  | store ty base rs off =>
    have hk := hopen.temp_gt hs (by rw [hl]; rfl) (by rw [hl]; exact Nat.le_add_right ..)
    exact iff_false_intro (htie (hl ▸ store_tie hk ty))
  | compare c rs1 rs2 =>
    obtain ⟨p, hp⟩ := @onTwo_compare bb.start (irSize bb.insts + 1) rs1 rs2 c
    have hopens := hopen.opens hs hexit (hl ▸ Nat.le_add_right ..)
    rw [hl] at hopens
    exact iff_of_true (hopens.free_ended hp fun c hc => compare_free hc) trivial
  | link rd ra =>
    obtain rfl := hopen.link_last hb hl
    exact iff_of_true (ended_of_only fun v j hv => link_touches hopen hl hs hexit hv) trivial
  | nothing => exact absurd (hl ▸ rfl) hopen.code

theorem reproducible_iff_ended (hb : WellBuilt mem bb) (hexit : BlockExit mem cfg bb)
    (hs : Short bb) : Reproducible bb ↔ TiesEnded (liveMap bb) := by
  have hp := hs.passes hb
  have hapart : StartsApart (liveMap bb) := (lifted_lines hexit hs).startsApart
  constructor
  · rintro ⟨ir, blk, live, asg, asm, hlift, hsel, hlive, hall⟩
    obtain ⟨rfl, rfl⟩ := hp.results hlift hsel hlive
    exact hapart.tiesEnded ⟨asg, fun items ho => (hall items ho).1⟩
  · intro hties
    obtain ⟨asg, hall⟩ := hapart.oneAllocation hties (fun _ ho => hs.allocate_ok ho)
      fun _ _ hl => touchAll_valid hl
    have has := assigned_of_allocate (sortedItems_order _) (hall _ (sortedItems_order _))
    exact ⟨_, _, _, asg, _, hp.lift, hp.select, hp.analyze, fun items ho =>
      ⟨hall items ho, emitBlock_eq (liftTerm_ok ..) has.instrs has.term⟩⟩

theorem reproducible_iff_free (hb : WellBuilt mem bb) (hexit : BlockExit mem cfg bb)
    (hs : Short bb) : Reproducible bb ↔ OrderFree bb :=
  (reproducible_iff_ended hb hexit hs).trans (tiesEnded_iff hb hexit hs)

/-- A block of a built program is translated the same in every order exactly if its first
instruction with code leaves no tie, or one that makes no difference. -/
theorem reproducible_iff (h : Builds mem entry cfg) (hbb : bb ∈ cfg.blocks) (hs : Short bb) :
    Reproducible bb ↔ OrderFree bb :=
  reproducible_iff_free (h.sound.built bb hbb) (WellBuilt.blockExit h.sound hbb) hs

/-- `addi x0, x0, 0` at 0 and a trap at 4. -/
def nopReader : MemoryReader := fun a =>
  if a = 0 then some 0x00000013 else if a = 4 then some 0x00000073 else none

def nopBlock : BasicBlock :=
  ⟨0, [⟨0, 0x00000013, .ADDI, [.reg 0, .reg 0, .imm 0]⟩, ⟨4, 0x00000073, .ECALL, []⟩], .Trap, []⟩

def nopCFG : CFG where
  entry := 0
  blocks := [nopBlock]
  indexByAddr := (∅ : AddrIndex).insert 0 0

theorem nop_builds : Builds nopReader 0 nopCFG := ⟨5, rfl⟩

theorem nop_reproducible : Reproducible nopBlock :=
  (reproducible_iff nop_builds (List.mem_singleton_self _) (show Short nopBlock by decide)).mpr
    ⟨rfl, List.not_mem_nil⟩

/-- The sum and the first operand start at the addition. -/
theorem add_not_reproducible : ¬ ∀ mem entry cfg, Builds mem entry cfg → ∀ bb ∈ cfg.blocks,
    Reproducible bb := by
  intro h
  have hb := add_builds.sound.built addBlock (List.mem_singleton_self _)
  have hexit := WellBuilt.blockExit add_builds.sound (List.mem_singleton_self addBlock)
  have hfree := (reproducible_iff_free hb hexit (show Short addBlock by decide)).mp
    (h _ _ _ add_builds _ (List.mem_singleton_self _))
  exact absurd hfree.1 (by decide)

end Blocks

end Riscy.AArch64
