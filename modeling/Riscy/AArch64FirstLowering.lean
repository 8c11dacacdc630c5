import Riscy.AArch64AllocOrder
import Riscy.AArch64Lifted
import Riscy.RISCVIndirect

/-! The first instruction of a lifted block that has code, and the positions of the registers
of that code. -/
namespace Riscy.AArch64
open IR (TypeKind Payload)
open RISCV

section Length

theorem constCode_pos (d : VReg) (v : BitVec 64) : 0 < (constCode d v).length := by
  unfold constCode
  split_ifs <;> simp

theorem writes_cases {n : ℕ} {l : Lowering} {p : Payload} (hp : p ∈ l.writes n) :
    (∃ r v, p = .WriteReg r v) ∨ ∃ v b off ty, p = .Store v b off ty := by
  have hback : ∀ rd v, p ∈ writeBack rd v → ∃ r v, p = .WriteReg r v := by
    intro rd v hp
    unfold writeBack at hp
    split_ifs at hp
    · cases hp
    · exact ⟨rd, v, List.mem_singleton.mp hp⟩
  cases l with
  | store ty base rs off => exact Or.inr ⟨_, _, _, _, List.mem_singleton.mp hp⟩
  | compare => cases hp
  | nothing => cases hp
  | _ => exact Or.inl (hback _ _ hp)

/-- Every instruction of lifted code has a line, and one more for a temporary. -/
theorem selected_length_ge {start : BitVec 64} {k n : ℕ} {l : Lowering} {i : IR.Instr}
    (hi : i ∈ l.code n) : temps i + 1 ≤ (selected start k i).length := by
  rcases List.mem_append.mp hi with hi | hi
  · obtain ⟨j, -, hd⟩ := numbered_dest hi
    obtain ⟨dest, payload⟩ := i
    cases hd
    cases payload with
    | Const ty v => exact constCode_pos _ v
    | _ => simp [selected, temps, extCode]
  · obtain ⟨p, hp, rfl⟩ := List.mem_map.mp hi
    rcases writes_cases hp with ⟨r, v, rfl⟩ | ⟨v, b, off, ty, rfl⟩ <;> simp [selected, temps]

theorem selectedAll_length_ge {start : BitVec 64} {k : ℕ} {is : List IR.Instr}
    (h : ∀ i ∈ is, ∀ k, temps i + 1 ≤ (selected start k i).length) :
    is.length + tempCount is ≤ (selectedAll start k is).length := by
  induction is generalizing k with
  | nil => exact le_rfl
  | cons i is ih =>
    have hcount : tempCount (i :: is) = temps i + tempCount is := by simp [tempCount]
    have hi := h i (by simp) k
    have his := ih (k := k + temps i) fun j hj => h j (List.mem_cons_of_mem _ hj)
    rw [selectedAll, List.length_append, List.length_cons, hcount]
    omega

theorem emitted_code {n : ℕ} {is : List DecodedInst} {i : IR.Instr} (hi : i ∈ emitted n is) :
    ∃ inst ∈ is, ∃ m, i ∈ (lowering inst).code m := by
  induction is generalizing n with
  | nil => cases hi
  | cons inst is ih =>
    rcases List.mem_append.mp hi with hi | hi
    · exact ⟨inst, by simp, n, hi⟩
    · obtain ⟨inst', hin, m, hm⟩ := ih hi
      exact ⟨inst', List.mem_cons_of_mem _ hin, m, hm⟩

/-- A block has no more values and temporaries than instructions. -/
theorem lifted_length_le (bb : BasicBlock) :
    irSize bb.insts + addrCounts bb.insts ≤ (selectedBlock (lifted bb)).instrs.length := by
  have hcode : ∀ i ∈ emitted 0 bb.insts, ∀ k, temps i + 1 ≤ (selected bb.start k i).length := by
    intro i hi k
    obtain ⟨inst, -, m, hm⟩ := emitted_code hi
    exact selected_length_ge hm
  have h := selectedAll_length_ge (k := (lifted bb).insts.length + 1) hcode
  rwa [emitted_length, tempCount_emitted] at h

end Length

section First

/-- The code that a block starts with, and the instructions after it. -/
theorem emitted_first (is : List DecodedInst) :
    (∀ i ∈ is, (lowering i).size = 0) ∨
      ∃ pre i rest, is = pre ++ i :: rest ∧ (∀ j ∈ pre, (lowering j).size = 0) ∧
        (lowering i).size ≠ 0 := by
  induction is with
  | nil => exact Or.inl fun i hi => by cases hi
  | cons i is ih =>
    by_cases hi : (lowering i).size = 0
    · rcases ih with hall | ⟨pre, j, rest, rfl, hpre, hj⟩
      · exact Or.inl fun j hj => (List.mem_cons.mp hj).elim (fun he => he ▸ hi) (hall j)
      · refine Or.inr ⟨i :: pre, j, rest, rfl, fun k hk => ?_, hj⟩
        exact (List.mem_cons.mp hk).elim (fun he => he ▸ hi) (hpre k)
    · exact Or.inr ⟨[], i, is, rfl, (fun j hj => by cases hj), hi⟩

theorem irSize_zero {is : List DecodedInst} (h : ∀ i ∈ is, (lowering i).size = 0) :
    irSize is = 0 := by
  induction is with
  | nil => rfl
  | cons i is ih =>
    rw [irSize_cons, h i (by simp), ih fun j hj => h j (List.mem_cons_of_mem _ hj)]

/-- The first lowering of a block that has code. -/
def firstLowering : List DecodedInst → Lowering
  | [] => .nothing
  | i :: is => if (lowering i).size = 0 then firstLowering is else lowering i

theorem firstLowering_none {is : List DecodedInst} (h : ∀ i ∈ is, (lowering i).size = 0) :
    firstLowering is = .nothing := by
  induction is with
  | nil => rfl
  | cons i is ih =>
    rw [firstLowering, if_pos (h i (by simp))]
    exact ih fun j hj => h j (List.mem_cons_of_mem _ hj)

theorem firstLowering_append {pre rest : List DecodedInst} {i : DecodedInst}
    (h : ∀ j ∈ pre, (lowering j).size = 0) (hi : (lowering i).size ≠ 0) :
    firstLowering (pre ++ i :: rest) = lowering i := by
  induction pre with
  | nil => exact if_neg hi
  | cons j pre ih =>
    rw [List.cons_append, firstLowering, if_pos (h j (by simp))]
    exact ih fun k hk => h k (List.mem_cons_of_mem _ hk)

end First

section Shape

/-- Code that computes at position `p` on the registers 1 and 2; if it is `dead`, the result
in register 3 is not used. -/
inductive OnTwo (dead : Prop) : ℕ → List Instr → Prop
  | mk {c o : Instr} {X W : List Instr} (hc : c.vregs = [1]) (hne : X ≠ [])
    (hX : ∀ x ∈ X, x.vregs = [2]) (h1 : 1 ∈ o.vregs) (h2 : 2 ∈ o.vregs)
    (ho : ∀ v ∈ o.vregs, v = 1 ∨ v = 2 ∨ v = 3) (hW : ∀ w ∈ W, ∀ v ∈ w.vregs, 3 ≤ v)
    (hdead : dead → 3 ∈ o.vregs ∧ ∀ w ∈ W, 3 ∉ w.vregs)
    (hlive : ¬ dead → ∃ w ∈ W, 3 ∈ w.vregs) : OnTwo dead (X.length + 1) (c :: (X ++ o :: W))

variable {start : BitVec 64} {k rd rs1 rs2 : ℕ} {v off ra : BitVec 64}

theorem const_two : constCode 2 v ≠ [] ∧ ∀ x ∈ constCode 2 v, x.vregs = [2] :=
  ⟨List.ne_nil_of_length_pos (constCode_pos 2 v), fun _ hx => constCode_vregs hx⟩

theorem source_two (src : Source) : selected start k ⟨some 1, src.payload⟩ ≠ [] ∧
    ∀ x ∈ selected start k ⟨some 1, src.payload⟩, x.vregs = [2] := by
  cases src with
  | reg r =>
    refine ⟨List.cons_ne_nil _ _, fun x hx => ?_⟩
    rw [List.mem_singleton.mp hx]
    rfl
  | imm v => exact const_two

theorem write_vregs {r : ℕ} {w : Instr}
    (hw : w ∈ selectedAll start k (unnumbered (writeBack rd r))) : rd ≠ 0 ∧ w.vregs = [r + 1] := by
  unfold writeBack at hw
  split_ifs at hw with h0
  · cases hw
  · rw [List.mem_singleton.mp hw]
    exact ⟨h0, rfl⟩

theorem write_uses {r : ℕ} (h0 : rd ≠ 0) :
    ∃ u ∈ selectedAll start k (unnumbered (writeBack rd r)), r + 1 ∈ u.vregs := by
  unfold writeBack
  rw [if_neg h0]
  exact ⟨_, List.mem_singleton_self _, by simp [Instr.vregs, Operand.vregs, valueReg]⟩

/-- The write of a result that is used nowhere else. -/
theorem OnTwo.of_write {c o : Instr} {X : List Instr} (hc : c.vregs = [1]) (hne : X ≠ [])
    (hX : ∀ x ∈ X, x.vregs = [2]) (ho : o.vregs = [3, 1, 2]) :
    OnTwo (rd = 0) (X.length + 1)
      (c :: (X ++ o :: selectedAll start k (unnumbered (writeBack rd 2)))) := by
  refine .mk hc hne hX (by simp [ho]) (by simp [ho]) ?_ ?_ ?_ ?_
  · intro x hx
    simp only [ho, List.mem_cons, List.not_mem_nil, or_false] at hx
    tauto
  · intro w hw x hx
    rw [(write_vregs hw).2, List.mem_singleton] at hx
    exact hx.ge
  · exact fun h0 => ⟨by simp [ho], fun w hw _ => (write_vregs hw).1 h0⟩
  · exact write_uses

/-- A result that is used at once. -/
theorem OnTwo.of_use {c o u : Instr} {X W : List Instr} (hc : c.vregs = [1]) (hne : X ≠ [])
    (hX : ∀ x ∈ X, x.vregs = [2]) (h1 : 1 ∈ o.vregs) (h2 : 2 ∈ o.vregs)
    (ho : ∀ v ∈ o.vregs, v = 1 ∨ v = 2 ∨ v = 3) (hu : u ∈ W) (hu3 : 3 ∈ u.vregs)
    (hW : ∀ w ∈ W, ∀ v ∈ w.vregs, 3 ≤ v) : OnTwo False (X.length + 1) (c :: (X ++ o :: W)) :=
  .mk hc hne hX h1 h2 ho hW False.elim fun _ => ⟨u, hu, hu3⟩

theorem binary_mem {o : Instr} (ho : o.vregs = [3, 1, 2]) :
    1 ∈ o.vregs ∧ 2 ∈ o.vregs ∧ ∀ v ∈ o.vregs, v = 1 ∨ v = 2 ∨ v = 3 := by
  rw [ho]
  decide

theorem segment_alu {op : IR.BinOpKind} {src : Source} :
    segment start 0 k (.alu op rd rs1 src) =
      ⟨.LdrX, [.regV 1, .mem 0 (guestRegOffsetBytes rs1)]⟩ ::
        (selected start k ⟨some 1, src.payload⟩ ++
          ⟨binOp op, [.regV 3, .regV 1, .regV 2]⟩ ::
            selectedAll start k (unnumbered (writeBack rd 2))) := by
  cases src <;> rfl

theorem segment_auipc : segment start 0 k (.auipc rd v) =
    ⟨.Mov, [.regV 1, .imm start]⟩ :: (constCode 2 v ++ ⟨.Add, [.regV 3, .regV 1, .regV 2]⟩ ::
      selectedAll start k (unnumbered (writeBack rd 2))) := rfl

theorem segment_addWord {src : Source} : segment start 0 k (.addWord rd rs1 src) =
    ⟨.LdrX, [.regV 1, .mem 0 (guestRegOffsetBytes rs1)]⟩ ::
      (selected start k ⟨some 1, src.payload⟩ ++ ⟨.Add, [.regV 3, .regV 1, .regV 2]⟩ ::
        ⟨.Mov, [.regV 4, .regV 3]⟩ :: ⟨.Sxtw, [.regV 5, .regV 4]⟩ ::
          selectedAll start k (unnumbered (writeBack rd 4))) := by
  cases src <;> rfl

theorem segment_jumpReg {base : ℕ} : segment start 0 k (.jumpReg rd base off ra) =
    ⟨.LdrX, [.regV 1, .mem 0 (guestRegOffsetBytes base)]⟩ ::
      (constCode 2 off ++ ⟨.Add, [.regV 3, .regV 1, .regV 2]⟩ ::
        (constCode 4 (~~~1) ++ ⟨.And, [.regV 5, .regV 3, .regV 4]⟩ ::
          (constCode 6 ra ++ selectedAll start k (unnumbered (writeBack rd 5))))) := rfl

theorem onTwo_alu {op : IR.BinOpKind} {src : Source} :
    ∃ p, OnTwo (rd = 0) p (segment start 0 k (.alu op rd rs1 src)) := by
  obtain ⟨hne, hX⟩ := @source_two start k src
  rw [segment_alu]
  exact ⟨_, .of_write rfl hne hX rfl⟩

theorem onTwo_auipc : ∃ p, OnTwo (rd = 0) p (segment start 0 k (.auipc rd v)) := by
  obtain ⟨hne, hX⟩ := @const_two v
  rw [segment_auipc]
  exact ⟨_, .of_write rfl hne hX rfl⟩

theorem onTwo_addWord {src : Source} :
    ∃ p, OnTwo False p (segment start 0 k (.addWord rd rs1 src)) := by
  obtain ⟨hne, hX⟩ := @source_two start k src
  obtain ⟨h1, h2, ho⟩ := @binary_mem ⟨.Add, [.regV 3, .regV 1, .regV 2]⟩ rfl
  rw [segment_addWord]
  refine ⟨_, .of_use rfl hne hX h1 h2 ho (List.mem_cons_self ..) (by decide) ?_⟩
  intro w hw x hx
  simp only [List.mem_cons] at hw
  rcases hw with rfl | rfl | hw
  · revert x
    decide
  · revert x
    decide
  · rw [(write_vregs hw).2, List.mem_singleton] at hx
    rw [hx]
    decide

theorem onTwo_compare {c : IR.ICmpCond} :
    ∃ p, OnTwo False p (segment start 0 k (.compare c rs1 rs2)) := by
  have hseg : segment start 0 k (.compare c rs1 rs2) =
      ⟨.LdrX, [.regV 1, .mem 0 (guestRegOffsetBytes rs1)]⟩ ::
        ([⟨.LdrX, [.regV 2, .mem 0 (guestRegOffsetBytes rs2)]⟩] ++
          ⟨.Cmp, [.regV 1, .regV 2]⟩ :: [⟨csetOp c, [.regV 3]⟩]) := rfl
  have hX : ∀ x ∈ ([⟨.LdrX, [.regV 2, .mem 0 (guestRegOffsetBytes rs2)]⟩] : List Instr),
      x.vregs = [2] := by
    intro x hx
    rw [List.mem_singleton.mp hx]
    rfl
  rw [hseg]
  refine ⟨_, .of_use rfl (List.cons_ne_nil _ _) hX (by decide) (by decide) (by decide)
    (List.mem_singleton_self _) (List.mem_singleton_self _) fun w hw x hx => ?_⟩
  rw [List.mem_singleton.mp hw] at hx
  exact (List.mem_singleton.mp hx).ge

theorem onTwo_jumpReg {base : ℕ} :
    ∃ p, OnTwo False p (segment start 0 k (.jumpReg rd base off ra)) := by
  obtain ⟨hne, hX⟩ := @const_two off
  obtain ⟨h1, h2, ho⟩ := @binary_mem ⟨.Add, [.regV 3, .regV 1, .regV 2]⟩ rfl
  rw [segment_jumpReg]
  refine ⟨_, .of_use rfl hne hX h1 h2 ho
    (List.mem_append_right _ (List.mem_cons_self ..)) (by decide) ?_⟩
  intro w hw x hx
  simp only [List.mem_append, List.mem_cons] at hw
  rcases hw with hw | rfl | hw | hw
  · rw [constCode_vregs hw, List.mem_singleton] at hx
    rw [hx]
    decide
  · revert x
    decide
  · rw [constCode_vregs hw, List.mem_singleton] at hx
    rw [hx]
    decide
  · rw [(write_vregs hw).2, List.mem_singleton] at hx
    rw [hx]
    decide

end Shape

section Positions
variable {b : Block} {A T : List Instr} {v : VReg} {j p : ℕ} {dead : Prop}

/-- Positions of short blocks do not wrap around. -/
theorem mem_touches (hshort : b.instrs.length < 2 ^ 32) : (v, j) ∈ touches b ↔
    (∃ i, b.instrs[j]? = some i ∧ v ∈ i.vregs) ∨ j = b.instrs.length ∧ v ∈ b.term.vregs :=
  mem_touches_iff (Block.inRange_of_short hshort)

/-- A block that starts with the code `A`, whose first three registers are not used after it
but for the first one and the result. -/
structure Opens (b : Block) (A T : List Instr) : Prop where
  instrs : b.instrs = A ++ T
  short : b.instrs.length < 2 ^ 32
  later : ∀ i ∈ T, ∀ v ∈ i.vregs, 3 < v
  term : ∀ v ∈ b.term.vregs, v ≠ 2

/-- Where a register of such a block is touched. -/
theorem Opens.touched (h : Opens b A T) (hv : (v, j) ∈ touches b) :
    (∃ i, A[j]? = some i ∧ v ∈ i.vregs) ∨ A.length ≤ j ∧ (3 < v ∨ v ∈ b.term.vregs) := by
  rcases (mem_touches h.short).mp hv with ⟨i, hj, hi⟩ | ⟨rfl, ht⟩
  · rw [h.instrs] at hj
    rcases Nat.lt_or_ge j A.length with hlt | hge
    · rw [List.getElem?_append_left hlt] at hj
      exact Or.inl ⟨i, hj, hi⟩
    · rw [List.getElem?_append_right hge] at hj
      exact Or.inr ⟨hge, Or.inl (h.later i (List.mem_of_getElem? hj) v hi)⟩
  · right
    rw [h.instrs, List.length_append]
    exact ⟨Nat.le_add_right .., Or.inr ht⟩

theorem Opens.touch (h : Opens b A T) {i : Instr} (hj : A[j]? = some i) (hv : v ∈ i.vregs) :
    (v, j) ∈ touches b := by
  have hlt := (List.getElem?_eq_some_iff.mp hj).1
  refine (mem_touches h.short).mpr (Or.inl ⟨i, ?_, hv⟩)
  rw [h.instrs, List.getElem?_append_left hlt]
  exact hj

/-- What stands at a position of code on two registers. -/
theorem OnTwo.cases_at (h : OnTwo dead p A) {i : Instr} (hj : A[j]? = some i) (hv : v ∈ i.vregs) :
    j = 0 ∧ v = 1 ∨ (1 ≤ j ∧ j < p) ∧ v = 2 ∨ j = p ∧ (v = 1 ∨ v = 2 ∨ v = 3) ∨ p < j ∧ 3 ≤ v := by
  cases h with
  | @mk c o X W hc hne hX h1 h2 ho hW hdead hlive =>
    cases j with
    | zero =>
      cases hj
      rw [hc, List.mem_singleton] at hv
      exact Or.inl ⟨rfl, hv⟩
    | succ j =>
      rw [List.getElem?_cons_succ] at hj
      rcases Nat.lt_trichotomy j X.length with hlt | rfl | hgt
      · rw [List.getElem?_append_left hlt] at hj
        rw [hX i (List.mem_of_getElem? hj), List.mem_singleton] at hv
        exact Or.inr (Or.inl ⟨⟨by omega, by omega⟩, hv⟩)
      · rw [List.getElem?_append_right le_rfl, Nat.sub_self] at hj
        cases hj
        exact Or.inr (Or.inr (Or.inl ⟨rfl, ho v hv⟩))
      · rw [List.getElem?_append_right hgt.le] at hj
        obtain ⟨n, hn⟩ : ∃ n, j - X.length = n + 1 := ⟨j - X.length - 1, by omega⟩
        rw [hn, List.getElem?_cons_succ] at hj
        exact Or.inr (Or.inr (Or.inr ⟨by omega, hW i (List.mem_of_getElem? hj) v hv⟩))

theorem OnTwo.operands (h : OnTwo dead p A) : 2 ≤ p ∧ p < A.length ∧
    (∃ i, A[1]? = some i ∧ 2 ∈ i.vregs) ∧ ∃ i, A[p]? = some i ∧ 1 ∈ i.vregs ∧ 2 ∈ i.vregs := by
  cases h with
  | @mk c o X W hc hne hX h1 h2 ho hW hdead hlive =>
    have hpos := List.length_pos_of_ne_nil hne
    refine ⟨by omega, by simp, ⟨X[0], ?_, ?_⟩, o, ?_, h1, h2⟩
    · rw [List.getElem?_cons_succ, List.getElem?_append_left hpos, List.getElem?_eq_getElem hpos]
    · rw [hX _ (List.getElem_mem hpos)]
      exact List.mem_singleton_self 2
    · rw [List.getElem?_cons_succ, List.getElem?_append_right le_rfl, Nat.sub_self]
      rfl

theorem OnTwo.result_dead (h : OnTwo dead p A) (hd : dead) :
    (∃ i, A[p]? = some i ∧ 3 ∈ i.vregs) ∧ ∀ j i, A[j]? = some i → 3 ∈ i.vregs → j = p := by
  cases h with
  | @mk c o X W hc hne hX h1 h2 ho hW hdead hlive =>
    refine ⟨⟨o, ?_, (hdead hd).1⟩, fun j i hj hv => ?_⟩
    · rw [List.getElem?_cons_succ, List.getElem?_append_right le_rfl, Nat.sub_self]
      rfl
    · cases j with
      | zero =>
        cases hj
        rw [hc] at hv
        exact absurd hv (by decide)
      | succ j =>
        rw [List.getElem?_cons_succ] at hj
        rcases Nat.lt_trichotomy j X.length with hlt | rfl | hgt
        · rw [List.getElem?_append_left hlt] at hj
          rw [hX i (List.mem_of_getElem? hj)] at hv
          exact absurd hv (by decide)
        · rfl
        · rw [List.getElem?_append_right hgt.le] at hj
          obtain ⟨n, hn⟩ : ∃ n, j - X.length = n + 1 := ⟨j - X.length - 1, by omega⟩
          rw [hn, List.getElem?_cons_succ] at hj
          exact absurd hv ((hdead hd).2 i (List.mem_of_getElem? hj))

theorem OnTwo.result_live (h : OnTwo dead p A) (hd : ¬ dead) :
    ∃ j i, p < j ∧ A[j]? = some i ∧ 3 ∈ i.vregs := by
  cases h with
  | @mk c o X W hc hne hX h1 h2 ho hW hdead hlive =>
    obtain ⟨w, hw, h3⟩ := hlive hd
    obtain ⟨n, hn⟩ := List.mem_iff_getElem?.mp hw
    refine ⟨X.length + (n + 1) + 1, w, by omega, ?_, h3⟩
    rw [List.getElem?_cons_succ, List.getElem?_append_right (by omega), Nat.add_sub_cancel_left,
      List.getElem?_cons_succ]
    exact hn

theorem Opens.twoOperands (h : Opens b A T) (ho : OnTwo dead p A) : TwoOperands (touches b) p := by
  obtain ⟨hp, hlen, ⟨i, hi, hi2⟩, i', hi', h1, h2⟩ := ho.operands
  refine ⟨hp, h.touch hi' h1, fun j hj => ?_, h.touch hi hi2, h.touch hi' h2, fun j hj => ?_,
    fun v j hv => ?_⟩
  · rcases h.touched hj with ⟨c, hc, hv⟩ | ⟨hge, -⟩
    · rcases ho.cases_at hc hv with ⟨h0, -⟩ | ⟨-, hv⟩ | ⟨hj, -⟩ | ⟨hj, -⟩
      · exact Or.inl h0
      · cases hv
      · exact Or.inr hj.ge
      · exact Or.inr hj.le
    · exact Or.inr (by omega)
  · rcases h.touched hj with ⟨c, hc, hv⟩ | ⟨-, h3 | ht⟩
    · rcases ho.cases_at hc hv with ⟨-, hv⟩ | ⟨hj, -⟩ | ⟨hj, -⟩ | ⟨-, hv⟩
      · cases hv
      · omega
      · omega
      · exact absurd hv (by decide)
    · exact absurd h3 (by decide)
    · exact absurd rfl (h.term 2 ht)
  · rcases h.touched hv with ⟨c, hc, hv⟩ | ⟨hge, -⟩
    · rcases ho.cases_at hc hv with ⟨-, hv⟩ | ⟨-, hv⟩ | ⟨hj, hv | hv | hv⟩ | ⟨hj, -⟩
      · exact Or.inl hv
      · exact Or.inr (Or.inl hv)
      · exact Or.inl hv
      · exact Or.inr (Or.inl hv)
      · exact Or.inr (Or.inr (Or.inl ⟨hv, hj.ge⟩))
      · exact Or.inr (Or.inr (Or.inr hj))
    · exact Or.inr (Or.inr (Or.inr (by omega)))

/-- The range of the result ends where it starts exactly if it is not used. -/
theorem Opens.lookup_result (h : Opens b A T) (ho : OnTwo dead p A)
    (hterm : dead → 3 ∉ b.term.vregs) :
    (touchAll ∅ (touches b)).lookup 3 = some ⟨p, p⟩ ↔ dead := by
  constructor
  · intro hl
    by_contra hd
    obtain ⟨j, i, hj, hi, h3⟩ := ho.result_live hd
    have hle := ((lookup_touchAll _ 3).1 _ hl).upper j (h.touch hi h3)
    have hle' : j ≤ p := hle
    omega
  · intro hd
    obtain ⟨⟨i, hi, h3⟩, honly⟩ := ho.result_dead hd
    have hall : ∀ j, (3, j) ∈ touches b → j = p := by
      intro j hj
      rcases h.touched hj with ⟨c, hc, hv⟩ | ⟨-, hlt | ht⟩
      · exact honly j c hc hv
      · exact absurd hlt (lt_irrefl 3)
      · exact absurd ht (hterm hd)
    cases hl : (touchAll ∅ (touches b)).lookup 3 with
    | none => exact absurd (h.touch hi h3) ((lookup_touchAll _ 3).2 hl p)
    | some lr =>
      have hr := (lookup_touchAll _ 3).1 lr hl
      obtain ⟨s, l⟩ := lr
      obtain rfl : s = p := hall _ hr.start
      obtain rfl : l = s := hall _ hr.last
      rfl

end Positions

section Alone
variable {b : Block} {A T : List Instr} {items : List Item} {asg : RegAssignment}

/-- If all others end after the recorded start of the first register, it has its own place. -/
theorem merged_alone {live : LivenessMap} (ho : ItemOrder live items)
    (ha : allocate items = .ok asg)
    (h : ∀ lr, live.lookup 1 = some lr → ∀ w lr', w ≠ 1 → live.lookup w = some lr' →
      lr.start < lr'.last) : ∃ M, MergedBy live asg [1] M := by
  have hsame : ∀ u ∈ [1], asg u = asg 1 := fun u hu => by rw [List.mem_singleton.mp hu]
  have hne : ∀ w, w ∉ [1] → w ≠ 1 := fun w hw h1 => hw (h1 ▸ List.mem_singleton_self w)
  cases hl : live.lookup 1 with
  | none =>
    refine ⟨0, List.mem_singleton_self 1, hsame, fun u hu lr hu' => ?_,
      fun _ _ _ _ _ => Nat.zero_le _⟩
    rw [List.mem_singleton.mp hu, hl] at hu'
    cases hu'
  | some lr =>
    refine ⟨lr.last, List.mem_singleton_self 1, hsame, fun u hu lr' hu' => ?_,
      fun w lr' hw hw' he => ?_⟩
    · rw [List.mem_singleton.mp hu, hl] at hu'
      cases hu'
      exact le_rfl
    · rcases (ho.allocated ha).2 w lr' 1 lr hw' hl (hne w hw) he with hle | hle
      · have hlt := h lr hl w lr' (hne w hw) hw'
        omega
      · exact hle

/-- Blocks with no register but the first one. -/
theorem merged_only (hone : ∀ v j, (v, j) ∈ touches b → v = 1)
    (ho : ItemOrder (touchAll ∅ (touches b)) items) (ha : allocate items = .ok asg) :
    ∃ M, MergedBy (touchAll ∅ (touches b)) asg [1] M := by
  refine merged_alone ho ha fun lr _ w lr' hw hw' => ?_
  exact absurd (hone w _ ((lookup_touchAll _ w).1 lr' hw').start) hw

/-- Code whose first register is used at position `s`, where nothing else has ended. -/
structure FirstUsed (A : List Instr) (s : ℕ) : Prop where
  pos : s ≠ 0
  lt : s < A.length
  fst : ∃ i, A[s]? = some i ∧ 1 ∈ i.vregs
  later : ∀ (j : ℕ) (i : Instr) v, A[j]? = some i → v ∈ i.vregs → v ≠ 1 →
    ∃ (j' : ℕ) (i' : Instr), s < j' ∧ A[j']? = some i' ∧ v ∈ i'.vregs

theorem merged_used {s : ℕ} (hb : b.instrs = A ++ T) (hshort : b.instrs.length < 2 ^ 32)
    (hg : FirstUsed A s) (ho : ItemOrder (touchAll ∅ (touches b)) items)
    (ha : allocate items = .ok asg) : ∃ M, MergedBy (touchAll ∅ (touches b)) asg [1] M := by
  have hin : ∀ {j i v}, A[j]? = some i → v ∈ i.vregs → (v, j) ∈ touches b := by
    intro j i v hj hv
    have hlt := (List.getElem?_eq_some_iff.mp hj).1
    refine (mem_touches hshort).mpr (Or.inl ⟨i, ?_, hv⟩)
    rw [hb, List.getElem?_append_left hlt]
    exact hj
  refine merged_alone ho ha fun lr hl w lr' hw hw' => ?_
  obtain ⟨i, hi, h1⟩ := hg.fst
  have hstart : lr.start ≤ s :=
    (((lookup_touchAll _ 1).1 lr hl).lower s (hin hi h1)).resolve_left hg.pos
  have hr := (lookup_touchAll _ w).1 lr' hw'
  suffices ∃ j, s < j ∧ (w, j) ∈ touches b by
    obtain ⟨j, hj, hwj⟩ := this
    exact (hstart.trans_lt hj).trans_le (hr.upper j hwj)
  rcases (mem_touches hshort).mp hr.start with ⟨c, hc, hwc⟩ | ⟨hj, hwt⟩
  · rcases Nat.lt_or_ge lr'.start A.length with hlt | hge
    · rw [hb, List.getElem?_append_left hlt] at hc
      obtain ⟨j', i', hj', hi', hv⟩ := hg.later _ c w hc hwc hw
      exact ⟨j', hj', hin hi' hv⟩
    · exact ⟨_, hg.lt.trans_le hge, hr.start⟩
  · refine ⟨_, ?_, hr.start⟩
    have hlt := hg.lt
    rw [hj, hb, List.length_append]
    omega

theorem firstUsed_load {c₀ c₁ c₂ : Instr} {W : List Instr} (h0 : c₀.vregs = [1])
    (h1 : 1 ∈ c₁.vregs) (h2 : ∀ v ∈ c₁.vregs, v ≠ 1 → v ∈ c₂.vregs) :
    FirstUsed (c₀ :: c₁ :: c₂ :: W) 1 where
  pos := one_ne_zero
  lt := by simp
  fst := ⟨c₁, rfl, h1⟩
  later j i v hj hv hne := by
    match j with
    | 0 =>
      cases hj
      rw [h0, List.mem_singleton] at hv
      exact absurd hv hne
    | 1 =>
      cases hj
      exact ⟨2, c₂, Nat.lt_succ_self 1, rfl, h2 v hv hne⟩
    | j + 2 => exact ⟨j + 2, i, by omega, hj, hv⟩

theorem firstUsed_store {c₀ c₁ c₂ c₃ : Instr} {W : List Instr} (h0 : c₀.vregs = [1])
    (h1 : c₁.vregs = [2]) (h2 : 1 ∈ c₂.vregs) (h3 : ∀ v ∈ c₂.vregs, v ≠ 1 → v ∈ c₃.vregs)
    (h4 : 2 ∈ c₃.vregs) : FirstUsed (c₀ :: c₁ :: c₂ :: c₃ :: W) 2 where
  pos := two_ne_zero
  lt := by simp
  fst := ⟨c₂, rfl, h2⟩
  later j i v hj hv hne := by
    match j with
    | 0 =>
      cases hj
      rw [h0, List.mem_singleton] at hv
      exact absurd hv hne
    | 1 =>
      cases hj
      rw [h1, List.mem_singleton] at hv
      exact ⟨3, c₃, by decide, rfl, hv ▸ h4⟩
    | 2 =>
      cases hj
      exact ⟨3, c₃, by decide, rfl, h3 v hv hne⟩
    | j + 3 => exact ⟨j + 3, i, by omega, hj, hv⟩

variable {start : BitVec 64} {k rd rs base : ℕ} {off ra : BitVec 64}

/-- The temporary of an address is read by the access behind it. -/
theorem addrCode_read (hk : addrReg k ≠ 0) (op : Op) (x : VReg) (o : BitVec 32) :
    1 ∈ (addrCode k 0).vregs ∧ ∀ v ∈ (addrCode k 0).vregs, v ≠ 1 →
      v ∈ (⟨op, [.regV x, .mem (addrReg k) o]⟩ : Instr).vregs := by
  have ha : (addrCode k 0).vregs = [addrReg k, 1] := rfl
  rw [ha]
  refine ⟨by simp, fun v hv hne => ?_⟩
  simp only [List.mem_cons, List.not_mem_nil, or_false] at hv
  rw [hv.resolve_right hne]
  simp [Instr.vregs, Operand.vregs, hk]

theorem loadWord_used (hk : addrReg k ≠ 0) (signed : Bool) :
    FirstUsed (segment start 0 k (.loadWord signed rd base off)) 1 := by
  obtain ⟨h1, h2⟩ := addrCode_read hk .LdrW 2 (off.setWidth 32)
  cases signed <;> exact firstUsed_load rfl h1 h2

theorem loadDouble_used (hk : addrReg k ≠ 0) :
    FirstUsed (segment start 0 k (.loadDouble rd base off)) 1 := by
  obtain ⟨h1, h2⟩ := addrCode_read hk .LdrX 2 (off.setWidth 32)
  exact firstUsed_load rfl h1 h2

theorem store_used (hk : addrReg k ≠ 0) (ty : IR.TypeKind) :
    FirstUsed (segment start 0 k (.store ty base rs off)) 2 := by
  obtain ⟨h1, h2⟩ := addrCode_read hk (storeOp ty) 2 (off.setWidth 32)
  exact firstUsed_store rfl rfl h1 h2 (List.mem_cons_self ..)

theorem link_only {i : Instr} (hi : i ∈ segment start 0 k (.link rd ra)) : i.vregs = [1] := by
  have hseg : segment start 0 k (.link rd ra) =
      constCode 1 ra ++ selectedAll start k (unnumbered (writeBack rd 0)) := rfl
  rw [hseg, List.mem_append] at hi
  rcases hi with hi | hi
  · exact constCode_vregs hi
  · exact (write_vregs hi).2

/-- Code starts with an instruction on the first register. -/
theorem segment_head {l : Lowering} (hl : l.size ≠ 0) :
    ∃ c cs, segment start 0 k l = c :: cs ∧ c.vregs = [1] := by
  have htwo : ∀ {dead p}, OnTwo dead p (segment start 0 k l) →
      ∃ c cs, segment start 0 k l = c :: cs ∧ c.vregs = [1] := by
    intro dead p h
    generalize segment start 0 k l = A at h
    cases h with
    | mk hc => exact ⟨_, _, rfl, hc⟩
  cases l with
  | alu op rd rs1 src => exact htwo onTwo_alu.choose_spec
  | addWord rd rs1 src => exact htwo onTwo_addWord.choose_spec
  | loadWord signed rd base off => cases signed <;> exact ⟨_, _, rfl, rfl⟩
  | loadDouble rd base off => exact ⟨_, _, rfl, rfl⟩
  | store ty base rs off => exact ⟨_, _, rfl, rfl⟩
  | compare c rs1 rs2 => exact htwo onTwo_compare.choose_spec
  | auipc rd i => exact htwo onTwo_auipc.choose_spec
  | link rd ra =>
    obtain ⟨c, cs, hc⟩ := List.exists_cons_of_length_pos (constCode_pos 1 ra)
    refine ⟨c, cs ++ selectedAll start k (unnumbered (writeBack rd 0)), ?_,
      constCode_vregs (hc ▸ List.mem_cons_self ..)⟩
    rw [← List.cons_append, ← hc]
    rfl
  | jumpReg rd base off ra => exact htwo onTwo_jumpReg.choose_spec
  | nothing => exact absurd rfl hl

end Alone

end Riscy.AArch64
