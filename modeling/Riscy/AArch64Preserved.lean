import Riscy.AArch64FirstLowering
import Riscy.RISCVReach
import Riscy.Translate

/-! When an allocated block computes what the block over virtual registers computes. Only the
first instruction with code is at risk: its first operand may be lost to the second one, or
to its result. The block is preserved if that makes no difference. -/
namespace Riscy.AArch64
open IR (Payload)
open RISCV

section Terminator
variable {mem : MemoryReader} {cfg : CFG} {bb : BasicBlock}

theorem condOf_of_isCondBranch {op : Opcode} (h : isCondBranch op) :
    ∃ c, RISCV.condOf op = some c := by
  cases op <;> first
    | exact ⟨_, rfl⟩
    | exact absurd h (by decide)

/-- The value that a terminator names is value 0, a comparison, or the last value of an
indirect jump; and it is named only if there is code. -/
theorem term_ids (h : BlockExit mem cfg bb) {v : ℕ} (hv : v ∈ termIds (lifted bb).term) :
    (∃ i ∈ bb.insts, (lowering i).size ≠ 0) ∧ (v = 0 ∨
      (∃ i ∈ emitted 0 bb.insts, isICmp i.payload ∧ i.dest = some v) ∨
        ∃ n, n + 5 < irSize bb.insts ∧ v = valueAt (n + 5)) := by
  change v ∈ termIds (liftTerm bb (emitted 0 bb.insts)) at hv
  unfold liftTerm at hv
  cases h with
  | branch hl hop ho ht hs =>
    rw [ht] at hv
    obtain ⟨c, hc⟩ := condOf_of_isCondBranch hop
    refine ⟨⟨_, List.mem_of_getLast? hl, ?_⟩, ?_⟩
    · simp [lowering, ho, hc, Lowering.size, Lowering.values]
    · rw [List.mem_singleton.mp hv]
      exact (branchCond_cases _).imp_right Or.inl
  | @indirect last rd base off hl hop ho hn ht hs =>
    rw [ht] at hv
    have hlow : lowering last = .jumpReg rd base off (last.pc + 4) := by
      simp only [lowering, ho, hop]
    refine ⟨⟨_, List.mem_of_getLast? hl, ?_⟩, ?_⟩
    · simp [hlow, Lowering.size, Lowering.values]
    · obtain ⟨body, hb⟩ := List.getLast?_eq_some_iff.mp hl
      rw [List.mem_singleton.mp hv, hb, indirectTarget_eq hlow]
      split_ifs with hrd
      · refine Or.inr (Or.inr ⟨irSize body, ?_, rfl⟩)
        have hsize : 6 ≤ (Lowering.jumpReg rd base off (last.pc + 4)).size := Nat.le_add_right ..
        rw [irSize_append, irSize_cons, hlow]
        omega
      · exact Or.inl rfl
  | jump hl hop ho ht hs => rw [ht] at hv; cases hv
  | ret hl hop ho ht hs => rw [ht] at hv; cases hv
  | trap hl hop ht hs => rw [ht] at hv; cases hv
  | undecoded hi hd ht hs => rw [ht] at hv; cases hv
  | fallthrough hi hne ht hs hb => rw [ht] at hv; cases hv

theorem values_icmp {n : ℕ} {l : Lowering} {p : Payload} (hp : p ∈ l.values n) (hc : isICmp p) :
    ∃ c r s, l = .compare c r s := by
  cases l with
  | compare c r s => exact ⟨c, r, s, rfl⟩
  | nothing => cases hp
  | alu op rd rs1 src =>
    cases src <;> simp only [Lowering.values, Source.payload, List.mem_cons, List.not_mem_nil,
      or_false] at hp <;> rcases hp with rfl | rfl | rfl <;> cases hc
  | addWord rd rs1 src =>
    cases src <;> simp only [Lowering.values, Source.payload, List.mem_cons, List.not_mem_nil,
      or_false] at hp <;> rcases hp with rfl | rfl | rfl | rfl | rfl <;> cases hc
  | loadWord signed rd base off =>
    cases signed <;> simp only [Lowering.values, List.mem_cons, List.not_mem_nil, or_false, if_true,
      Bool.false_eq_true, if_false] at hp <;> rcases hp with rfl | rfl | rfl <;> cases hc
  | loadDouble rd base off =>
    simp only [Lowering.values, List.mem_cons, List.not_mem_nil, or_false] at hp
    rcases hp with rfl | rfl <;> cases hc
  | store ty base rs off =>
    simp only [Lowering.values, List.mem_cons, List.not_mem_nil, or_false] at hp
    rcases hp with rfl | rfl <;> cases hc
  | auipc rd i =>
    simp only [Lowering.values, List.mem_cons, List.not_mem_nil, or_false] at hp
    rcases hp with rfl | rfl | rfl <;> cases hc
  | link rd ra =>
    rw [List.mem_singleton.mp hp] at hc
    cases hc
  | jumpReg rd base off ra =>
    simp only [Lowering.values, List.mem_cons, List.not_mem_nil, or_false] at hp
    rcases hp with rfl | rfl | rfl | rfl | rfl | rfl <;> cases hc

/-- Comparisons are the third values of branches. -/
theorem icmp_code {n d : ℕ} {l : Lowering} {i : IR.Instr} (hi : i ∈ l.code n)
    (hc : isICmp i.payload) (hd : i.dest = some d) :
    (∃ c r s, l = .compare c r s) ∧ d = valueAt (n + 2) := by
  rcases List.mem_append.mp hi with hi | hi
  · have hp := List.mem_map_of_mem (f := IR.Instr.payload) hi
    rw [numbered_payloads] at hp
    obtain ⟨c, r, s, rfl⟩ := values_icmp hp hc
    simp only [Lowering.values, numbered, List.mem_cons, List.not_mem_nil, or_false] at hi
    rcases hi with rfl | rfl | rfl
    · cases hc
    · cases hc
    · cases hd
      exact ⟨⟨c, r, s, rfl⟩, rfl⟩
  · obtain ⟨p, -, rfl⟩ := List.mem_map.mp hi
    cases hd

end Terminator

section Opening

theorem emitted_skip {pre : List DecodedInst} (h : ∀ j ∈ pre, (lowering j).size = 0) (n : ℕ)
    (is : List DecodedInst) : emitted n (pre ++ is) = emitted n is := by
  have hnil : emitted n pre = [] := by
    rw [← List.length_eq_zero_iff, emitted_length, irSize_zero h]
  rw [emitted_append, hnil]
  rfl

variable {mem : MemoryReader} {cfg : CFG} {bb : BasicBlock}

/-- The first instruction of a block that has code, and what follows it. -/
structure Opening (bb : BasicBlock) (i : DecodedInst) (rest : List DecodedInst) : Prop where
  split : ∃ pre, bb.insts = pre ++ i :: rest ∧ ∀ j ∈ pre, (lowering j).size = 0
  code : (lowering i).size ≠ 0

/-- Positions and registers of the block are 32-bit numbers. -/
def Short (bb : BasicBlock) : Prop :=
  (selectedBlock (lifted bb)).instrs.length < 2 ^ 32 ∧
    (0 < addrCounts bb.insts → irSize bb.insts + 1 + addrCounts bb.insts < 2 ^ 32)

instance : Decidable (Short bb) := inferInstanceAs (Decidable (_ ∧ _))

theorem opening_cases (bb : BasicBlock) :
    (∀ i ∈ bb.insts, (lowering i).size = 0) ∨ ∃ i rest, Opening bb i rest := by
  rcases emitted_first bb.insts with h | ⟨pre, i, rest, hb, hpre, hi⟩
  · exact Or.inl h
  · exact Or.inr ⟨i, rest, ⟨pre, hb, hpre⟩, hi⟩

variable {i : DecodedInst} {rest : List DecodedInst}

theorem Opening.emitted (h : Opening bb i rest) : RISCV.emitted 0 bb.insts =
    (lowering i).code 0 ++ RISCV.emitted (lowering i).size rest := by
  obtain ⟨pre, hb, hpre⟩ := h.split
  rw [hb, emitted_skip hpre, emitted_cons, Nat.zero_add]

theorem Opening.first (h : Opening bb i rest) : firstLowering bb.insts = lowering i := by
  obtain ⟨pre, hb, hpre⟩ := h.split
  rw [hb, firstLowering_append hpre h.code]

theorem Opening.sizes (h : Opening bb i rest) :
    irSize bb.insts = (lowering i).size + irSize rest ∧
      addrCounts bb.insts = addrCount (lowering i) + addrCounts rest := by
  have hl := congrArg List.length h.emitted
  have ht := congrArg tempCount h.emitted
  rw [List.length_append, emitted_length, emitted_length, code_length] at hl
  rw [tempCount_append, tempCount_emitted, tempCount_emitted, tempCount_code] at ht
  exact ⟨hl, ht⟩

/-- The code behind that of the first instruction. -/
def tailCode (bb : BasicBlock) (i : DecodedInst) (rest : List DecodedInst) : List Instr :=
  segments bb.start (lowering i).size (irSize bb.insts + 1 + addrCount (lowering i)) rest

theorem Opening.instrs (h : Opening bb i rest) : (selectedBlock (lifted bb)).instrs =
    segment bb.start 0 (irSize bb.insts + 1) (lowering i) ++ tailCode bb i rest := by
  change selectedAll bb.start ((lifted bb).insts.length + 1) (RISCV.emitted 0 bb.insts) = _
  rw [lifted_length, h.emitted, selectedAll_append, tempCount_code]
  rfl

theorem Short.values (hs : Short bb) : irSize bb.insts < 2 ^ 32 := by
  have hle := lifted_length_le bb
  have hlen := hs.1
  omega

theorem Opening.later (h : Opening bb i rest) (hs : Short bb) {c : Instr}
    (hc : c ∈ tailCode bb i rest) {v : ℕ} (hv : v ∈ c.vregs) : (lowering i).size < v := by
  obtain ⟨hvalues, hbound⟩ := And.intro hs.values hs.2
  obtain ⟨hsize, hcounts⟩ := h.sizes
  have hb := segments_vregs (by omega) (by omega) hc hv
  simp only [Between] at hb
  omega

theorem term_vregs {v : VReg} (hv : v ∈ (selectedBlock (lifted bb)).term.vregs) :
    ∃ id ∈ termIds (lifted bb).term, v = id + 1 := by
  have hmap : (selectedBlock (lifted bb)).term.vregs = (termIds (lifted bb).term).map valueReg :=
    selectedTerm_vregs
  rw [hmap] at hv
  obtain ⟨id, hid, rfl⟩ := List.mem_map.mp hv
  exact ⟨id, hid, rfl⟩

/-- The register that the terminator reads. -/
theorem Opening.term (h : Opening bb i rest) (hs : Short bb) (hexit : BlockExit mem cfg bb) {v : ℕ}
    (hv : v ∈ (selectedBlock (lifted bb)).term.vregs) : v = 1 ∨ (lowering i).size < v ∨
      v = 3 ∧ (∃ c r s, lowering i = .compare c r s) ∨ 6 ≤ v := by
  have hbound := hs.values
  obtain ⟨hsize, -⟩ := h.sizes
  obtain ⟨id, hid, hv'⟩ := term_vregs hv
  subst hv'
  rcases (term_ids hexit hid).2 with rfl | ⟨j, hj, hc, hd⟩ | ⟨n, hn, rfl⟩
  · exact Or.inl rfl
  · rw [h.emitted] at hj
    rcases List.mem_append.mp hj with hj | hj
    · obtain ⟨hcmp, rfl⟩ := icmp_code hj hc hd
      exact Or.inr (Or.inr (Or.inl ⟨rfl, hcmp⟩))
    · have hin : id ∈ valueIds j := by simp [valueIds, hd]
      have hlt := (emitted_ids (by omega) hj hin).1
      exact Or.inr (Or.inl (Nat.lt_succ_of_le hlt))
  · have hval : valueAt (n + 5) = n + 5 := Nat.mod_eq_of_lt (by omega)
    rw [hval]
    exact Or.inr (Or.inr (Or.inr (by omega)))

/-- A value that an instruction of the block defines is written by a line. -/
theorem line_of_dest {is : List IR.Instr} {start : BitVec 64} {k : ℕ} {j : IR.Instr} {ln : VName}
    (hj : j ∈ is) (h : ∀ k, ∃ l ∈ selectedLines start k j, l.dest = some ln) :
    ∃ l ∈ linesAll start k is, l.dest = some ln := by
  induction is generalizing k with
  | nil => cases hj
  | cons j' is ih =>
    rcases List.mem_cons.mp hj with rfl | hj
    · obtain ⟨l, hl, hd⟩ := h k
      exact ⟨l, List.mem_append_left _ hl, hd⟩
    · obtain ⟨l, hl, hd⟩ := @ih (k + temps j') hj
      exact ⟨l, List.mem_append_right _ hl, hd⟩

theorem dest_written {d k : ℕ} {j : IR.Instr} (hj : j ∈ RISCV.emitted 0 bb.insts)
    (hd : j.dest = some d) :
    ∃ l ∈ linesAll bb.start k (RISCV.emitted 0 bb.insts), l.dest = some (valueName d) := by
  obtain ⟨inst, -, m, hm⟩ := emitted_code hj
  exact line_of_dest hj fun k => code_defines hm hd

/-- The first value of code. -/
theorem code_first {l : Lowering} (h : l.size ≠ 0) : ∃ j ∈ l.code 0, j.dest = some 0 := by
  cases l with
  | nothing => exact absurd rfl h
  | _ => exact ⟨_, List.mem_cons_self .., rfl⟩

theorem lifted_nil (hnone : ∀ i ∈ bb.insts, (lowering i).size = 0) :
    (selectedBlock (lifted bb)).instrs = [] := by
  have hemit : (lifted bb).insts = [] := by
    rw [← List.length_eq_zero_iff, lifted_length, irSize_zero hnone]
  change selectedAll _ _ (lifted bb).insts = []
  rw [hemit]
  rfl

/-- The lines of a short block. -/
theorem lifted_lines (hexit : BlockExit mem cfg bb) (hs : Short bb) :
    Lines (selectedBlock (lifted bb))
      (linesAll bb.start ((lifted bb).insts.length + 1) (lifted bb).insts) where
  body := matches_selectedAll
  short := hs.1
  defined := by
    have hread : DefinedFrom (fun v => v ∈ (selectedBlock (lifted bb)).term.vregs)
        (termLines (selectedBlock (lifted bb)).term) := by
      have hlen := termLines_length (selectedBlock (lifted bb)).term
      have hocc := fun l (hl : l ∈ termLines (selectedBlock (lifted bb)).term) =>
        (termLines_occurs hl).1
      match hls : termLines (selectedBlock (lifted bb)).term with
      | [] => trivial
      | [l] =>
        rw [hls] at hocc
        exact defined_one fun v hv => (hocc l (List.mem_singleton_self l) v).mp (Or.inl hv)
      | _ :: _ :: _ =>
        have hone := Terminator.vregs_length (selectedBlock (lifted bb)).term
        rw [← hlen, hls] at hone
        simp at hone
    refine (emitted_defined 0 bb.insts).append (fun v hv => Or.inr ?_) hread
    obtain ⟨id, hid, rfl⟩ := term_vregs hv
    rcases lifted_termIds hid with rfl | ⟨j, hj, hd⟩
    · obtain ⟨inst, hinst, hsize⟩ := (term_ids hexit hid).1
      rcases opening_cases bb with hnone | ⟨i, rest, hopen⟩
      · exact absurd (hnone inst hinst) hsize
      · obtain ⟨j, hj, hd⟩ := code_first hopen.code
        refine dest_written ?_ hd
        rw [hopen.emitted]
        exact List.mem_append_left _ hj
    · exact dest_written hj hd
  first i v hi hv := by
    rcases opening_cases bb with hnone | ⟨inst, rest, hopen⟩
    · rw [lifted_nil hnone] at hi
      cases hi
    · obtain ⟨c, cs, hseg, hc⟩ := @segment_head bb.start (irSize bb.insts + 1) _ hopen.code
      rw [hopen.instrs, hseg] at hi
      cases hi
      rw [hc] at hv
      exact List.mem_singleton.mp hv

end Opening

/-- The registers that may get the place of the first one when code starts like this: the second
operand, and a result that is not used. -/
def merges : Lowering → List (List VReg)
  | .alu _ rd _ _ | .auipc rd _ => if rd = 0 then [[1, 2], [1, 2, 3]] else [[1, 2]]
  | .addWord .. | .compare .. | .jumpReg .. => [[1, 2]]
  | .loadWord .. | .loadDouble .. | .store .. | .link .. | .nothing => []

section Places
variable {mem : MemoryReader} {cfg : CFG} {bb : BasicBlock} {i : DecodedInst}
  {rest : List DecodedInst} {items : List Item} {asg : RegAssignment}

/-- Code on two operands. -/
structure TwoCode (start : BitVec 64) (k : ℕ) (l : Lowering) (dead : Prop) (p : ℕ) : Prop where
  code : OnTwo dead p (segment start 0 k l)
  size : 3 ≤ l.size
  unused : dead → ¬ ∃ c r s, l = .compare c r s
  places : ∀ K, K ∈ merges l ↔ K = [1, 2] ∨ dead ∧ K = [1, 2, 3]

theorem mem_merges_if {rd : ℕ} {K : List VReg} :
    K ∈ (if rd = 0 then [[1, 2], [1, 2, 3]] else [[1, 2]] : List (List VReg)) ↔
      K = [1, 2] ∨ rd = 0 ∧ K = [1, 2, 3] := by
  split_ifs with h <;> simp [h]

theorem mem_merges_pair {K : List VReg} :
    K ∈ ([[1, 2]] : List (List VReg)) ↔ K = [1, 2] ∨ False ∧ K = [1, 2, 3] := by
  simp

theorem twoCode {start : BitVec 64} {k : ℕ} {l : Lowering} (h : merges l ≠ []) :
    ∃ dead p, TwoCode start k l dead p := by
  cases l with
  | alu op rd rs1 src =>
    obtain ⟨p, hp⟩ := @onTwo_alu start k rd rs1 op src
    refine ⟨_, p, hp, Nat.le_add_right .., ?_, fun K => mem_merges_if⟩
    rintro - ⟨_, _, _, he⟩
    cases he
  | auipc rd v =>
    obtain ⟨p, hp⟩ := @onTwo_auipc start k rd v
    refine ⟨_, p, hp, Nat.le_add_right .., ?_, fun K => mem_merges_if⟩
    rintro - ⟨_, _, _, he⟩
    cases he
  | addWord rd rs1 src =>
    obtain ⟨p, hp⟩ := @onTwo_addWord start k rd rs1 src
    exact ⟨_, p, hp, Nat.le_add_right_of_le (show 3 ≤ 5 by decide), False.elim,
      fun K => mem_merges_pair⟩
  | compare c rs1 rs2 =>
    obtain ⟨p, hp⟩ := @onTwo_compare start k rs1 rs2 c
    exact ⟨_, p, hp, Nat.le_add_right .., False.elim, fun K => mem_merges_pair⟩
  | jumpReg rd base off ra =>
    obtain ⟨p, hp⟩ := @onTwo_jumpReg start k rd off ra base
    exact ⟨_, p, hp, Nat.le_add_right_of_le (show 3 ≤ 6 by decide), False.elim,
      fun K => mem_merges_pair⟩
  | _ => exact absurd rfl h

theorem Opening.opens (h : Opening bb i rest) (hs : Short bb) (hexit : BlockExit mem cfg bb)
    (hsize : 3 ≤ (lowering i).size) : Opens (selectedBlock (lifted bb))
      (segment bb.start 0 (irSize bb.insts + 1) (lowering i)) (tailCode bb i rest) where
  instrs := h.instrs
  short := hs.1
  later c hc v hv := hsize.trans_lt (h.later hs hc hv)
  term v hv := by
    rintro rfl
    rcases h.term hs hexit hv with hv | hv | ⟨hv, -⟩ | hv
    · cases hv
    · exact absurd (hsize.trans_lt hv) (by decide)
    · cases hv
    · exact absurd hv (by decide)

theorem Opening.unused (h : Opening bb i rest) (hs : Short bb) (hexit : BlockExit mem cfg bb)
    (hsize : 3 ≤ (lowering i).size) (hcmp : ¬ ∃ c r s, lowering i = .compare c r s) :
    3 ∉ (selectedBlock (lifted bb)).term.vregs := by
  intro hv
  rcases h.term hs hexit hv with hv | hv | ⟨-, hv⟩ | hv
  · cases hv
  · exact absurd (hsize.trans_lt hv) (lt_irrefl 3)
  · exact hcmp hv
  · exact absurd hv (by decide)

theorem Opening.temp (h : Opening bb i rest) (hs : Short bb) (hone : addrCount (lowering i) = 1) :
    addrReg (irSize bb.insts + 1) ≠ 0 := by
  have hbound := hs.2
  have hcounts := h.sizes.2
  change (irSize bb.insts + 1 + 1) % 2 ^ 32 ≠ (0 : ℕ)
  omega

/-- Registers of a block whose only code is that of a JAL. -/
theorem link_touches (h : Opening bb i []) {rd : ℕ} {ra : BitVec 64} (hl : lowering i = .link rd ra)
    (hs : Short bb) (hexit : BlockExit mem cfg bb) {v j : ℕ}
    (hv : (v, j) ∈ touches (selectedBlock (lifted bb))) : v = 1 := by
  rcases (mem_touches hs.1).mp hv with ⟨c, hc, hvc⟩ | ⟨-, hvt⟩
  · rw [h.instrs, hl] at hc
    have hnil : tailCode bb i [] = [] := rfl
    rw [hnil, List.append_nil] at hc
    rw [link_only (List.mem_of_getElem? hc)] at hvc
    exact List.mem_singleton.mp hvc
  · obtain ⟨id, hid, rfl⟩ := term_vregs hvt
    rcases (term_ids hexit hid).2 with rfl | ⟨j, hj, hc, hd⟩ | ⟨n, hn, -⟩
    · rfl
    · rw [h.emitted, hl] at hj
      change j ∈ _ ++ [] at hj
      rw [List.append_nil] at hj
      obtain ⟨⟨c, r, s, he⟩, -⟩ := icmp_code hj hc hd
      cases he
    · have hsize := h.sizes.1
      have hle : (Lowering.link rd ra).size ≤ 2 := by
        simp only [Lowering.size, Lowering.values, Lowering.writes, writeBack]
        split_ifs <;> simp
      rw [hl, irSize_nil] at hsize
      omega

/-- A JAL ends its block. -/
theorem Opening.link_last (h : Opening bb i rest) (hb : WellBuilt mem bb) {rd : ℕ}
    {ra : BitVec 64} (hl : lowering i = .link rd ra) : rest = [] := by
  obtain ⟨body, tail, hsplit, hbody, htail⟩ := WellBuilt.split hb
  obtain ⟨pre, hpre, -⟩ := h.split
  by_contra hne
  have hin : i ∈ body := by
    have hlen := congrArg List.length hsplit
    have hpos := List.length_pos_of_ne_nil hne
    rw [hpre] at hlen hsplit
    simp only [List.length_append, List.length_cons] at hlen
    have hget := congrArg (fun l : List DecodedInst => l[pre.length]?) hsplit
    simp only [List.getElem?_append_right le_rfl, Nat.sub_self, List.getElem?_cons_zero] at hget
    rw [List.getElem?_append_left (by omega)] at hget
    exact List.mem_of_getElem? hget.symm
  refine hbody i hin ?_
  rw [hl]
  trivial

theorem no_touches (hnone : ∀ i ∈ bb.insts, (lowering i).size = 0) (hexit : BlockExit mem cfg bb)
    (hs : Short bb) (v : VReg) (j : ℕ) : (v, j) ∉ touches (selectedBlock (lifted bb)) := by
  intro hv
  rcases (mem_touches hs.1).mp hv with ⟨c, hc, -⟩ | ⟨-, hvt⟩
  · rw [lifted_nil hnone] at hc
    cases hc
  · obtain ⟨id, hid, -⟩ := term_vregs hvt
    obtain ⟨inst, hinst, hsize⟩ := (term_ids hexit hid).1
    exact hsize (hnone inst hinst)

/-- Where code does not start on two operands, the first register has its own place. -/
theorem merged_own (hb : WellBuilt mem bb) (hexit : BlockExit mem cfg bb) (hs : Short bb)
    (hno : merges (firstLowering bb.insts) = []) (ho : ItemOrder (liveMap bb) items)
    (ha : allocate items = .ok asg) : ∃ M, MergedBy (liveMap bb) asg [1] M := by
  rcases opening_cases bb with hnone | ⟨i, rest, hopen⟩
  · exact merged_only (fun v j hv => absurd hv (no_touches hnone hexit hs v j)) ho ha
  · rw [hopen.first] at hno
    have hused : ∀ s, FirstUsed (segment bb.start 0 (irSize bb.insts + 1) (lowering i)) s →
        ∃ M, MergedBy (liveMap bb) asg [1] M :=
      fun s h => merged_used hopen.instrs hs.1 h ho ha
    have hmem : [1, 2] ∉ merges (lowering i) := by
      rw [hno]
      exact List.not_mem_nil
    cases hl : lowering i with
    | loadWord signed rd base off =>
      exact hused 1 (hl ▸ loadWord_used (hopen.temp hs (hl ▸ rfl)) signed)
    | loadDouble rd base off => exact hused 1 (hl ▸ loadDouble_used (hopen.temp hs (hl ▸ rfl)))
    | store ty base rs off => exact hused 2 (hl ▸ store_used (hopen.temp hs (hl ▸ rfl)) ty)
    | link rd ra =>
      obtain rfl := hopen.link_last hb hl
      exact merged_only (fun v j hv => link_touches hopen hl hs hexit hv) ho ha
    | nothing => exact absurd (hl ▸ rfl) hopen.code
    | alu | auipc => exact absurd (hl ▸ mem_merges_if.mpr (Or.inl rfl)) hmem
    | addWord | compare | jumpReg => exact absurd (hl ▸ List.mem_singleton_self _) hmem

theorem liveMap_sorted (hs : Short bb) :
    (touches (selectedBlock (lifted bb))).Pairwise fun e e' => e.2 ≤ e'.2 :=
  touches_sorted (Block.inRange_of_short hs.1)

/-- Every order of the registers of a short block is allocated. -/
theorem Short.allocate_ok (hs : Short bb) (ho : ItemOrder (liveMap bb) items) :
    ∃ asg, allocate items = .ok asg := by
  have hlen := hs.1
  have hinstrs : (selectedBlock (lifted bb)).instrs =
      segments bb.start 0 (irSize bb.insts + 1) bb.insts ++ [] := by
    rw [List.append_nil]
    change selectedAll bb.start ((lifted bb).insts.length + 1) (RISCV.emitted 0 bb.insts) = _
    rw [lifted_length]
    rfl
  refine ho.allocate_ok (split_pressure (selectedBlock (lifted bb)).term.vregs rfl hinstrs ?_
    (Nat.lt_succ_self _) hs.values hs.2 ?_ (fun i hi => by cases hi) (fun v hv => hv) ho)
  · rw [hinstrs, List.append_nil] at hlen
    exact hlen.le
  · exact (Terminator.vregs_length _).trans (by decide)

variable {dead : Prop} {p : ℕ}

/-- The places that an order leaves to the registers of the first instruction. -/
theorem TwoCode.merged (ht : TwoCode bb.start (irSize bb.insts + 1) (lowering i) dead p)
    (h : Opening bb i rest) (hs : Short bb) (hexit : BlockExit mem cfg bb)
    (ho : ItemOrder (liveMap bb) items) (ha : allocate items = .ok asg) :
    ∃ M K, MergedBy (liveMap bb) asg K M ∧ (K = [1] ∨ K ∈ merges (lowering i)) := by
  have hopens := h.opens hs hexit ht.size
  have hresult := hopens.lookup_result ht.code fun hd => h.unused hs hexit ht.size (ht.unused hd)
  obtain ⟨M, hm | hm | ⟨h3, hm⟩⟩ :=
    (hopens.twoOperands ht.code).mergedBy (liveMap_sorted hs) ho ha
  · exact ⟨M, _, hm, Or.inl rfl⟩
  · exact ⟨M, _, hm, Or.inr ((ht.places _).mpr (Or.inl rfl))⟩
  · exact ⟨M, _, hm, Or.inr ((ht.places _).mpr (Or.inr ⟨hresult.mp h3, rfl⟩))⟩

/-- Each of these places is left by some order. -/
theorem TwoCode.exists_order (ht : TwoCode bb.start (irSize bb.insts + 1) (lowering i) dead p)
    (h : Opening bb i rest) (hs : Short bb) (hexit : BlockExit mem cfg bb) {K : List VReg}
    (hK : K ∈ merges (lowering i)) : ∃ items asg M, ItemOrder (liveMap bb) items ∧
      allocate items = .ok asg ∧ MergedBy (liveMap bb) asg K M := by
  have hopens := h.opens hs hexit ht.size
  have hresult := hopens.lookup_result ht.code fun hd => h.unused hs hexit ht.size (ht.unused hd)
  have htwo := hopens.twoOperands ht.code
  have hok : ∀ items, ItemOrder (liveMap bb) items → ∃ asg, allocate items = .ok asg :=
    fun items ho => hs.allocate_ok ho
  rcases (ht.places K).mp hK with rfl | ⟨hd, rfl⟩
  · exact htwo.exists_two (liveMap_sorted hs) hok (sortedItems_order _)
  · exact htwo.exists_three (liveMap_sorted hs) hok (sortedItems_order _) (hresult.mpr hd)

end Places

section Preservation
variable {mem : MemoryReader} {entry : BitVec 64} {cfg : CFG} {bb : BasicBlock}

/-- The block over virtual registers that never interfere. -/
def virtualAsm (bb : BasicBlock) : AsmBlock VName :=
  ⟨blockLabel bb.start, blockLines (lifted bb), termJumps (selectedTerm (lifted bb).term)⟩

/-- In the guest state `t` the allocated block leaves what the block over virtual registers
leaves, whatever order the allocation meets the registers in, and whatever the host registers
hold. -/
def Preserves (bb : BasicBlock) (t : Rest) : Prop :=
  ∃ ir blk live vasm, lift bb = .ok ir ∧ select ir = .ok blk ∧ analyze blk = .ok live ∧
    virtualBlock blk = .ok vasm ∧ ∀ items, ItemOrder live items → ∃ asg asm,
      allocate items = .ok asg ∧ emitBlock blk asg = .ok asm ∧
        ∀ q r, q 0 = t.addr → r (.phys 0) = t.addr →
          asm.outcome 0 1 (t.host q) = vasm.outcome (.phys 0) (.phys 1) (t.host r)

/-- In the guest state `t` it makes no difference to the block over virtual registers if its
first instruction with code takes its second operand, or its unused result, for the first. -/
def Harmless (bb : BasicBlock) (t : Rest) : Prop :=
  ∀ K ∈ merges (firstLowering bb.insts), ∀ r, r (.phys 0) = t.addr →
    (mergedBlock K (virtualAsm bb)).outcome (.phys 0) (.phys 1) (t.host r) =
      (virtualAsm bb).outcome (.phys 0) (.phys 1) (t.host r)

theorem mergedBlock_one (b : AsmBlock VName) : mergedBlock [1] b = b := by
  have hid : merged [1] = id := by
    funext n
    cases n with
    | phys p => rfl
    | virt v =>
      change (if v ∈ [1] then VName.virt 1 else .virt v) = .virt v
      split_ifs with hv
      · rw [List.mem_singleton.mp hv]
      · rfl
  have hmap : (Line.map id : Line VName → Line VName) = id := funext Line.map_id
  rw [mergedBlock, hid, hmap, List.map_id]

/-- What the passes make of a short block. -/
structure Passes (bb : BasicBlock) : Prop where
  lift : RISCV.lift bb = .ok (lifted bb)
  select : AArch64.select (lifted bb) = .ok (selectedBlock (lifted bb))
  analyze : AArch64.analyze (selectedBlock (lifted bb)) = .ok (liveMap bb)
  virtual : virtualBlock (selectedBlock (lifted bb)) = .ok (virtualAsm bb)

theorem Short.passes (hs : Short bb) (hb : WellBuilt mem bb) : Passes bb where
  lift := hb.lift_eq
  select := by
    exact select_eq (lifted_selectOk hs.values)
  analyze := analyze_eq (selectedTerm_complete _)
  virtual := virtualBlock_eq (liftTerm_ok ..)

/-- What the passes give for a block, whatever their results are called. -/
theorem Passes.results (hp : Passes bb) {ir : IR.Block} {blk : Block} {live : LivenessMap}
    (hlift : RISCV.lift bb = .ok ir) (hsel : AArch64.select ir = .ok blk)
    (hlive : AArch64.analyze blk = .ok live) :
    blk = selectedBlock (lifted bb) ∧ live = liveMap bb := by
  obtain rfl := Except.ok.inj (hlift.symm.trans hp.lift)
  obtain rfl := Except.ok.inj (hsel.symm.trans hp.select)
  exact ⟨rfl, Except.ok.inj (hlive.symm.trans hp.analyze)⟩

variable {items : List Item} {asg : RegAssignment} {t : Rest}

/-- The allocated block leaves what the merged block leaves. -/
theorem merged_outcome (hexit : BlockExit mem cfg bb) (hs : Short bb)
    (ho : ItemOrder (liveMap bb) items) (ha : allocate items = .ok asg) {K : List VReg} {M : ℕ}
    (hm : MergedBy (liveMap bb) asg K M) :
    ∃ asm, emitBlock (selectedBlock (lifted bb)) asg = .ok asm ∧ ∀ q r, q 0 = t.addr →
      r (.phys 0) = t.addr → asm.outcome 0 1 (t.host q) =
        (mergedBlock K (virtualAsm bb)).outcome (.phys 0) (.phys 1) (t.host r) := by
  have has := assigned_of_allocate ho ha
  refine ⟨_, emitBlock_eq (liftTerm_ok ..) has.instrs has.term, fun q r hq hr => ?_⟩
  exact hm.outcome_eq (lifted_lines hexit hs) ho ha (blockLabel bb.start) hq hr

/-- Every order leaves one of the places. -/
theorem places (hb : WellBuilt mem bb) (hexit : BlockExit mem cfg bb) (hs : Short bb)
    (ho : ItemOrder (liveMap bb) items) (ha : allocate items = .ok asg) : ∃ M K,
      MergedBy (liveMap bb) asg K M ∧ (K = [1] ∨ K ∈ merges (firstLowering bb.insts)) := by
  by_cases hno : merges (firstLowering bb.insts) = []
  · obtain ⟨M, hm⟩ := merged_own hb hexit hs hno ho ha
    exact ⟨M, _, hm, Or.inl rfl⟩
  · rcases opening_cases bb with hnone | ⟨i, rest, hopen⟩
    · obtain ⟨M, hm⟩ := merged_only (fun v j hv => absurd hv (no_touches hnone hexit hs v j)) ho ha
      exact ⟨M, _, hm, Or.inl rfl⟩
    · rw [hopen.first] at hno ⊢
      obtain ⟨dead, p, ht⟩ := twoCode hno
      exact ht.merged hopen hs hexit ho ha

theorem preserves_of_harmless (hb : WellBuilt mem bb) (hexit : BlockExit mem cfg bb)
    (hs : Short bb) (h : Harmless bb t) : Preserves bb t := by
  have hp := hs.passes hb
  refine ⟨_, _, _, _, hp.lift, hp.select, hp.analyze, hp.virtual, fun items ho => ?_⟩
  obtain ⟨asg, ha⟩ := hs.allocate_ok ho
  obtain ⟨M, K, hm, hK⟩ := places hb hexit hs ho ha
  obtain ⟨asm, hasm, hout⟩ := merged_outcome (t := t) hexit hs ho ha hm
  refine ⟨asg, asm, ha, hasm, fun q r hq hr => (hout q r hq hr).trans ?_⟩
  rcases hK with rfl | hK
  · rw [mergedBlock_one]
  · exact h K hK r hr

theorem harmless_of_preserves (hb : WellBuilt mem bb) (hexit : BlockExit mem cfg bb)
    (hs : Short bb) (h : Preserves bb t) : Harmless bb t := by
  intro K hK r hr
  have hp := hs.passes hb
  obtain ⟨ir, blk, live, vasm, hlift, hsel, hlive, hvirt, hall⟩ := h
  obtain ⟨rfl, rfl⟩ := hp.results hlift hsel hlive
  obtain rfl := Except.ok.inj (hvirt.symm.trans hp.virtual)
  obtain ⟨items, asg, M, ho, ha, hm⟩ : ∃ items asg M, ItemOrder (liveMap bb) items ∧
      allocate items = .ok asg ∧ MergedBy (liveMap bb) asg K M := by
    rcases opening_cases bb with hnone | ⟨i, rest, hopen⟩
    · rw [firstLowering_none hnone] at hK
      cases hK
    · rw [hopen.first] at hK
      obtain ⟨dead, p, ht⟩ := twoCode (List.ne_nil_of_mem hK)
      exact ht.exists_order hopen hs hexit hK
  obtain ⟨asg', asm, ha', hasm, hout⟩ := hall items ho
  rw [ha] at ha'
  cases ha'
  obtain ⟨asm', hasm', hout'⟩ := merged_outcome (t := t) hexit hs ho ha hm
  rw [hasm] at hasm'
  cases hasm'
  obtain ⟨q, hq⟩ : ∃ q : PReg → BitVec 64, q 0 = t.addr := ⟨fun _ => t.addr, rfl⟩
  rw [← hout' q r hq hr, hout q r hq hr]

theorem preserves_iff (h : Builds mem entry cfg) (hbb : bb ∈ cfg.blocks) (hs : Short bb) :
    Preserves bb t ↔ Harmless bb t := by
  have hb := h.sound.built bb hbb
  have hexit := WellBuilt.blockExit h.sound hbb
  exact ⟨harmless_of_preserves hb hexit hs, preserves_of_harmless hb hexit hs⟩

end Preservation

section Lost

/-- `add x3, x1, x2` at 0 and a trap at 4. -/
def addReader : MemoryReader := fun a =>
  if a = 0 then some 0x002081b3 else if a = 4 then some 0x00000073 else none

def addBlock : BasicBlock :=
  ⟨0, [⟨0, 0x002081b3, .ADD, [.reg 3, .reg 1, .reg 2]⟩, ⟨4, 0x00000073, .ECALL, []⟩], .Trap, []⟩

def addCFG : CFG where
  entry := 0
  blocks := [addBlock]
  indexByAddr := (∅ : AddrIndex).insert 0 0

theorem add_builds : Builds addReader 0 addCFG := ⟨5, rfl⟩

/-- A guest state in which `x1` is 1 and all else is 0. -/
def oneState : Rest :=
  ⟨⟨false, false, false, false⟩, 0, fun k => if k = 1 then 1 else 0, fun _ => 0⟩

theorem add_preserves_iff : Preserves addBlock oneState ↔ Harmless addBlock oneState :=
  preserves_iff add_builds (List.mem_singleton_self _) (show Short addBlock by decide)

/-- The sum of `x1` and `x2` comes out as twice `x2`. -/
theorem add_not_harmless : ¬ Harmless addBlock oneState := by
  intro h
  have hout := h [1, 2] (by decide) (fun _ => 0) rfl
  have hword := congrArg (Option.map fun o => o.1 3) hout
  revert hword
  decide +kernel

theorem add_not_preserved : ¬ ∀ mem entry cfg, Builds mem entry cfg → ∀ bb ∈ cfg.blocks, ∀ t,
    Preserves bb t := by
  intro h
  have hb := add_builds.sound.built addBlock (List.mem_singleton_self _)
  have hexit := WellBuilt.blockExit add_builds.sound (List.mem_singleton_self addBlock)
  have hshort : Short addBlock := by decide
  exact add_not_harmless
    (harmless_of_preserves hb hexit hshort (h _ _ _ add_builds _ (List.mem_singleton_self _) _))

end Lost

end Riscy.AArch64
