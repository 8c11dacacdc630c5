import Riscy.AArch64Segments
import Riscy.AArch64RegAlloc

/-! Blocks that come from a CFG, as selection and allocation see them. -/
namespace Riscy.AArch64
open IR (TypeKind BinOpKind ICmpCond Payload)
open RISCV

/-- The lifted block. -/
def lifted (bb : BasicBlock) : IR.Block :=
  ⟨bb.start, emitted 0 bb.insts, liftTerm bb (emitted 0 bb.insts)⟩

theorem lifted_length (bb : BasicBlock) : (lifted bb).insts.length = irSize bb.insts :=
  emitted_length 0 bb.insts

theorem branchCond_cases (is : List IR.Instr) : branchCond is = 0 ∨
    ∃ i ∈ is, isICmp i.payload ∧ i.dest = some (branchCond is) := by
  unfold branchCond
  dsimp only
  cases hf : ((is.take (BitVec.ofNat 32 is.length).toInt.toNat).reverse.find?
      fun i => i.dest.isSome && isICmp i.payload) with
  | none => exact Or.inl rfl
  | some i =>
    have hmem : i ∈ is := List.mem_of_mem_take (List.mem_reverse.mp (List.mem_of_find?_eq_some hf))
    have hi := List.find?_some hf
    rw [Bool.and_eq_true] at hi
    obtain ⟨d, hd⟩ := Option.isSome_iff_exists.mp hi.1
    exact Or.inr ⟨i, hmem, hi.2, by simp [hd]⟩

theorem indirectTarget_cases (is : List IR.Instr) :
    indirectTarget is = 0 ∨ ∃ i ∈ is, i.dest = some (indirectTarget is) := by
  unfold indirectTarget
  cases hl : is.getLast? with
  | none => exact Or.inl rfl
  | some i =>
    cases hd : i.dest with
    | none => exact Or.inl (by simp [hd])
    | some d => exact Or.inr ⟨i, List.mem_of_getLast? hl, by simp [hd]⟩

theorem liftTerm_ok (bb : BasicBlock) (is : List IR.Instr) : TermOk (liftTerm bb is) := by
  unfold liftTerm
  cases bb.term <;> trivial

theorem lifted_termIds {bb : BasicBlock} {v : ℕ} (hv : v ∈ termIds (lifted bb).term) :
    v = 0 ∨ ∃ i ∈ (lifted bb).insts, i.dest = some v := by
  have hcond := branchCond_cases (emitted 0 bb.insts)
  have htarget := indirectTarget_cases (emitted 0 bb.insts)
  change v ∈ termIds (liftTerm bb (emitted 0 bb.insts)) at hv
  unfold liftTerm at hv
  cases hterm : bb.term <;> rw [hterm] at hv <;>
    simp only [termIds, List.not_mem_nil, List.mem_singleton] at hv
  · rw [hv]
    exact hcond.imp_right fun ⟨i, hi, _, hd⟩ => ⟨i, hi, hd⟩
  · rw [hv]
    exact htarget

/-- The values of a lifted block are in the map that selection starts with. -/
theorem lifted_mapped (bb : BasicBlock) : Mapped (lifted bb) := by
  have hids : ∀ i ∈ (lifted bb).insts, ∀ v ∈ valueIds i, v < irSize bb.insts := by
    intro i hi v hv
    have h := emitted_ids_lt (n := 0) hi hv
    omega
  constructor
  · intro i hi v hv
    rw [lifted_length]
    exact Nat.lt_succ_of_lt (hids i hi v hv)
  · exact liftTerm_ok ..
  · intro v hv
    rw [lifted_length]
    rcases lifted_termIds hv with rfl | ⟨i, hi, hd⟩
    · exact Nat.succ_pos _
    · exact Nat.lt_succ_of_lt (hids i hi v (by simp [valueIds, hd]))

theorem lifted_selectOk {bb : BasicBlock} (hn : irSize bb.insts < 2 ^ 32) :
    SelectOk (lifted bb) := by
  have h := lifted_mapped bb
  have hlen := lifted_length bb
  refine ⟨fun i hi v hv => ⟨h.insts i hi v hv, ?_⟩, h.term, fun v hv => ⟨h.termIds v hv, ?_⟩⟩
  · have hlt := emitted_ids_lt (n := 0) hi hv
    omega
  · rcases lifted_termIds hv with rfl | ⟨i, hi, hd⟩
    · omega
    · have hlt : v < 0 + irSize bb.insts := emitted_ids_lt hi (by simp [valueIds, hd])
      omega

theorem selectedTerm_vregs {t : IR.Terminator} :
    (selectedTerm t).vregs = (termIds t).map valueReg := by
  obtain ⟨kind, data⟩ := t
  cases kind <;> cases data <;> rfl

/-- Lowerings with more constants than other values. -/
def IsJump : Lowering → Prop
  | .link .. | .jumpReg .. => True
  | _ => False

theorem constCode_length (d : VReg) (v : BitVec 64) : (constCode d v).length ≤ 4 := by
  have hk : ∀ part lsl, (movK d part lsl).length ≤ 1 := by
    intro part lsl
    unfold movK
    split_ifs <;> simp
  unfold constCode
  split_ifs
  · simp
  · have h16 := hk ((v >>> 16) &&& 0xffff) 16
    have h32 := hk ((v >>> 32) &&& 0xffff) 32
    have h48 := hk ((v >>> 48) &&& 0xffff) 48
    simp only [List.length_append, List.length_cons, List.length_nil]
    omega

/-- Bound on the number of lines of an instruction. -/
def cost : Payload → ℕ
  | .Const .. => 4
  | .ICmp .. | .Load .. | .Store .. => 2
  | _ => 1

theorem selected_length_le (start : BitVec 64) (k : ℕ) (i : IR.Instr) :
    (selected start k i).length ≤ cost i.payload := by
  obtain ⟨dest, payload⟩ := i
  cases payload with
  | Const ty v =>
    cases dest with
    | none => exact Nat.zero_le _
    | some d => exact constCode_length ..
  | _ => cases dest <;> simp [selected, cost, extCode]

theorem selectedAll_length_le (start : BitVec 64) (k : ℕ) (is : List IR.Instr) :
    (selectedAll start k is).length ≤ (is.map fun i => cost i.payload).sum := by
  induction is generalizing k with
  | nil => exact le_rfl
  | cons i is ih =>
    rw [selectedAll, List.length_append, List.map_cons, List.sum_cons]
    exact Nat.add_le_add (selected_length_le ..) (ih _)

/-- Apart from jumps, code has at most two lines for a value or write. -/
theorem segment_length_le {start : BitVec 64} {n k : ℕ} {l : Lowering} (h : ¬ IsJump l) :
    (segment start n k l).length ≤ 2 * l.size := by
  have hsize : l.size = (l.values n).length + (l.writes n).length := by
    rw [← code_length n l, Lowering.code, List.length_append, numbered_length, unnumbered,
      List.length_map]
  have hcost : ((l.code n).map fun i => cost i.payload).sum =
      ((l.values n).map cost).sum + ((l.writes n).map cost).sum := by
    have hcomp : (fun i : IR.Instr => cost i.payload) = cost ∘ IR.Instr.payload := rfl
    rw [hcomp, ← List.map_map, Lowering.code, List.map_append, numbered_payloads, unnumbered,
      List.map_map, List.map_append, List.sum_append]
    congr 3
    exact List.map_id _
  refine le_trans (selectedAll_length_le ..) ?_
  rw [hcost, hsize]
  have hback : ∀ rd v, ((writeBack rd v).map cost).sum ≤ 2 * (writeBack rd v).length := by
    intro rd v
    unfold writeBack
    split_ifs <;> simp [cost]
  cases l with
  | alu op rd rs1 src =>
    have hb := hback rd (valueAt (n + 2))
    cases src <;> simp [Lowering.values, Lowering.writes, Source.payload, cost] <;> omega
  | addWord rd rs1 src =>
    have hb := hback rd (valueAt (n + 4))
    cases src <;> simp [Lowering.values, Lowering.writes, Source.payload, cost] <;> omega
  | loadWord signed rd base off =>
    have hb := hback rd (valueAt (n + 2))
    cases signed <;> simp [Lowering.values, Lowering.writes, cost] <;> omega
  | loadDouble rd base off =>
    have hb := hback rd (valueAt (n + 1))
    simp [Lowering.values, Lowering.writes, cost]
    omega
  | store ty base rs off => simp [Lowering.values, Lowering.writes, cost]
  | compare c rs1 rs2 => simp [Lowering.values, Lowering.writes, cost]
  | auipc rd i =>
    have hb := hback rd (valueAt (n + 2))
    simp [Lowering.values, Lowering.writes, cost]
    omega
  | link rd ra => exact (h trivial).elim
  | jumpReg rd base off ra => exact (h trivial).elim
  | nothing => simp [Lowering.values, Lowering.writes]

theorem segments_length_le {start : BitVec 64} {n k : ℕ} {is : List DecodedInst}
    (h : ∀ i ∈ is, ¬ IsJump (lowering i)) :
    (segments start n k is).length ≤ 2 * irSize is := by
  induction is generalizing n k with
  | nil => exact le_rfl
  | cons i is ih =>
    rw [segments_cons, List.length_append, irSize_cons, Nat.mul_add]
    exact Nat.add_le_add (segment_length_le (h i (by simp)))
      (ih fun j hj => h j (List.mem_cons_of_mem _ hj))

/-- Only JAL and JALR are lowered to jumps. -/
theorem isJump_opcode {inst : DecodedInst} (h : IsJump (lowering inst)) :
    inst.opcode = .JAL ∨ inst.opcode = .JALR := by
  have halu : ∀ op rd rs1 src, ¬ IsJump (aluLowering op rd rs1 src) := by
    intro op rd rs1 src
    unfold aluLowering
    split_ifs
    · exact id
    · cases binKind op <;> exact id
  unfold lowering at h
  split at h
  · split_ifs at h with h1 h2
    · exact h.elim
    · exact Or.inl h2
    · exact h.elim
  · split at h
    · exact h.elim
    · exact h.elim
    · exact h.elim
    · exact Or.inr ‹_›
    · exact h.elim
  · split at h <;> exact h.elim
  · split at h
    · exact h.elim
    · exact (halu _ _ _ _ h).elim
  · exact (halu _ _ _ _ h).elim
  · exact h.elim

/-- An instruction that does not end its block is no jump. -/
theorem inner_not_jump {inst : DecodedInst} (hs : Shaped inst)
    (he : RISCV.exitOf inst = .ok none) : ¬ IsJump (lowering inst) := by
  intro hj
  obtain ⟨-, hop⟩ := hs.innerCase he
  rcases isJump_opcode hj with h | h <;> rw [h] at hop <;> simp at hop

/-- The instructions of a block before its last jump. -/
theorem WellBuilt.split {mem : MemoryReader} {bb : BasicBlock} (h : WellBuilt mem bb) :
    ∃ body tail, bb.insts = body ++ tail ∧ (∀ i ∈ body, ¬ IsJump (lowering i)) ∧
      tail.length ≤ 1 := by
  have hbody : ∀ {start body}, Straight mem start body → ∀ i ∈ body, ¬ IsJump (lowering i) := by
    intro start body hs i hi
    have he := hs.inner i hi
    obtain ⟨k, hk, rfl⟩ := List.getElem_of_mem hi
    exact inner_not_jump (decodeNext_shaped (hs.decoded k hk)) he
  cases h with
  | @control start body last term succs hs hd he =>
    exact ⟨body, [last], rfl, hbody hs, le_rfl⟩
  | @undecoded start body e hs hd => exact ⟨body, [], by simp, hbody hs, Nat.zero_le _⟩
  | @cut start body hs hne hfresh => exact ⟨body, [], by simp, hbody hs, Nat.zero_le _⟩

theorem segments_append (start : BitVec 64) (n k : ℕ) (is js : List DecodedInst) :
    segments start n k (is ++ js) = segments start n k is ++
      segments start (n + irSize is) (k + addrCounts is) js := by
  rw [segments, emitted_append, selectedAll_append, tempCount_emitted, emitted_length]
  rfl

theorem addrCounts_append (is js : List DecodedInst) :
    addrCounts (is ++ js) = addrCounts is + addrCounts js := by
  simp [addrCounts]

theorem addrCounts_le (is : List DecodedInst) : addrCounts is ≤ irSize is := by
  induction is with
  | nil => exact le_rfl
  | cons i is ih =>
    have hone : addrCount (lowering i) ≤ (lowering i).size := by
      cases lowering i <;> simp [addrCount, Lowering.size, Lowering.values] <;> omega
    rw [irSize_cons]
    exact Nat.add_le_add hone ih

theorem termIds_length (t : IR.Terminator) : (termIds t).length ≤ 1 := by
  obtain ⟨kind, data⟩ := t
  cases kind <;> cases data <;> simp [termIds]

/-- Few registers of a block are open at a time if all but a few of them are those of
consecutive instructions whose positions and numbers do not wrap around. -/
theorem split_pressure (extra : List ℕ) {b : Block} {start : BitVec 64} {K : ℕ}
    {body : List DecodedInst} {A T : List Instr} (hA : A = segments start 0 K body)
    (hinstrs : b.instrs = A ++ T) (hAlen : A.length ≤ 2 ^ 32) (hn : irSize body < K)
    (hn' : irSize body < 2 ^ 32) (hk : 0 < addrCounts body → K + addrCounts body < 2 ^ 32)
    (hextra : extra.length ≤ 8)
    (hTail : ∀ i ∈ T, ∀ v ∈ i.vregs, v ∈ extra) (hterm : ∀ v ∈ b.term.vregs, v ∈ extra)
    {items : List Item} (ho : ItemOrder (touchAll ∅ (touches b)) items) : LowPressure items := by
  intro c ws hnd hws
  -- All others are touched in the code before `T`, where positions do not wrap around.
  have hlive : ∀ v lr, (touchAll ∅ (touches b)).lookup v = some lr →
      v ∉ extra → At A 0 v lr.start ∧ At A 0 v lr.last := by
    intro v lr hl hv
    have hpos : ∀ p, (v, p) ∈ touches b → At A 0 v p := by
      intro p hp
      rcases List.mem_append.mp hp with hp | hp
      · obtain ⟨j, i, hj, hvi, rfl⟩ := mem_touchesFrom.mp hp
        rw [hinstrs] at hj
        rcases Nat.lt_or_ge j A.length with hlt | hge
        · rw [List.getElem?_append_left hlt] at hj
          exact ⟨j, i, hj, hvi, by rw [Nat.zero_add, Nat.mod_eq_of_lt (by omega)]⟩
        · rw [List.getElem?_append_right hge] at hj
          exact absurd (hTail i (List.mem_of_getElem? hj) v hvi) hv
      · obtain ⟨w, hw, he⟩ := List.mem_map.mp hp
        cases he
        exact absurd (hterm v hw) hv
    have hr := (lookup_touchAll _ v).1 lr hl
    exact ⟨hpos _ hr.start, hpos _ hr.last⟩
  obtain ⟨live, hmap⟩ : ∃ live, live = touchAll ∅ (touches b) := ⟨_, rfl⟩
  rw [← hmap] at hlive ho
  have hocc : ∀ v, (v ∉ extra ∧ ∃ lr, live.lookup v = some lr) →
      At (segments start 0 K body) 0 v ((live.lookup v).getD ⟨0, 0⟩).start ∧
        At (segments start 0 K body) 0 v ((live.lookup v).getD ⟨0, 0⟩).last := by
    rintro v ⟨hv, lr, hlr⟩
    rw [hlr, ← hA]
    exact hlive v lr hlr hv
  have hN : 0 + irSize body ≤ irSize body := by omega
  obtain ⟨regs, hlen, hregs⟩ := open_local (c := c) hN hn hn' hk hocc
  have hsub : ws.map Item.v ⊆ regs ++ extra := by
    intro v hv
    obtain ⟨w, hw, rfl⟩ := List.mem_map.mp hv
    obtain ⟨hit, hs, hl⟩ := hws w hw
    have hlook := (ho.mem_iff w).mp hit
    by_cases hx : w.v ∈ extra
    · exact List.mem_append_right _ hx
    · refine List.mem_append_left _ (hregs w.v ⟨hx, _, hlook⟩ ?_ ?_)
      · rw [hlook]
        exact hs
      · rw [hlook]
        exact hl
  have hle := (List.subperm_of_subset hnd hsub).length_le
  rw [List.length_map, List.length_append] at hle
  have hpool : initialPool.length = 25 := rfl
  omega

/-- However long a block is, few of its registers are open at a time. Positions are
32-bit numbers; they may wrap around in the last instruction only. -/
theorem lifted_pressure {mem : MemoryReader} {bb : BasicBlock} (h : WellBuilt mem bb)
    (hsize : irSize bb.insts < 2 ^ 31) {items : List Item}
    (ho : ItemOrder (touchAll ∅ (touches (selectedBlock (lifted bb)))) items) :
    LowPressure items := by
  obtain ⟨body, tail, hsplit, hbody, htail⟩ := WellBuilt.split h
  obtain ⟨K, hK⟩ : ∃ K, K = irSize bb.insts + 1 := ⟨_, rfl⟩
  have hlen : irSize bb.insts = irSize body + irSize tail := by rw [hsplit, irSize_append]
  have hcounts : addrCounts bb.insts = addrCounts body + addrCounts tail := by
    rw [hsplit, addrCounts_append]
  have hcle := addrCounts_le bb.insts
  obtain ⟨T, hT⟩ : ∃ T, T = segments bb.start (0 + irSize body) (K + addrCounts body) tail :=
    ⟨_, rfl⟩
  have hinstrs : (selectedBlock (lifted bb)).instrs = segments bb.start 0 K body ++ T := by
    change selectedAll bb.start ((lifted bb).insts.length + 1) (emitted 0 bb.insts) = _
    rw [lifted_length, ← hK, hT, ← segments_append, ← hsplit]
    rfl
  have hAlen : (segments bb.start 0 K body).length ≤ 2 ^ 32 := by
    have hle : (segments bb.start 0 K body).length ≤ 2 * irSize body := segments_length_le hbody
    omega
  have htl : irSize tail + addrCounts tail ≤ 7 := by
    match tail, htail with
    | [], _ => simp [addrCounts]
    | [i], _ =>
      have hi := size_add_addrCount_le (lowering i)
      simpa [addrCounts] using hi
  -- Registers of the last instruction and of the terminator are all counted.
  refine split_pressure (List.range' (irSize body + 1) (irSize tail) ++
    List.range' (K + addrCounts body + 1) (addrCounts tail) ++
      (selectedBlock (lifted bb)).term.vregs) rfl hinstrs hAlen (by omega) (by omega) (by omega)
    ?_ ?_ ?_ ho
  · have h1 := termIds_length (lifted bb).term
    have h2 : (selectedBlock (lifted bb)).term.vregs = (termIds (lifted bb).term).map valueReg :=
      selectedTerm_vregs
    rw [h2]
    simp only [List.length_append, List.length_range', List.length_map]
    omega
  · intro i hi v hv
    have hb := segments_vregs (by omega) (by omega) (hT ▸ hi) hv
    simp only [Between] at hb
    rw [List.mem_append, List.mem_append, List.mem_range'_1, List.mem_range'_1]
    omega
  · intro v hv
    exact List.mem_append_right _ hv

end Riscy.AArch64
