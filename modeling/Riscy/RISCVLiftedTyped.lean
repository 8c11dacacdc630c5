import Riscy.IRTyping
import Riscy.RISCVIndirect

/-! The lifter's output as SSA: values are numbered by position, operands name earlier
values of the types that the operations take, and the terminator names the value of the
last instruction. -/
namespace Riscy.RISCV
open IR (ValueId TypeKind ICmpCond Payload HasTy Prefixed prefixed_append prefixed_cons
  prefixed_nil)
open ByteMemory

/-- The operands of an instruction with the types that lifted code gives them. -/
def operandTys : Payload → List (ValueId × TypeKind)
  | .Const .. | .ReadReg _ | .GetPC => []
  | .WriteReg _ v => [(v, .I64)]
  | .BinOp _ l r _ | .ICmp _ l r => [(l, .I64), (r, .I64)]
  | .ZExt src _ | .SExt src _ => [(src, .I32)]
  | .Trunc src _ => [(src, .I64)]
  | .Load b _ _ => [(b, .I64)]
  | .Store v b _ _ => [(b, .I64), (v, .I64)]

/-- A lifted instruction after the instructions `done`. -/
structure InstrOk (done : List IR.Instr) (i : IR.Instr) : Prop where
  dest : ∀ d, i.dest = some d → d = done.length
  effect : i.payload.ty = none → i.dest = none
  operands : ∀ v ty, (v, ty) ∈ operandTys i.payload → HasTy done v ty
  guestReg : ∀ r v, i.payload = .WriteReg r v → r ≠ 0 ∧ r < 32

/-- The condition of a block is the comparison of the operands of its last instruction, made
on the registers that the instructions before it leave. -/
def ComparesLast (bb : BasicBlock) (irb : IR.Block) (cond : ValueId) : Prop :=
  ∃ body last rs1 rs2 off c code, bb.insts = body ++ [last] ∧
    last.operands = [.reg rs1, .reg rs2, .imm off] ∧ condOf last.opcode = some c ∧
    lift { bb with insts := body } = .ok code ∧ cond = code.insts.length + 2 ∧
    irb.insts = code.insts ++ [⟨some code.insts.length, .ReadReg rs1⟩,
      ⟨some (code.insts.length + 1), .ReadReg rs2⟩,
      ⟨some cond, .ICmp c code.insts.length (code.insts.length + 1)⟩] ∧
    ∀ regs mem, ∃ before s, IR.run bb.start code.insts (entryState regs mem) = some before ∧
      IR.run bb.start irb.insts (entryState regs mem) = some s ∧
      s.env cond =
        some ⟨.I1, BitVec.ofBool (IR.evalCmp c (before.regs rs1) (before.regs rs2))⟩

/-- The lifter's output for a block is well-formed, well-typed SSA. -/
structure LiftedOk (bb : BasicBlock) (irb : IR.Block) : Prop where
  instrs : ∀ p i, irb.insts[p]? = some i → InstrOk (irb.insts.take p) i
  compares : ∀ i ∈ irb.insts, ∀ v ty, (v, ty) ∈ operandTys i.payload →
    ∀ j, irb.insts[v]? = some j → isICmp j.payload = false
  condition : ∀ cond t f, irb.term = ⟨.CBr, .cbr cond t f⟩ → ComparesLast bb irb cond
  target : ∀ v, irb.term = ⟨.BrIndirect, .brIndirect v⟩ → HasTy irb.insts v .I64

theorem valueAt_eq {n : ℕ} (h : n < 2 ^ 32) : valueAt n = n := Nat.mod_eq_of_lt h

/-- Consecutive values from position `n` on, with their types. -/
def typed (n : ℕ) (tys : List TypeKind) : List (ValueId × TypeKind) :=
  (tys.zipIdx n).map fun q => (valueAt q.2, q.1)

theorem typed_snoc (n : ℕ) (tys : List TypeKind) (ty : TypeKind) :
    typed n (tys ++ [ty]) = typed n tys ++ [(valueAt (n + tys.length), ty)] := by
  simp [typed, List.zipIdx_append]

/-- Payloads whose operands are values before them: those from `n` on have the types `tys`. -/
def ValuesOk (n : ℕ) : List TypeKind → List Payload → Prop
  | _, [] => True
  | tys, p :: ps => (∀ q ∈ operandTys p, q ∈ typed n tys) ∧
    ∃ ty, p.ty = some ty ∧ ValuesOk n (tys ++ [ty]) ps

theorem lowering_valuesOk (n : ℕ) (l : Lowering) : ValuesOk n [] (l.values n) := by
  cases l with
  | alu k rd rs1 src | addWord rd rs1 src =>
    cases src <;> simp [Lowering.values, Source.payload, ValuesOk, operandTys, Payload.ty, typed]
  | loadWord signed rd base off =>
    cases signed <;> simp [Lowering.values, ValuesOk, operandTys, Payload.ty, typed]
  | _ => simp [Lowering.values, ValuesOk, operandTys, Payload.ty, typed]

/-- What is written or stored are values of the lowering. -/
theorem lowering_writesOk (n : ℕ) (l : Lowering) : ∀ p ∈ l.writes n, p.ty = none ∧
    ∀ q ∈ operandTys p, q ∈ typed n ((l.values n).filterMap Payload.ty) := by
  have hback : ∀ (rd v : ℕ) (tys : List TypeKind), (v, .I64) ∈ typed n tys →
      ∀ p ∈ writeBack rd v, p.ty = none ∧ ∀ q ∈ operandTys p, q ∈ typed n tys := by
    intro rd v tys hv p hp
    unfold writeBack at hp
    split_ifs at hp
    · cases hp
    · obtain rfl := List.mem_singleton.mp hp
      refine ⟨rfl, fun q hq => ?_⟩
      obtain rfl := List.mem_singleton.mp hq
      exact hv
  cases l with
  | alu k rd rs1 src | addWord rd rs1 src =>
    refine hback _ _ _ ?_
    cases src <;> simp [Lowering.values, Source.payload, Payload.ty, typed]
  | loadWord signed rd base off =>
    refine hback _ _ _ ?_
    cases signed <;> simp [Lowering.values, Payload.ty, typed]
  | store ty base rs off =>
    simp [Lowering.writes, Lowering.values, operandTys, Payload.ty, typed]
  | compare c rs1 rs2 => simp [Lowering.writes]
  | nothing => simp [Lowering.writes]
  | _ =>
    refine hback _ _ _ ?_
    simp [Lowering.values, Payload.ty, typed]

/-- No instruction takes the result of a comparison. -/
theorem operandTys_ne {p : Payload} {v : ValueId} {ty : TypeKind} (h : (v, ty) ∈ operandTys p) :
    ty ≠ .I1 := by
  rintro rfl
  cases p <;> simp [operandTys] at h

section Code
variable {n : ℕ} {done : List IR.Instr}

theorem numbered_ok {tys : List TypeKind} {ps : List Payload} (hv : ValuesOk n tys ps)
    (hlen : done.length = n + tys.length) (hsize : done.length + ps.length ≤ 2 ^ 32)
    (hdone : ∀ q ∈ typed n tys, HasTy done q.1 q.2) :
    Prefixed InstrOk done (numbered done.length ps) ∧
      ∀ q ∈ typed n (tys ++ ps.filterMap Payload.ty),
        HasTy (done ++ numbered done.length ps) q.1 q.2 := by
  induction ps generalizing tys done with
  | nil => simpa [numbered, prefixed_nil] using hdone
  | cons p ps ih =>
    obtain ⟨hops, ty, hty, hps⟩ := hv
    rw [List.length_cons] at hsize
    have hnum : valueAt done.length = done.length := valueAt_eq (by omega)
    have hlast : HasTy (done ++ [⟨some done.length, p⟩]) done.length ty := .last rfl hty
    have hlen' : (done ++ [(⟨some done.length, p⟩ : IR.Instr)]).length = done.length + 1 :=
      List.length_append ..
    have hrest := @ih (done ++ [⟨some done.length, p⟩]) _ hps
      (by rw [hlen', hlen, List.length_append, List.length_singleton, Nat.add_assoc])
      (by rw [hlen']; omega) (by
        rw [typed_snoc, ← hlen, hnum]
        intro q hq
        rcases List.mem_append.mp hq with hq | hq
        · exact (hdone q hq).append
        · obtain rfl := List.mem_singleton.mp hq
          exact hlast)
    rw [hlen'] at hrest
    rw [numbered, hnum, prefixed_cons, List.filterMap_cons_some hty]
    rw [List.append_assoc, List.append_assoc] at hrest
    refine ⟨⟨⟨?_, ?_, ?_, ?_⟩, hrest.1⟩, hrest.2⟩
    · exact fun d hd => (Option.some.inj hd).symm
    · exact fun hn => by rw [hty] at hn; cases hn
    · exact fun v ty hq => hdone _ (hops _ hq)
    · rintro r v rfl
      cases hty

theorem unnumbered_ok {ps : List Payload} (hps : ∀ p ∈ ps, p.ty = none ∧
      ∀ q ∈ operandTys p, HasTy done q.1 q.2)
    (hreg : ∀ r v, .WriteReg r v ∈ ps → r ≠ 0 ∧ r < 32) :
    Prefixed InstrOk done (unnumbered ps) := by
  intro k i hi
  obtain ⟨p, hp, rfl⟩ := List.mem_map.mp (List.mem_of_getElem? hi)
  refine ⟨?_, ?_, ?_, ?_⟩
  · exact fun d hd => by cases hd
  · exact fun _ => rfl
  · exact fun v ty hq => ((hps p hp).2 _ hq).append
  · rintro r v rfl
    exact hreg r v hp

theorem writeBack_reg {rd r v w : ℕ} (h : .WriteReg r v ∈ writeBack rd w) : r ≠ 0 ∧ r = rd := by
  unfold writeBack at h
  split_ifs at h with h0
  · cases h
  · cases List.mem_singleton.mp h
    exact ⟨h0, rfl⟩

theorem aluLowering_reg {op : Opcode} {rd rs1 r v : ℕ} {src : Source}
    (h : .WriteReg r v ∈ (aluLowering op rd rs1 src).writes n) : r ≠ 0 ∧ r = rd := by
  unfold aluLowering at h
  split_ifs at h
  · exact writeBack_reg h
  · split at h
    · exact writeBack_reg h
    · cases h

/-- The register that an instruction writes is its first operand, and never x0. -/
theorem writes_reg {inst : DecodedInst} {r v : ℕ}
    (h : .WriteReg r v ∈ (lowering inst).writes n) :
    r ≠ 0 ∧ inst.operands.head? = some (.reg r) := by
  unfold lowering at h
  split at h
  case h_1 ho =>
    rw [ho]
    split_ifs at h
    · obtain ⟨h0, rfl⟩ := writeBack_reg h
      exact ⟨h0, rfl⟩
    · obtain ⟨h0, rfl⟩ := writeBack_reg h
      exact ⟨h0, rfl⟩
    · cases h
  case h_2 ho =>
    rw [ho]
    split at h
    case h_5 => cases h
    all_goals
      obtain ⟨h0, rfl⟩ := writeBack_reg h
      exact ⟨h0, rfl⟩
  case h_3 => split at h <;> cases h <;> rename_i hm <;> cases hm
  case h_4 ho =>
    rw [ho]
    split at h
    · cases h
    · obtain ⟨h0, rfl⟩ := aluLowering_reg h
      exact ⟨h0, rfl⟩
  case h_5 ho =>
    rw [ho]
    obtain ⟨h0, rfl⟩ := aluLowering_reg h
    exact ⟨h0, rfl⟩
  case h_6 => cases h

theorem Shaped.head_lt {inst : DecodedInst} (hs : Shaped inst) {r : ℕ}
    (h : inst.operands.head? = some (.reg r)) : r < 32 := by
  cases hs <;> cases h <;> assumption

/-- The code of one instruction after `done`. -/
theorem code_ok {inst : DecodedInst} (hs : Shaped inst)
    (hsize : done.length + (lowering inst).size ≤ 2 ^ 32) :
    Prefixed InstrOk done ((lowering inst).code done.length) := by
  have hvals := lowering_valuesOk done.length (lowering inst)
  have hle : ((lowering inst).values done.length).length ≤ (lowering inst).size := by
    rw [← code_length done.length, Lowering.code, List.length_append, numbered_length]
    exact Nat.le_add_right ..
  obtain ⟨hnum, htyped⟩ := numbered_ok hvals rfl (by omega) (by simp [typed])
  refine prefixed_append.mpr ⟨hnum, unnumbered_ok (fun p hp => ?_) fun r v hw => ?_⟩
  · obtain ⟨hty, hops⟩ := lowering_writesOk done.length (lowering inst) p hp
    exact ⟨hty, fun q hq => htyped q (hops q hq)⟩
  · obtain ⟨h0, hhead⟩ := writes_reg hw
    exact ⟨h0, hs.head_lt hhead⟩

theorem emitted_ok {is : List DecodedInst} (hs : ∀ i ∈ is, Shaped i)
    (hsize : done.length + irSize is ≤ 2 ^ 32) :
    Prefixed InstrOk done (emitted done.length is) := by
  induction is generalizing done with
  | nil => exact prefixed_nil
  | cons i is ih =>
    rw [irSize_cons] at hsize
    have hi := @code_ok done i (hs i (by simp)) (by omega)
    have hlen : (done ++ (lowering i).code done.length).length =
        done.length + (lowering i).size := by
      rw [List.length_append, code_length]
    have his := @ih (done ++ (lowering i).code done.length) (fun j hj => hs j (by simp [hj]))
      (by omega)
    rw [hlen] at his
    rw [emitted_cons]
    exact prefixed_append.mpr ⟨hi, his⟩

/-- The first instruction of lifted code is a 64-bit value. -/
theorem emitted_first (is : List DecodedInst) (hne : emitted n is ≠ []) :
    ∃ p, (emitted n is)[0]? = some ⟨some (valueAt n), p⟩ ∧ p.ty = some .I64 := by
  induction is with
  | nil => exact absurd rfl hne
  | cons i is ih =>
    rw [emitted_cons] at hne ⊢
    cases hl : lowering i with
    | nothing =>
      rw [hl] at hne
      exact ih hne
    | _ => exact ⟨_, rfl, rfl⟩

end Code

section Block
variable {reader : MemoryReader} {bb : BasicBlock} (h : WellBuilt reader bb)
include h

/-- A block with two ways out ends in a branch. -/
theorem WellBuilt.branch_last (ht : bb.term = .Branch) :
    ∃ body last r s i c, bb.insts = body ++ [last] ∧ condOf last.opcode = some c ∧
      last.operands = [.reg r, .reg s, .imm i] := by
  have hs := h.shaped
  cases h with
  | @control start body last term succs hst hd he =>
    cases (hs last (by simp)).controlCase he with
    | branch hc ho => exact ⟨body, last, _, _, _, _, rfl, hc, ho⟩
    | jump hop ho => cases ht
    | indirect hop ho hn => cases ht
    | ret hop ho => cases ht
    | trap hop ho => cases ht
  | undecoded hst hd => cases ht
  | cut hst hne hfresh => cases ht

theorem WellBuilt.comparesLast (ht : bb.term = .Branch) (hsize : irSize bb.insts < 2 ^ 31)
    {irb : IR.Block} (hl : lift bb = .ok irb) :
    ComparesLast bb irb (branchCond (emitted 0 bb.insts)) := by
  obtain ⟨body, last, r, s, i, c, hb, hc, ho⟩ := h.branch_last ht
  have hlow : lowering last = .compare c r s := by simp only [lowering, ho, hc]
  have hbody : lift { bb with insts := body } = .ok ⟨bb.start, emitted 0 body,
      liftTerm { bb with insts := body } (emitted 0 body)⟩ :=
    lift_of_shaped fun i hi => h.shaped i (by rw [hb]; exact List.mem_append_left _ hi)
  have hlen : irSize body + 3 < 2 ^ 31 := by
    rw [hb, irSize_append, irSize_cons, hlow] at hsize
    exact hsize
  have hval : ∀ j < 3, valueAt (irSize body + j) = irSize body + j := fun j hj =>
    valueAt_eq (by omega)
  have hcond : branchCond (emitted 0 bb.insts) = irSize body + 2 := by
    rw [hb, branchCond_emitted hlow (by rw [← hb]; exact hsize), hval 2 (by omega)]
  rw [h.lift_eq] at hl
  cases hl
  refine ⟨body, last, r, s, i, c, _, hb, ho, hc, hbody, ?_, ?_, fun regs mem => ?_⟩
  · rw [hcond, emitted_length]
  · have h0 := hval 0 (by omega)
    have h1 := hval 1 (by omega)
    have h2 := hval 2 (by omega)
    rw [hcond, hb, emitted_snoc, hlow, Nat.zero_add, emitted_length]
    rw [Nat.add_zero] at h0
    simp [Lowering.code, Lowering.values, Lowering.writes, numbered, unnumbered, h0, h1, h2]
  · refine ⟨_, _, run_emitted .., run_emitted .., ?_⟩
    rw [hb, stateAfter_snoc, hlow, Nat.zero_add, ← hb, hcond, ← hval 2 (by omega)]
    exact after_env _ _ _ _ (i := 2) (by simp [Lowering.results])

theorem WellBuilt.indirectTarget_ty (ht : bb.term = .IndirectJump)
    (hsize : irSize bb.insts < 2 ^ 31) :
    HasTy (emitted 0 bb.insts) (indirectTarget (emitted 0 bb.insts)) .I64 := by
  obtain ⟨body, last, rd, base, off, hb, hop, ho⟩ := h.indirect_last ht
  have hlow : lowering last = .jumpReg rd base off (last.pc + 4) := by
    simp only [lowering, ho, hop]
  have hlen : irSize body + 6 ≤ irSize bb.insts := by
    rw [hb, irSize_append, irSize_cons, hlow]
    exact Nat.add_le_add_left (Nat.le_add_right ..) _
  by_cases h0 : rd = 0
  · have htarget : indirectTarget (emitted 0 bb.insts) = irSize body + 5 := by
      rw [hb, indirectTarget_eq hlow, if_pos h0, valueAt_eq (by omega)]
    refine ⟨⟨some (irSize body + 5), .Const .I64 (last.pc + 4)⟩, ?_, ?_, rfl⟩
    · rw [htarget, hb, emitted_snoc, hlow, Nat.zero_add, List.getElem?_append_right
        (by rw [emitted_length]; omega), emitted_length, Nat.add_sub_cancel_left,
        ← valueAt_eq (n := irSize body + 5) (by omega)]
      rfl
    · rw [htarget]
  · have htarget : indirectTarget (emitted 0 bb.insts) = 0 := by
      rw [hb, indirectTarget_eq hlow, if_neg h0]
    have hne : emitted 0 bb.insts ≠ [] := by
      rw [← List.length_pos_iff, emitted_length]
      omega
    obtain ⟨p, hp, hty⟩ := emitted_first bb.insts hne
    rw [htarget]
    exact ⟨_, hp, rfl, hty⟩

theorem WellBuilt.liftedOk (hsize : irSize bb.insts < 2 ^ 31) {irb : IR.Block}
    (hl : lift bb = .ok irb) : LiftedOk bb irb := by
  have hok : Prefixed InstrOk [] (emitted 0 bb.insts) :=
    @emitted_ok [] _ h.shaped (by simp; omega)
  have hcond := fun ht => h.comparesLast ht hsize hl
  have htarget := fun ht => h.indirectTarget_ty ht hsize
  rw [h.lift_eq] at hl
  cases hl
  refine ⟨hok, ?_, ?_, ?_⟩
  · intro i hi v ty hv j hj
    obtain ⟨p, hp⟩ := List.getElem?_of_mem hi
    obtain ⟨j', hj', -, hty⟩ := ((hok p i hp).operands v ty hv).of_take
    obtain rfl : j' = j := Option.some.inj (hj'.symm.trans hj)
    cases hpay : j'.payload with
    | ICmp c l r =>
      rw [hpay] at hty
      exact absurd (Option.some.inj hty).symm (operandTys_ne hv)
    | _ => rfl
  · intro cond t f hterm
    cases ht : bb.term <;> simp only [liftTerm, ht] at hterm <;> cases hterm
    exact hcond ht
  · intro v hterm
    cases ht : bb.term <;> simp only [liftTerm, ht] at hterm <;> cases hterm
    exact htarget ht

end Block

/-- Lifting gives well-formed, well-typed SSA for every block that is built. -/
theorem lift_wellTyped {reader : MemoryReader} {entry : BitVec 64} {cfg : CFG}
    (h : Builds reader entry cfg) {bb : BasicBlock} (hbb : bb ∈ cfg.blocks)
    (hsize : irSize bb.insts < 2 ^ 31) :
    ∃ irb, lift bb = .ok irb ∧ irb.insts.length = irSize bb.insts ∧ LiftedOk bb irb := by
  have hw := h.sound.built bb hbb
  exact ⟨_, hw.lift_eq, emitted_length 0 bb.insts, hw.liftedOk hsize hw.lift_eq⟩

/-- A word is loaded, increased by `x6` and stored, and a branch goes back to its start. -/
def sumReader : MemoryReader := fun a =>
  if a = 0 then some 0x00052283
  else if a = 4 then some 0x006282bb
  else if a = 8 then some 0x00552023
  else if a = 12 then some 0xfe629ae3
  else if a = 16 then some 0x00000073
  else none

def sumBlock : BasicBlock :=
  ⟨0, [⟨0, 0x00052283, .LW, [.reg 5, .mem 10 0]⟩, ⟨4, 0x006282bb, .ADDW, [.reg 5, .reg 5, .reg 6]⟩,
    ⟨8, 0x00552023, .SW, [.mem 10 0, .reg 5]⟩,
    ⟨12, 0xfe629ae3, .BNE, [.reg 5, .reg 6, .imm (-12)]⟩],
    .Branch, [0, 16]⟩

def sumCFG : CFG where
  entry := 0
  blocks := [sumBlock, ⟨16, [⟨16, 0x00000073, .ECALL, []⟩], .Trap, []⟩]
  indexByAddr := ((∅ : AddrIndex).insert 0 0).insert 16 1

theorem sum_builds : Builds sumReader 0 sumCFG := ⟨12, rfl⟩

theorem sum_lift_wellTyped : ∃ irb, lift sumBlock = .ok irb ∧
    irb.insts.length = irSize sumBlock.insts ∧ LiftedOk sumBlock irb :=
  lift_wellTyped sum_builds (List.mem_cons_self ..) (by decide)

end Riscy.RISCV
