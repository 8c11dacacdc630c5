import Riscy.AArch64GuestAccess
import Riscy.AArch64Preserved
import Riscy.AArch64SelectCorrect
import Riscy.RISCVLiftedTyped

/-! Lifted blocks have the types for which selection is simulated, AUIPC apart, and short ones
have numbers for their values and temporaries. -/
namespace Riscy.AArch64
open IR (TypeKind Payload HasTy)
open RISCV

/-- The types and offsets that the lifter uses. Only AUIPC needs the pc. -/
def PlainPayload : Payload → Prop
  | .Const ty _ | .BinOp _ _ _ ty | .ZExt _ ty | .SExt _ ty => ty = .I64
  | .Trunc _ ty => ty = .I32
  | .Load _ off ty | .Store _ _ off ty => (ty = .I64 ∨ ty = .I32) ∧ FitsInt32 off
  | .GetPC => False
  | _ => True

section Typed
variable {done : List IR.Instr} {i : IR.Instr} {v : ℕ}

theorem HasKind.of_i64 (hp : ∀ i ∈ done, PlainPayload i.payload) (h : HasTy done v .I64) :
    HasKind done v .i64 := by
  obtain ⟨i, hi, hd, hty⟩ := h
  refine ⟨i, hi, hd, ?_⟩
  have hplain := hp i (List.mem_of_getElem? hi)
  cases hpay : i.payload <;> rw [hpay] at hty hplain <;> simp only [IR.Payload.ty] at hty <;>
    cases hty <;> first
      | rfl
      | exact hplain.elim
      | cases hplain

theorem HasKind.of_i32 (hp : ∀ i ∈ done, PlainPayload i.payload) (h : HasTy done v .I32) :
    HasKind done v .i32 := by
  obtain ⟨i, hi, hd, hty⟩ := h
  refine ⟨i, hi, hd, ?_⟩
  have hplain := hp i (List.mem_of_getElem? hi)
  cases hpay : i.payload <;> rw [hpay] at hty hplain <;> simp only [IR.Payload.ty] at hty <;>
    cases hty <;> first
      | rfl
      | cases hplain

/-- An instruction of the lifter has the types that selection takes. -/
theorem payloadOk_of_instrOk (hp : ∀ i ∈ done, PlainPayload i.payload) (h : InstrOk done i)
    (hi : PlainPayload i.payload) (hr : ∀ r, GuestReg i.payload r → r < 32) :
    PayloadOk done i.payload := by
  have h64 : ∀ v, (v, .I64) ∈ operandTys i.payload → HasKind done v .i64 :=
    fun v hv => .of_i64 hp (h.operands v _ hv)
  have h32 : ∀ v, (v, .I32) ∈ operandTys i.payload → HasKind done v .i32 :=
    fun v hv => .of_i32 hp (h.operands v _ hv)
  have hw := h.guestReg
  cases hpay : i.payload with
  | Const ty v => trivial
  | ReadReg r => exact hr r (Or.inl hpay)
  | WriteReg r v =>
    rw [hpay] at h64
    exact ⟨(hw r v hpay).2, h64 v (by simp [operandTys])⟩
  | BinOp op l r ty =>
    rw [hpay] at h64 hi
    exact ⟨hi, h64 l (by simp [operandTys]), h64 r (by simp [operandTys])⟩
  | ICmp c l r =>
    rw [hpay] at h64
    exact ⟨h64 l (by simp [operandTys]), h64 r (by simp [operandTys])⟩
  | ZExt src dst | SExt src dst =>
    rw [hpay] at h32 hi
    exact ⟨hi, h32 src (by simp [operandTys])⟩
  | Trunc src dst =>
    rw [hpay] at h64 hi
    exact ⟨hi, h64 src (by simp [operandTys])⟩
  | Load b off ty =>
    rw [hpay] at h64 hi
    exact ⟨hi.1, h64 b (by simp [operandTys]), hi.2⟩
  | Store v b off ty =>
    rw [hpay] at h64 hi
    exact ⟨Or.inl ⟨h64 v (by simp [operandTys]), hi.1⟩, h64 b (by simp [operandTys]), hi.2⟩
  | GetPC =>
    rw [hpay] at hi
    exact hi.elim

end Typed

section Lowered

theorem fitsInt32_signExtend (v : BitVec 12) : FitsInt32 (v.signExtend 64) := by
  unfold FitsInt32
  ext i hi
  simp only [BitVec.getElem_signExtend, BitVec.getElem_setWidth, BitVec.getLsbD_signExtend,
    BitVec.msb_setWidth]
  split_ifs <;> simp_all
  omega

/-- What decoding makes of a lowering. -/
structure PlainLowering (l : Lowering) : Prop where
  pc : ∀ rd i, l ≠ .auipc rd i
  store : ∀ ty base rs off, l = .store ty base rs off → ty = .I64 ∨ ty = .I32
  fits : ∀ size off, access l = some (size, off) → FitsInt32 off

theorem aluLowering_plain (op : Opcode) (rd rs1 : ℕ) (src : Source) :
    PlainLowering (aluLowering op rd rs1 src) := by
  unfold aluLowering
  split_ifs
  · exact ⟨by simp, by simp, by simp [access]⟩
  · split <;> exact ⟨by simp, by simp, by simp [access]⟩

theorem lowering_plain {mem : MemoryReader} {pc : BitVec 64} {inst : DecodedInst}
    (hd : decodeNext mem pc = .ok inst) (hn : inst.opcode ≠ .AUIPC) :
    PlainLowering (lowering inst) := by
  refine ⟨?_, ?_, fun size off ha => ?_⟩
  · intro rd i
    unfold lowering
    split
    · rw [if_neg hn]
      split_ifs <;> simp
    · split <;> simp
    · split <;> simp
    · split
      · simp
      · exact (aluLowering_plain ..).pc rd i
    · exact (aluLowering_plain ..).pc rd i
    · simp
  · intro ty base rs off
    unfold lowering
    split
    · split_ifs <;> simp
    · split <;> simp
    · split <;> simp +contextual [eq_comm]
    · split
      · simp
      · exact (aluLowering_plain ..).store ty base rs off
    · exact (aluLowering_plain ..).store ty base rs off
    · simp
  · rw [access_eq (decodeNext_shaped hd)] at ha
    obtain ⟨v, rfl⟩ := guestAccess_offset hd ha
    exact fitsInt32_signExtend v

theorem values_plain {l : Lowering} (h : PlainLowering l) (n : ℕ) :
    ∀ p ∈ l.values n, PlainPayload p := by
  cases l with
  | alu k rd rs1 src | addWord rd rs1 src =>
    cases src <;> simp [Lowering.values, Source.payload, PlainPayload]
  | loadWord signed rd base off =>
    have hoff := h.fits _ _ rfl
    cases signed <;> simp [Lowering.values, PlainPayload, hoff]
  | loadDouble rd base off =>
    have hoff := h.fits _ _ rfl
    simp [Lowering.values, PlainPayload, hoff]
  | auipc rd i => exact absurd rfl (h.pc rd i)
  | _ => simp [Lowering.values, PlainPayload]

theorem writes_plain {l : Lowering} (h : PlainLowering l) (n : ℕ) :
    ∀ p ∈ l.writes n, PlainPayload p := by
  have hback : ∀ rd v, ∀ p ∈ writeBack rd v, PlainPayload p := by
    intro rd v p hp
    unfold writeBack at hp
    split_ifs at hp
    · cases hp
    · rw [List.mem_singleton.mp hp]
      trivial
  cases l with
  | store ty base rs off =>
    intro p hp
    rw [List.mem_singleton.mp hp]
    exact ⟨h.store ty base rs off rfl, h.fits _ _ rfl⟩
  | compare c rs1 rs2 | nothing => simp [Lowering.writes]
  | _ => exact hback _ _

theorem emitted_plain {mem : MemoryReader} {is : List DecodedInst} {n : ℕ}
    (hd : ∀ inst ∈ is, ∃ pc, decodeNext mem pc = .ok inst)
    (hn : ∀ inst ∈ is, inst.opcode ≠ .AUIPC) : ∀ i ∈ emitted n is, PlainPayload i.payload := by
  intro i hi
  obtain ⟨inst, hinst, m, hm⟩ := emitted_code hi
  obtain ⟨pc, hpc⟩ := hd inst hinst
  have hplain := lowering_plain hpc (hn inst hinst)
  rcases List.mem_append.mp (code_payload hm) with hp | hp
  · exact values_plain hplain m _ hp
  · exact writes_plain hplain m _ hp

end Lowered

section Block
variable {mem : MemoryReader} {bb : BasicBlock}

theorem lifted_termTyped (h : WellBuilt mem bb) (hsize : irSize bb.insts < 2 ^ 31)
    (hp : ∀ i ∈ (lifted bb).insts, PlainPayload i.payload) :
    TermTyped (lifted bb).insts (lifted bb).term := by
  change TermTyped (emitted 0 bb.insts) (liftTerm bb (emitted 0 bb.insts))
  unfold liftTerm
  split
  · rename_i ht
    obtain ⟨body, last, rs1, rs2, off, c, code, -, -, -, -, hcond, hirb, -⟩ :=
      h.comparesLast ht hsize h.lift_eq
    change emitted 0 bb.insts = _ at hirb
    generalize branchCond (emitted 0 bb.insts) = cond at hcond hirb ⊢
    subst hcond
    refine ⟨⟨some _, .ICmp c code.insts.length (code.insts.length + 1)⟩, ?_, rfl, rfl⟩
    rw [hirb, List.getElem?_append_right (by omega), Nat.add_sub_cancel_left]
    rfl
  · trivial
  · rename_i ht
    exact HasKind.of_i64 hp (h.indirectTarget_ty ht hsize)
  all_goals trivial

/-- A block without AUIPC has the types for which selection is simulated. -/
theorem lifted_typed (h : WellBuilt mem bb) (hsize : irSize bb.insts < 2 ^ 31)
    (hn : ∀ inst ∈ bb.insts, inst.opcode ≠ .AUIPC) : WellTyped (lifted bb) := by
  have hdec : ∀ inst ∈ bb.insts, ∃ pc, decodeNext mem pc = .ok inst := by
    intro inst hi
    obtain ⟨j, hj, rfl⟩ := List.getElem_of_mem hi
    exact ⟨_, h.decoded j hj⟩
  have hplain : ∀ i ∈ (lifted bb).insts, PlainPayload i.payload := emitted_plain hdec hn
  have hok : ∀ p i, (lifted bb).insts[p]? = some i → InstrOk ((lifted bb).insts.take p) i :=
    (h.liftedOk hsize h.lift_eq).instrs
  refine ⟨fun p i hi => ?_, fun p i hi => ?_, lifted_termTyped h hsize hplain⟩
  · have hlen : ((lifted bb).insts.take p).length = p := by
      rw [List.length_take]
      have hlt := (List.getElem?_eq_some_iff.mp hi).1
      omega
    cases hd : i.dest with
    | none => exact Or.inl rfl
    | some d =>
      rw [(hok p i hi).dest d hd, hlen]
      exact Or.inr rfl
  · exact payloadOk_of_instrOk (fun j hj => hplain j (List.mem_of_mem_take hj)) (hok p i hi)
      (hplain i (List.mem_of_getElem? hi))
      (emitted_guestReg h.shaped i (List.mem_of_getElem? hi))

end Block

section Size
variable {bb : BasicBlock}

theorem Short.fits (hs : Short bb) : Fits (lifted bb) := by
  have hvalues := hs.values
  have hbound := hs.2
  have htemps : tempCount (lifted bb).insts = addrCounts bb.insts := tempCount_emitted ..
  refine ⟨?_, fun t ht => ?_⟩
  · rw [lifted_length]
    omega
  · rw [htemps] at ht
    rw [lifted_length]
    omega

theorem irSize_le (is : List DecodedInst) : irSize is ≤ 7 * is.length := by
  induction is with
  | nil => exact le_rfl
  | cons i is ih =>
    have hi := size_add_addrCount_le (lowering i)
    rw [irSize_cons, List.length_cons]
    omega

/-- Numbers are only an issue in blocks of more than 2^26 instructions. -/
theorem short_of_length (h : bb.insts.length < 2 ^ 26) :
    Short bb ∧ irSize bb.insts < 2 ^ 31 := by
  have hsize := irSize_le bb.insts
  have hcost : ∀ p, cost p ≤ 4 := by
    intro p
    cases p <;> simp [cost]
  have hlines : (selectedBlock (lifted bb)).instrs.length ≤ 4 * (lifted bb).insts.length := by
    refine (selectedAll_length_le ..).trans ?_
    rw [Nat.mul_comm, ← smul_eq_mul, ← List.length_map fun i : IR.Instr => cost i.payload]
    refine List.sum_le_card_nsmul _ _ fun c hc => ?_
    obtain ⟨i, -, rfl⟩ := List.mem_map.mp hc
    exact hcost _
  rw [lifted_length] at hlines
  have haddrs := addrCounts_le bb.insts
  exact ⟨⟨by omega, fun _ => by omega⟩, by omega⟩

end Size

end Riscy.AArch64
