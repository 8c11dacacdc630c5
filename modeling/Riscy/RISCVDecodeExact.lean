import Riscy.RISCVCFG
import Riscy.RISCVEncoding

/-! Decoding against the encoding of the manual: what the decoder gives back for an
encoded instruction, and which foreign words it lets through. -/
namespace Riscy.RISCV
open BitFields

/-- SRLI and SRAI with the sixth shift-amount bit set. -/
def BaseInst.wideRightShift : BaseInst → Prop
  | .shiftImm op _ _ _ shamt => op ≠ .SLLI ∧ 32 ≤ shamt.toNat
  | _ => False

instance : DecidablePred BaseInst.wideRightShift := fun i => by
  cases i <;> unfold BaseInst.wideRightShift <;> infer_instance

theorem slices_imm12 (imm : BitVec 12) :
    (imm.extractLsb' 5 7 ++ imm.extractLsb' 0 5 : BitVec 12) = imm :=
  append_slices (m := 7) (n := 5) imm

theorem slices_shamt (shamt : BitVec 6) :
    (shamt.extractLsb' 5 1 ++ shamt.extractLsb' 0 5 : BitVec 6) = shamt :=
  append_slices (m := 1) (n := 5) shamt

theorem slices_imm20 (imm : BitVec 20) :
    (imm.extractLsb' 13 7 ++ imm.extractLsb' 8 5 ++ imm.extractLsb' 3 5 ++
      imm.extractLsb' 0 3 : BitVec 20) = imm := by
  apply BitVec.eq_of_toNat_eq
  have hx := imm.isLt
  simp only [toNat_append_add, BitVec.extractLsb'_toNat, Nat.shiftRight_eq_div_pow]
  omega

theorem branchOpcode_funct3Of {op : Opcode} (h : op ∈ branchOps) :
    branchOpcode (funct3Of op).toNat = some op := by
  simp only [branchOps, List.mem_cons, List.not_mem_nil, or_false] at h
  rcases h with rfl | rfl | rfl | rfl | rfl | rfl <;> rfl

theorem loadOpcode_funct3Of {op : Opcode} (h : op ∈ loadOps) :
    loadOpcode (funct3Of op).toNat = some op := by
  simp only [loadOps, List.mem_cons, List.not_mem_nil, or_false] at h
  rcases h with rfl | rfl | rfl | rfl | rfl | rfl | rfl <;> rfl

theorem storeOpcode_funct3Of {op : Opcode} (h : op ∈ storeOps) :
    storeOpcode (funct3Of op).toNat = some op := by
  simp only [storeOps, List.mem_cons, List.not_mem_nil, or_false] at h
  rcases h with rfl | rfl | rfl | rfl <;> rfl

theorem opReg_functOf {op : Opcode} (h : op ∈ regOps) :
    opReg (funct7Of op).toNat (funct3Of op).toNat = some op := by
  simp only [regOps, List.mem_cons, List.not_mem_nil, or_false] at h
  rcases h with rfl | rfl | rfl | rfl | rfl | rfl | rfl | rfl | rfl | rfl <;> rfl

theorem opReg32_functOf {op : Opcode} (h : op ∈ regOpsW) :
    opReg32 (funct7Of op).toNat (funct3Of op).toNat = some op := by
  simp only [regOpsW, List.mem_cons, List.not_mem_nil, or_false] at h
  rcases h with rfl | rfl | rfl | rfl | rfl <;> rfl

theorem opImm_funct3Of (insn : BitVec 32) {op : Opcode} (h : op ∈ immOps) :
    opImm insn (funct3Of op).toNat = some (op, iImm insn) := by
  simp only [immOps, List.mem_cons, List.not_mem_nil, or_false] at h
  rcases h with rfl | rfl | rfl | rfl | rfl | rfl <;> rfl

/-- The decoder compares all of funct7, the sixth shift-amount bit included. -/
theorem opImm_shift {op : Opcode} (h : op ∈ shiftOps) (rd rs1 : BitVec 5) (shamt : BitVec 6)
    (hw : ¬ (op ≠ .SLLI ∧ 32 ≤ shamt.toNat)) :
    opImm (encode (.shiftImm op h rd rs1 shamt)) (funct3Of op).toNat =
      some (op, shamt.setWidth 64) := by
  have hs : shamt6 (encode (.shiftImm op h rd rs1 shamt)) = shamt.setWidth 64 := by
    have hb : ((funct7Of op).extractLsb' 1 6 ++ shamt.extractLsb' 5 1).extractLsb' 0 1 =
        shamt.extractLsb' 5 1 := by
      apply BitVec.eq_of_toNat_eq
      rw [BitVec.extractLsb'_toNat, toNat_append_add]
      have := (shamt.extractLsb' 5 1).isLt
      omega
    rw [encode, shamt6_encodeR, hb, slices_shamt]
  have hf : op ≠ .SLLI → funct7 (encode (.shiftImm op h rd rs1 shamt)) = (funct7Of op).toNat := by
    intro hne
    have hlt : shamt.toNat < 32 := by
      by_contra hc
      exact hw ⟨hne, by omega⟩
    rw [encode, funct7_encodeR, toNat_append_add, BitVec.extractLsb'_toNat,
      BitVec.extractLsb'_toNat, Nat.shiftRight_eq_div_pow, Nat.shiftRight_eq_div_pow]
    simp only [shiftOps, List.mem_cons, List.not_mem_nil, or_false] at h
    rcases h with rfl | rfl | rfl
    · exact absurd rfl hne
    · change 0 / 2 % 64 * 2 + _ = 0
      omega
    · change 32 / 2 % 64 * 2 + _ = 32
      omega
  simp only [shiftOps, List.mem_cons, List.not_mem_nil, or_false] at h
  rcases h with rfl | rfl | rfl
  · exact congrArg (fun v => some (Opcode.SLLI, v)) hs
  · have h7 : funct7 (encode (.shiftImm .SRLI h rd rs1 shamt)) = 0x00 := hf (by decide)
    change (if _ then some (Opcode.SRLI, _) else _) = _
    rw [if_pos h7, hs]
  · have h7 : funct7 (encode (.shiftImm .SRAI h rd rs1 shamt)) = 0x20 := hf (by decide)
    change (if _ then _ else if _ then some (Opcode.SRAI, _) else _) = _
    rw [if_neg (by rw [h7]; decide), if_pos h7, hs]

theorem opImm_wideShift {op : Opcode} (h : op ∈ shiftOps) (rd rs1 : BitVec 5)
    (shamt : BitVec 6) (hne : op ≠ .SLLI) (hw : 32 ≤ shamt.toNat) :
    opImm (encode (.shiftImm op h rd rs1 shamt)) (funct3Of op).toNat = none := by
  have hodd : funct7 (encode (.shiftImm op h rd rs1 shamt)) % 2 = 1 := by
    have := shamt.isLt
    rw [encode, funct7_encodeR, toNat_append_add, BitVec.extractLsb'_toNat,
      BitVec.extractLsb'_toNat, Nat.shiftRight_eq_div_pow, Nat.shiftRight_eq_div_pow]
    omega
  have h3 : (funct3Of op).toNat = 5 := by
    simp only [shiftOps, List.mem_cons, List.not_mem_nil, or_false] at h
    rcases h with rfl | rfl | rfl
    · exact absurd rfl hne
    · rfl
    · rfl
  rw [h3]
  change (if _ then _ else if _ then _ else none) = _
  rw [if_neg (by omega), if_neg (by omega)]

theorem opImm32_shift {op : Opcode} (h : op ∈ shiftOpsW) (rd rs1 shamt : BitVec 5) :
    opImm32 (encode (.shiftImmW op h rd rs1 shamt)) (funct3Of op).toNat =
      some (op, shamt.setWidth 64) := by
  have hs : shamt5 (encode (.shiftImmW op h rd rs1 shamt)) = shamt.setWidth 64 := by
    rw [encode, shamt5_encodeR]
  have hf : funct7 (encode (.shiftImmW op h rd rs1 shamt)) = (funct7Of op).toNat := by
    rw [encode, funct7_encodeR]
  simp only [shiftOpsW, List.mem_cons, List.not_mem_nil, or_false] at h
  rcases h with rfl | rfl | rfl
  · have h7 : funct7 (encode (.shiftImmW .SLLIW h rd rs1 shamt)) = 0x00 := hf
    change (if _ then some (Opcode.SLLIW, _) else _) = _
    rw [if_pos h7, hs]
  · have h7 : funct7 (encode (.shiftImmW .SRLIW h rd rs1 shamt)) = 0x00 := hf
    change (if _ then some (Opcode.SRLIW, _) else _) = _
    rw [if_pos h7, hs]
  · have h7 : funct7 (encode (.shiftImmW .SRAIW h rd rs1 shamt)) = 0x20 := hf
    change (if _ then _ else if _ then some (Opcode.SRAIW, _) else _) = _
    rw [if_neg (by rw [h7]; decide), if_pos h7, hs]

theorem bImm_encodeB (imm : BitVec 12) (r2 r1 : BitVec 5) (f3 : BitVec 3) (opc : BitVec 7) :
    bImm (encodeB imm r2 r1 f3 opc) = (imm ++ (0 : BitVec 1)).signExtend 64 := by
  rw [encodeB, bImm_encodeR, extract_high, extract_low (n := 6), extract_low,
    extract_high (m := 4)]
  congr 1
  apply BitVec.eq_of_toNat_eq
  have := imm.isLt
  simp only [toNat_append_add, BitVec.extractLsb'_toNat, Nat.shiftRight_eq_div_pow]
  omega

theorem jImm_encodeJ (imm : BitVec 20) (d : BitVec 5) (opc : BitVec 7) :
    jImm (encodeJ imm d opc) = (imm ++ (0 : BitVec 1)).signExtend 64 := by
  rw [encodeJ, jImm_encodeR, extract_high, extract_low (n := 6), extract_low,
    extract_high (m := 4)]
  congr 1
  apply BitVec.eq_of_toNat_eq
  have := imm.isLt
  simp only [toNat_append_add, BitVec.extractLsb'_toNat, Nat.shiftRight_eq_div_pow]
  omega

theorem iImm_encodeI (imm : BitVec 12) (r1 : BitVec 5) (f3 : BitVec 3) (d : BitVec 5)
    (opc : BitVec 7) : iImm (encodeI imm r1 f3 d opc) = imm.signExtend 64 := by
  rw [encodeI, iImm_encodeR, slices_imm12]

theorem sImm_encodeS (imm : BitVec 12) (r2 r1 : BitVec 5) (f3 : BitVec 3)
    (opc : BitVec 7) : sImm (encodeS imm r2 r1 f3 opc) = imm.signExtend 64 := by
  rw [encodeS, sImm_encodeR, slices_imm12]

theorem uImm_encodeU (imm : BitVec 20) (d : BitVec 5) (opc : BitVec 7) :
    uImm (encodeU imm d opc) = (imm ++ (0 : BitVec 12)).signExtend 64 := by
  rw [encodeU, uImm_encodeR, slices_imm20]

/-- Decode undoes encode, up to the sixth shift-amount bit of a right shift. -/
theorem decodeFields_encode (i : BaseInst) (h : ¬ i.wideRightShift) :
    decodeFields (encode i) = some (i.opcode, i.operands) := by
  cases i with
  | lui d imm =>
    have hi := uImm_encodeU imm d 0x37
    simp only [encodeU] at hi
    simp only [encode, encodeU, decodeFields, opc_encodeR, rd_encodeR, hi]
    rfl
  | auipc d imm =>
    have hi := uImm_encodeU imm d 0x17
    simp only [encodeU] at hi
    simp only [encode, encodeU, decodeFields, opc_encodeR, rd_encodeR, hi]
    rfl
  | jal d imm =>
    have hi := jImm_encodeJ imm d 0x6F
    simp only [encodeJ] at hi
    simp only [encode, encodeJ, decodeFields, opc_encodeR, rd_encodeR, hi]
    rfl
  | jalr d r1 imm =>
    have hi := iImm_encodeI imm r1 0 d 0x67
    simp only [encodeI] at hi
    simp only [encode, encodeI, decodeFields, opc_encodeR, rd_encodeR, rs1_encodeR, hi]
    rfl
  | branch op hop r1 r2 imm =>
    have hi := bImm_encodeB imm r2 r1 (funct3Of op) 0x63
    simp only [encodeB] at hi
    simp only [encode, encodeB, decodeFields, opc_encodeR, rs1_encodeR, rs2_encodeR,
      funct3_encodeR, branchOpcode_funct3Of hop, hi]
    rfl
  | load op hop d r1 imm =>
    have hi := iImm_encodeI imm r1 (funct3Of op) d 0x03
    simp only [encodeI] at hi
    simp only [encode, encodeI, decodeFields, opc_encodeR, rd_encodeR, rs1_encodeR,
      funct3_encodeR, loadOpcode_funct3Of hop, hi]
    rfl
  | store op hop r1 r2 imm =>
    have hi := sImm_encodeS imm r2 r1 (funct3Of op) 0x23
    simp only [encodeS] at hi
    simp only [encode, encodeS, decodeFields, opc_encodeR, rs1_encodeR, rs2_encodeR,
      funct3_encodeR, storeOpcode_funct3Of hop, hi]
    rfl
  | opImm op hop d r1 imm =>
    have hi := iImm_encodeI imm r1 (funct3Of op) d 0x13
    simp only [encodeI] at hi
    simp only [encode, encodeI, decodeFields, opc_encodeR, rd_encodeR, rs1_encodeR,
      funct3_encodeR, opImm_funct3Of _ hop, hi]
    rfl
  | shiftImm op hop d r1 shamt =>
    have hi := opImm_shift hop d r1 shamt h
    simp only [encode] at hi
    simp only [encode, decodeFields, opc_encodeR, rd_encodeR, rs1_encodeR, funct3_encodeR, hi]
    rfl
  | addiw d r1 imm =>
    have hi := iImm_encodeI imm r1 0 d 0x1B
    simp only [encodeI] at hi
    have ho : opImm32 (encodeI imm r1 0 d 0x1B) 0 = some (.ADDIW, imm.signExtend 64) :=
      congrArg (fun v => some (Opcode.ADDIW, v)) hi
    simp only [encodeI] at ho
    simp only [encode, encodeI, decodeFields, opc_encodeR, rd_encodeR, rs1_encodeR,
      funct3_encodeR]
    change Option.map _ (opImm32 _ 0) = _
    rw [ho]
    rfl
  | shiftImmW op hop d r1 shamt =>
    have hi := opImm32_shift hop d r1 shamt
    simp only [encode] at hi
    simp only [encode, decodeFields, opc_encodeR, rd_encodeR, rs1_encodeR, funct3_encodeR, hi]
    rfl
  | opReg op hop d r1 r2 =>
    simp only [encode, decodeFields, opc_encodeR, rd_encodeR, rs1_encodeR, rs2_encodeR,
      funct3_encodeR, funct7_encodeR, opReg_functOf hop]
    rfl
  | opRegW op hop d r1 r2 =>
    simp only [encode, decodeFields, opc_encodeR, rd_encodeR, rs1_encodeR, rs2_encodeR,
      funct3_encodeR, funct7_encodeR, opReg32_functOf hop]
    rfl
  | fence fields r1 d =>
    simp only [encode, encodeI, decodeFields, opc_encodeR]
    rfl
  | ecall => rfl
  | ebreak => rfl

theorem decodeFields_encode_wide {i : BaseInst} (h : i.wideRightShift) :
    decodeFields (encode i) = none := by
  cases i with
  | shiftImm op hop d r1 shamt =>
    have hi := opImm_wideShift hop d r1 shamt h.1 h.2
    simp only [encode] at hi
    simp only [encode, decodeFields, opc_encodeR, rd_encodeR, rs1_encodeR, funct3_encodeR, hi]
    rfl
  | _ => exact False.elim h

/-- `decodeNext` gives back exactly `i` wherever its encoding is read. -/
def DecodesBack (i : BaseInst) : Prop :=
  ∀ (mem : MemoryReader) (pc : BitVec 64), pc &&& 0x3 = 0 → mem pc = some (encode i) →
    decodeNext mem pc = .ok ⟨pc, encode i, i.opcode, i.operands⟩

theorem not_decodesBack_of_wide {i : BaseInst} (hw : i.wideRightShift) : ¬ DecodesBack i := by
  intro h
  have hd := h (fun _ => some (encode i)) 0 rfl rfl
  simp only [decodeNext, decodeFields_encode_wide hw] at hd
  cases hd

theorem decodesBack_iff (i : BaseInst) : DecodesBack i ↔ ¬ i.wideRightShift := by
  constructor
  · intro h hw
    exact not_decodesBack_of_wide hw h
  · intro hw mem pc ha hm
    simp only [decodeNext, ha, hm, decodeFields_encode i hw]
    rfl

/-- `srli x1, x2, 32` is refused. -/
theorem srli_32_not_decoded : ¬ DecodesBack (.shiftImm .SRLI (by decide) 1 2 32) :=
  not_decodesBack_of_wide ⟨by simp, by simp⟩

/-- Words of the formats whose fixed bits the decoder does not check: JALR and MISC-MEM
(funct3), OP and OP-32 (funct7), SLLI (upper shift bits), ECALL and EBREAK (rd, rs1). -/
def looselyDecoded (w : BitVec 32) : Prop :=
  let opc := (w &&& 0x7F).toNat
  opc = 0x67 ∨ opc = 0x0F ∨ opc = 0x33 ∨ (opc = 0x13 ∧ funct3 w = 1) ∨
    (opc = 0x3B ∧ (funct3 w = 0 ∨ funct3 w = 1 ∨ funct3 w = 5)) ∨
    (opc = 0x73 ∧ funct3 w = 0 ∧ (getBits w 31 20 = 0 ∨ getBits w 31 20 = 1))

instance : DecidablePred looselyDecoded := fun w => by
  unfold looselyDecoded
  infer_instance

theorem opReg_total (f7 : ℕ) {f : ℕ} (h : f < 8) : ∃ op, opReg f7 f = some op := by
  have hc : f = 0 ∨ f = 1 ∨ f = 2 ∨ f = 3 ∨ f = 4 ∨ f = 5 ∨ f = 6 ∨ f = 7 := by omega
  rcases hc with rfl | rfl | rfl | rfl | rfl | rfl | rfl | rfl <;> exact ⟨_, rfl⟩

theorem funct3_lt (w : BitVec 32) : funct3 w < 8 :=
  (shift_mask w 12 3 (by omega)).trans_lt (Nat.mod_lt _ (by omega))

theorem decodeFields_of_loose {w : BitVec 32} (h : looselyDecoded w) :
    ∃ p, decodeFields w = some p := by
  unfold looselyDecoded at h
  unfold decodeFields
  rcases h with h | h | h | ⟨h, h3⟩ | ⟨h, h3⟩ | ⟨h, h3, hi⟩
  · rw [h]
    exact ⟨_, rfl⟩
  · rw [h]
    exact ⟨_, rfl⟩
  · obtain ⟨op, ho⟩ := opReg_total (funct7 w) (funct3_lt w)
    rw [h]
    simp only [ho]
    exact ⟨_, rfl⟩
  · rw [h, h3]
    exact ⟨_, rfl⟩
  · rw [h]
    rcases h3 with h3 | h3 | h3 <;> rw [h3] <;> exact ⟨_, rfl⟩
  · rw [h]
    rcases hi with hi | hi
    · refine ⟨(.ECALL, []), ?_⟩
      simp [system, h3, hi]
    · refine ⟨(.EBREAK, []), ?_⟩
      simp [system, h3, hi]

theorem branchOpcode_inv {f : ℕ} {op : Opcode} (h : branchOpcode f = some op) :
    op ∈ branchOps ∧ (funct3Of op).toNat = f := by
  unfold branchOpcode at h
  split at h <;> cases h <;> exact ⟨by simp [branchOps], rfl⟩

theorem loadOpcode_inv {f : ℕ} {op : Opcode} (h : loadOpcode f = some op) :
    op ∈ loadOps ∧ (funct3Of op).toNat = f := by
  unfold loadOpcode at h
  split at h <;> cases h <;> exact ⟨by simp [loadOps], rfl⟩

theorem storeOpcode_inv {f : ℕ} {op : Opcode} (h : storeOpcode f = some op) :
    op ∈ storeOps ∧ (funct3Of op).toNat = f := by
  unfold storeOpcode at h
  split at h <;> cases h <;> exact ⟨by simp [storeOps], rfl⟩

/-- OP-IMM is exact except for SLLI. -/
theorem opImm_inv {w : BitVec 32} {f : ℕ} {p : Opcode × BitVec 64} (h : opImm w f = some p) :
    f = 1 ∨ (p.1 ∈ immOps ∧ (funct3Of p.1).toNat = f) ∨
      (p.1 ∈ shiftOps ∧ (funct3Of p.1).toNat = f ∧ (funct7Of p.1).toNat = funct7 w) := by
  unfold opImm at h
  split at h
  case h_7 => exact Or.inl rfl
  case h_8 =>
    split_ifs at h with h0 h1 <;> cases h
    · exact Or.inr (Or.inr ⟨by simp [shiftOps], rfl, h0.symm⟩)
    · exact Or.inr (Or.inr ⟨by simp [shiftOps], rfl, h1.symm⟩)
  case h_9 => cases h
  all_goals cases h; exact Or.inr (Or.inl ⟨by simp [immOps], rfl⟩)

theorem opImm32_inv {w : BitVec 32} {f : ℕ} {p : Opcode × BitVec 64}
    (h : opImm32 w f = some p) :
    f = 0 ∨ (p.1 ∈ shiftOpsW ∧ (funct3Of p.1).toNat = f ∧
      (funct7Of p.1).toNat = funct7 w) := by
  unfold opImm32 at h
  split at h
  · exact Or.inl rfl
  · split_ifs at h with h0
    cases h
    exact Or.inr ⟨by simp [shiftOpsW], rfl, h0.symm⟩
  · split_ifs at h with h0 h1 <;> cases h
    · exact Or.inr ⟨by simp [shiftOpsW], rfl, h0.symm⟩
    · exact Or.inr ⟨by simp [shiftOpsW], rfl, h1.symm⟩
  · cases h

theorem opReg32_inv {f7 f : ℕ} {op : Opcode} (h : opReg32 f7 f = some op) :
    f = 0 ∨ f = 1 ∨ f = 5 := by
  unfold opReg32 at h
  split at h <;> simp_all

theorem system_inv {w : BitVec 32} {op : Opcode} (h : system w = some op) :
    funct3 w = 0 ∧ (getBits w 31 20 = 0 ∨ getBits w 31 20 = 1) := by
  unfold system at h
  split_ifs at h with h3 h0 h1
  · exact ⟨h3, Or.inl h0⟩
  · exact ⟨h3, Or.inr h1⟩

section Reencode
variable (f7 : BitVec 7) (r2 r1 : BitVec 5) (f3 : BitVec 3) (d : BitVec 5) (opc : BitVec 7)

theorem encodeI_fields : encodeI (f7 ++ r2) r1 f3 d opc = encodeR f7 r2 r1 f3 d opc := by
  rw [encodeI, extract_high, extract_low]

theorem encodeS_fields : encodeS (f7 ++ d) r2 r1 f3 opc = encodeR f7 r2 r1 f3 d opc := by
  rw [encodeS, extract_high, extract_low]

theorem encodeU_fields :
    encodeU (f7 ++ r2 ++ r1 ++ f3) d opc = encodeR f7 r2 r1 f3 d opc := by
  apply BitVec.eq_of_toNat_eq
  have := f7.isLt
  have := r2.isLt
  have := r1.isLt
  have := f3.isLt
  rw [encodeU, toNat_encodeR, toNat_encodeR]
  simp only [BitVec.extractLsb'_toNat, toNat_append_add, Nat.shiftRight_eq_div_pow]
  omega

theorem encodeB_parts (s : BitVec 1) (b : BitVec 1) (hi : BitVec 6) (lo : BitVec 4) :
    encodeB (s ++ b ++ hi ++ lo) r2 r1 f3 opc = encodeR (s ++ hi) r2 r1 f3 (lo ++ b) opc := by
  have hhi := hi.isLt
  have hlo := lo.isLt
  have hb := b.isLt
  have hv : (s ++ b ++ hi ++ lo).toNat =
      ((s.toNat * 2 ^ 1 + b.toNat) * 2 ^ 6 + hi.toNat) * 2 ^ 4 + lo.toNat := by
    simp only [toNat_append_add]
  have hv1 : (s ++ b ++ hi ++ lo).toNat =
      0 * 2 ^ (11 + 1) + s.toNat * 2 ^ 11 + (b.toNat * 2 ^ 10 + hi.toNat * 2 ^ 4 + lo.toNat) := by
    rw [hv]
    ring
  have hv2 : (s ++ b ++ hi ++ lo).toNat =
      (s.toNat * 2 + b.toNat) * 2 ^ (4 + 6) + hi.toNat * 2 ^ 4 + lo.toNat := by
    rw [hv]
    ring
  have hv3 : (s ++ b ++ hi ++ lo).toNat =
      s.toNat * 2 ^ (10 + 1) + b.toNat * 2 ^ 10 + (hi.toNat * 2 ^ 4 + lo.toNat) := by
    rw [hv]
    ring
  have h1 : (s ++ b ++ hi ++ lo).extractLsb' 11 1 = s :=
    extract_of_toNat (a := 0) s hv1 (by omega)
  have h2 : (s ++ b ++ hi ++ lo).extractLsb' 4 6 = hi :=
    extract_of_toNat (a := s.toNat * 2 + b.toNat) hi hv2 hlo
  have h3 : (s ++ b ++ hi ++ lo).extractLsb' 10 1 = b :=
    extract_of_toNat (a := s.toNat) b hv3 (by omega)
  rw [encodeB, extract_low, h1, h2, h3]

theorem encodeB_fields :
    encodeB (f7.extractLsb' 6 1 ++ d.extractLsb' 0 1 ++ f7.extractLsb' 0 6 ++
      d.extractLsb' 1 4) r2 r1 f3 opc = encodeR f7 r2 r1 f3 d opc := by
  rw [encodeB_parts, append_slices (m := 1) (n := 6) f7, append_slices (m := 4) (n := 1) d]

theorem encodeJ_parts (s : BitVec 1) (b : BitVec 1) (hi : BitVec 6) (lo : BitVec 4) :
    encodeJ (s ++ r1 ++ f3 ++ b ++ hi ++ lo) d opc =
      encodeR (s ++ hi) (lo ++ b) r1 f3 d opc := by
  have hr1 := r1.isLt
  have hf3 := f3.isLt
  have hhi := hi.isLt
  have hlo := lo.isLt
  have hb := b.isLt
  have hv : (s ++ r1 ++ f3 ++ b ++ hi ++ lo).toNat =
      ((((s.toNat * 2 ^ 5 + r1.toNat) * 2 ^ 3 + f3.toNat) * 2 ^ 1 + b.toNat) * 2 ^ 6 +
        hi.toNat) * 2 ^ 4 + lo.toNat := by
    simp only [toNat_append_add]
  have h1 : (s ++ r1 ++ f3 ++ b ++ hi ++ lo).extractLsb' 19 1 = s :=
    extract_of_toNat (a := 0) (z := r1.toNat * 2 ^ 14 + f3.toNat * 2 ^ 11 + b.toNat * 2 ^ 10 +
      hi.toNat * 2 ^ 4 + lo.toNat) s (by rw [hv]; ring) (by omega)
  have h2 : (s ++ r1 ++ f3 ++ b ++ hi ++ lo).extractLsb' 4 6 = hi :=
    extract_of_toNat (a := s.toNat * 2 ^ 9 + r1.toNat * 2 ^ 4 + f3.toNat * 2 + b.toNat)
      (z := lo.toNat) hi (by rw [hv]; ring) hlo
  have h3 : (s ++ r1 ++ f3 ++ b ++ hi ++ lo).extractLsb' 10 1 = b :=
    extract_of_toNat (a := s.toNat * 2 ^ 8 + r1.toNat * 2 ^ 3 + f3.toNat)
      (z := hi.toNat * 2 ^ 4 + lo.toNat) b (by rw [hv]; ring) (by omega)
  have h4 : (s ++ r1 ++ f3 ++ b ++ hi ++ lo).extractLsb' 14 5 = r1 :=
    extract_of_toNat (a := s.toNat) (z := f3.toNat * 2 ^ 11 + b.toNat * 2 ^ 10 +
      hi.toNat * 2 ^ 4 + lo.toNat) r1 (by rw [hv]; ring) (by omega)
  have h5 : (s ++ r1 ++ f3 ++ b ++ hi ++ lo).extractLsb' 11 3 = f3 :=
    extract_of_toNat (a := s.toNat * 2 ^ 5 + r1.toNat) (z := b.toNat * 2 ^ 10 +
      hi.toNat * 2 ^ 4 + lo.toNat) f3 (by rw [hv]; ring) (by omega)
  rw [encodeJ, extract_low, h1, h2, h3, h4, h5]

theorem encodeJ_fields :
    encodeJ (f7.extractLsb' 6 1 ++ r1 ++ f3 ++ r2.extractLsb' 0 1 ++ f7.extractLsb' 0 6 ++
      r2.extractLsb' 1 4) d opc = encodeR f7 r2 r1 f3 d opc := by
  rw [encodeJ_parts, append_slices (m := 1) (n := 6) f7,
    append_slices (m := 4) (n := 1) r2]

end Reencode

/-- Outside the loosely decoded formats, only encodings are accepted. -/
theorem encoding_of_decodeFields {w : BitVec 32} {p : Opcode × List Operand}
    (h : decodeFields w = some p) : looselyDecoded w ∨ ∃ i, encode i = w := by
  by_cases hl : looselyDecoded w
  · exact Or.inl hl
  right
  obtain ⟨f7, r2, r1, f3, d, opc, rfl⟩ : ∃ f7 r2 r1 f3 d opc, encodeR f7 r2 r1 f3 d opc = w :=
    ⟨_, _, _, _, _, _, encodeR_extract w⟩
  have hopc : ∀ c : BitVec 7, opc.toNat = c.toNat → opc = c := fun c => BitVec.eq_of_toNat_eq
  have hf3 : ∀ c : BitVec 3, c.toNat = f3.toNat → c = f3 := fun c => BitVec.eq_of_toNat_eq
  have hf7 : ∀ c : BitVec 7, c.toNat = f7.toNat → c = f7 := fun c => BitVec.eq_of_toNat_eq
  simp only [looselyDecoded, opc_encodeR, funct3_encodeR] at hl
  unfold decodeFields at h
  simp only [opc_encodeR, funct3_encodeR] at h
  split at h
  case h_1 ho =>
    rw [hopc 0x37 ho]
    exact ⟨.lui d (f7 ++ r2 ++ r1 ++ f3), encodeU_fields ..⟩
  case h_2 ho =>
    rw [hopc 0x17 ho]
    exact ⟨.auipc d (f7 ++ r2 ++ r1 ++ f3), encodeU_fields ..⟩
  case h_3 ho =>
    rw [hopc 0x6F ho]
    exact ⟨.jal d _, encodeJ_fields ..⟩
  case h_4 ho => exact absurd (Or.inl ho) hl
  case h_5 ho =>
    obtain ⟨op, hop, -⟩ := Option.map_eq_some_iff.mp h
    obtain ⟨hm, h3⟩ := branchOpcode_inv hop
    rw [hopc 0x63 ho, ← hf3 _ h3]
    exact ⟨.branch op hm r1 r2 _, encodeB_fields ..⟩
  case h_6 ho =>
    obtain ⟨op, hop, -⟩ := Option.map_eq_some_iff.mp h
    obtain ⟨hm, h3⟩ := loadOpcode_inv hop
    rw [hopc 0x03 ho, ← hf3 _ h3]
    exact ⟨.load op hm d r1 (f7 ++ r2), encodeI_fields ..⟩
  case h_7 ho =>
    obtain ⟨op, hop, -⟩ := Option.map_eq_some_iff.mp h
    obtain ⟨hm, h3⟩ := storeOpcode_inv hop
    rw [hopc 0x23 ho, ← hf3 _ h3]
    exact ⟨.store op hm r1 r2 (f7 ++ d), encodeS_fields ..⟩
  case h_8 ho =>
    obtain ⟨q, hq, -⟩ := Option.map_eq_some_iff.mp h
    rcases opImm_inv hq with h1 | ⟨hm, h3⟩ | ⟨hm, h3, h7⟩
    · exact absurd (Or.inr (Or.inr (Or.inr (Or.inl ⟨ho, h1⟩)))) hl
    · rw [hopc 0x13 ho, ← hf3 _ h3]
      exact ⟨.opImm q.1 hm d r1 (f7 ++ r2), encodeI_fields ..⟩
    · rw [funct7_encodeR] at h7
      rw [hopc 0x13 ho, ← hf3 _ h3]
      refine ⟨.shiftImm q.1 hm d r1 (f7.extractLsb' 0 1 ++ r2), ?_⟩
      rw [encode, extract_high, extract_low, hf7 _ h7, append_slices (m := 6) (n := 1) f7]
  case h_9 ho =>
    obtain ⟨q, hq, -⟩ := Option.map_eq_some_iff.mp h
    rcases opImm32_inv hq with h0 | ⟨hm, h3, h7⟩
    · rw [hopc 0x1B ho, ← hf3 0 h0.symm]
      exact ⟨.addiw d r1 (f7 ++ r2), encodeI_fields ..⟩
    · rw [funct7_encodeR] at h7
      rw [hopc 0x1B ho, ← hf3 _ h3, ← hf7 _ h7]
      exact ⟨.shiftImmW q.1 hm d r1 r2, rfl⟩
  case h_10 ho => exact absurd (Or.inr (Or.inr (Or.inl ho))) hl
  case h_11 ho =>
    obtain ⟨op, hop, -⟩ := Option.map_eq_some_iff.mp h
    exact absurd (Or.inr (Or.inr (Or.inr (Or.inr (Or.inl ⟨ho, opReg32_inv hop⟩))))) hl
  case h_12 ho => exact absurd (Or.inr (Or.inl ho)) hl
  case h_13 ho =>
    obtain ⟨op, hop, -⟩ := Option.map_eq_some_iff.mp h
    have hs := system_inv hop
    rw [funct3_encodeR] at hs
    exact absurd (Or.inr (Or.inr (Or.inr (Or.inr (Or.inr ⟨ho, hs⟩))))) hl
  case h_14 => cases h

/-- A word is refused at every aligned readable address, and a block that reaches it,
by fall through or as its first instruction, ends there with Trap. -/
def Refused (w : BitVec 32) : Prop :=
  ∀ (mem : MemoryReader) (pc : BitVec 64), pc &&& 0x3 = 0 → mem pc = some w →
    decodeNext mem pc = .error .InvalidOpcode ∧
      ∀ (known : BitVec 64 → Bool) (start : BitVec 64) (fuel : ℕ) (insts : List DecodedInst),
        ¬ (pc ≠ start ∧ known pc) →
          scan mem known start (fuel + 1) pc insts = some (.ok ⟨start, insts, .Trap, []⟩)

theorem not_refused_of_loose {w : BitVec 32} (hl : looselyDecoded w) : ¬ Refused w := by
  intro h
  obtain ⟨p, hp⟩ := decodeFields_of_loose hl
  have hd := (h (fun _ => some w) 0 rfl rfl).1
  simp only [decodeNext, hp] at hd
  cases hd

theorem refused_iff (w : BitVec 32) (hw : ∀ i, encode i ≠ w) :
    Refused w ↔ ¬ looselyDecoded w := by
  constructor
  · intro h hl
    exact not_refused_of_loose hl h
  · intro hl mem pc ha hm
    have hn : decodeFields w = none := by
      cases hp : decodeFields w with
      | none => rfl
      | some p =>
        rcases encoding_of_decodeFields hp with h | ⟨i, hi⟩
        · exact absurd h hl
        · exact absurd hi (hw i)
    have hd : decodeNext mem pc = .error .InvalidOpcode := by
      simp only [decodeNext, ha, hm, hn]
      rfl
    refine ⟨hd, fun known start fuel insts hk => ?_⟩
    simp only [scan, if_neg hk, hd]

/-- The major opcodes of the encodings. -/
theorem encode_opc (i : BaseInst) : (encode i &&& 0x7F).toNat ∈
    [0x37, 0x17, 0x6F, 0x67, 0x63, 0x03, 0x23, 0x13, 0x1B, 0x33, 0x3B, 0x0F, 0x73] := by
  cases i <;> simp only [encode, encodeU, encodeJ, encodeI, encodeB, encodeS, opc_encodeR] <;>
    decide

/-- The all-zero word is no encoding and is refused. -/
theorem refused_zero : Refused 0 := by
  refine (refused_iff 0 ?_).mpr (by decide)
  intro i hi
  have h := encode_opc i
  rw [hi] at h
  exact absurd h (by decide)

/-- `mul x1, x2, x3` belongs to another extension and is decoded as an addition. -/
theorem mul_not_refused :
    (∀ i, encode i ≠ 0x023100B3) ∧ ¬ Refused 0x023100B3 := by
  have hne : ∀ i, encode i ≠ 0x023100B3 := by
    intro i hi
    have h7 := congrArg funct7 hi
    have ho := congrArg (fun w : BitVec 32 => (w &&& 0x7F).toNat) hi
    cases i with
    | opReg op hop rd rs1 rs2 =>
      simp only [encode, funct7_encodeR] at h7
      simp only [regOps, List.mem_cons, List.not_mem_nil, or_false] at hop
      rcases hop with rfl | rfl | rfl | rfl | rfl | rfl | rfl | rfl | rfl | rfl <;>
        exact absurd h7 (by decide)
    | _ =>
      simp only [encode, encodeU, encodeJ, encodeI, encodeB, encodeS, opc_encodeR] at ho
      exact absurd ho (by decide)
  exact ⟨hne, not_refused_of_loose (by decide)⟩

end Riscy.RISCV
