import Riscy.AArch64Printed
import Riscy.RISCVEncoding

/-! The offsets of the accesses that are printed. Those of guest loads and stores come from
12-bit RISC-V offsets, which AArch64 can encode only in part. -/
namespace Riscy.AArch64
open IR (TypeKind Payload)
open RISCV

/-- The two immediate forms of a load or store: nine bits signed, or twelve bits unsigned
in units of the access. -/
def Size.legal (size : Size) (off : BitVec 32) : Prop :=
  (-256 ≤ off.toInt ∧ off.toInt ≤ 255) ∨
    (0 ≤ off.toInt ∧ off.toInt % size.bytes = 0 ∧ off.toInt ≤ 4095 * size.bytes)

instance (size : Size) (off : BitVec 32) : Decidable (size.legal off) := by
  unfold Size.legal
  infer_instance

/-- The line is no access, or its offset is legal. -/
def Line.Encodable {ρ : Type} : Line ρ → Prop
  | .ldr size _ _ off | .str size _ _ off => size.legal off
  | _ => True

theorem Line.encodable_map {ρ σ : Type} (f : ρ → σ) (l : Line ρ) :
    (l.map f).Encodable ↔ l.Encodable := by
  cases l <;> rfl

/-- Size and offset of a guest access that has a lowering. -/
def guestAccess (inst : DecodedInst) : Option (Size × BitVec 64) :=
  match inst.opcode, inst.operands with
  | .LW, [.reg _, .mem _ off] | .LWU, [.reg _, .mem _ off] => some (.w, off)
  | .LD, [.reg _, .mem _ off] => some (.x, off)
  | .SW, [.mem _ off, .reg _] => some (.w, off)
  | .SD, [.mem _ off, .reg _] => some (.x, off)
  | _, _ => none

/-- The offset of the access is small, or a multiple of its size that is not negative. -/
def OffsetFits (inst : DecodedInst) : Prop :=
  ∀ size off, guestAccess inst = some (size, off) →
    (-256 ≤ off.toInt ∧ off.toInt ≤ 255) ∨ (0 ≤ off.toInt ∧ off.toInt % size.bytes = 0)

section Offsets

theorem decodeFields_load {w : BitVec 32} {op : Opcode} {rd base : ℕ} {off : BitVec 64}
    (h : decodeFields w = some (op, [.reg rd, .mem base off])) : off = iImm w := by
  unfold decodeFields at h
  split at h
  case h_4 =>
    cases h
    rfl
  case h_6 =>
    obtain ⟨o, -, he⟩ := Option.map_eq_some_iff.mp h
    cases he
    rfl
  case h_1 | h_2 | h_3 | h_12 | h_14 => cases h
  all_goals
    obtain ⟨o, -, he⟩ := Option.map_eq_some_iff.mp h
    cases he

theorem decodeFields_store {w : BitVec 32} {op : Opcode} {rs base : ℕ} {off : BitVec 64}
    (h : decodeFields w = some (op, [.mem base off, .reg rs])) : off = sImm w := by
  unfold decodeFields at h
  split at h
  case h_7 =>
    obtain ⟨o, -, he⟩ := Option.map_eq_some_iff.mp h
    cases he
    rfl
  case h_1 | h_2 | h_3 | h_4 | h_12 | h_14 => cases h
  all_goals
    obtain ⟨o, -, he⟩ := Option.map_eq_some_iff.mp h
    cases he

theorem guestAccess_operands {inst : DecodedInst} {size : Size} {off : BitVec 64}
    (h : guestAccess inst = some (size, off)) :
    (∃ rd base, inst.operands = [.reg rd, .mem base off]) ∨
      ∃ base rs, inst.operands = [.mem base off, .reg rs] := by
  unfold guestAccess at h
  split at h
  case h_1 _ _ ho | h_2 _ _ ho | h_3 _ _ ho =>
    cases h
    exact Or.inl ⟨_, _, ho⟩
  case h_4 _ _ ho | h_5 _ _ ho =>
    cases h
    exact Or.inr ⟨_, _, ho⟩
  case h_6 => cases h

/-- Offsets of loads and stores are twelve bits wide. -/
theorem guestAccess_offset {mem : MemoryReader} {pc : BitVec 64} {inst : DecodedInst}
    (hd : decodeNext mem pc = .ok inst) {size : Size} {off : BitVec 64}
    (ha : guestAccess inst = some (size, off)) : ∃ v : BitVec 12, off = v.signExtend 64 := by
  obtain ⟨-, -, -, hf⟩ := decodeNext_ok hd
  obtain ⟨f7, r2, r1, f3, d, opc, hw⟩ :
      ∃ f7 r2 r1 f3 d opc, encodeR f7 r2 r1 f3 d opc = inst.raw :=
    ⟨_, _, _, _, _, _, encodeR_extract inst.raw⟩
  rw [← hw] at hf
  rcases guestAccess_operands ha with ⟨rd, base, ho⟩ | ⟨base, rs, ho⟩
  · rw [ho] at hf
    exact ⟨_, (decodeFields_load hf).trans (iImm_encodeR ..)⟩
  · rw [ho] at hf
    exact ⟨_, (decodeFields_store hf).trans (sImm_encodeR ..)⟩

/-- On twelve bits the multiples of the size are within the unsigned form. -/
theorem legal_iff (size : Size) (v : BitVec 12) :
    size.legal ((v.signExtend 64).setWidth 32) ↔
      (-256 ≤ (v.signExtend 64).toInt ∧ (v.signExtend 64).toInt ≤ 255) ∨
        (0 ≤ (v.signExtend 64).toInt ∧ (v.signExtend 64).toInt % size.bytes = 0) := by
  have hlo := BitVec.le_toInt v
  have hhi := BitVec.toInt_lt (x := v)
  have h64 : (v.signExtend 64).toInt = v.toInt := BitVec.toInt_signExtend_of_le (by omega)
  have h32 : ((v.signExtend 64).setWidth 32).toInt = v.toInt := by
    have hcond := BitVec.toInt_eq_toNat_cond (v.signExtend 64)
    rw [h64] at hcond
    rw [BitVec.toInt_setWidth, Int.bmod_def]
    split_ifs at hcond ⊢ <;> omega
  have hb : 1 ≤ size.bytes := by cases size <;> decide
  rw [Size.legal, h64, h32]
  omega

end Offsets

section Lines
variable {start : BitVec 64} {k : ℕ}

/-- The accesses of an instruction are encodable. -/
def AccessOk (i : IR.Instr) : Prop :=
  match i.payload, i.dest with
  | .Load _ off ty, some _ => (sizeOf ty).legal (off.setWidth 32)
  | .Store _ _ off ty, _ => (sizeOf ty).legal (off.setWidth 32)
  | _, _ => True

/-- Guest registers that the payload names. -/
def GuestReg (p : Payload) (r : ℕ) : Prop := p = .ReadReg r ∨ ∃ v, p = .WriteReg r v

theorem guestReg_legal {r : ℕ} (hr : r < 32) : Size.x.legal (guestRegOffsetBytes r) := by
  have hn : (guestRegOffsetBytes r).toNat = r * 8 := by
    rw [guestRegOffsetBytes, BitVec.toNat_ofNat]
    omega
  have hi : (guestRegOffsetBytes r).toInt = r * 8 := by
    rw [BitVec.toInt_eq_toNat_of_lt (by omega), hn]
    rfl
  left
  rw [hi]
  omega

theorem constLines_encodable (d : VName) (v : BitVec 64) :
    ∀ l ∈ constLines d v, l.Encodable := by
  have hk : ∀ part lsl, ∀ l ∈ movkLine d part lsl, l.Encodable := by
    intro part lsl l hl
    unfold movkLine at hl
    split_ifs at hl
    · rw [List.mem_singleton.mp hl]
      trivial
    · cases hl
  intro l hl
  unfold constLines at hl
  split_ifs at hl
  · rw [List.mem_singleton.mp hl]
    trivial
  · simp only [List.mem_append, List.mem_singleton] at hl
    rcases hl with ((rfl | hl) | hl) | hl
    · trivial
    · exact hk _ _ l hl
    · exact hk _ _ l hl
    · exact hk _ _ l hl

theorem selectedLines_encodable {i : IR.Instr} (hr : ∀ r, GuestReg i.payload r → r < 32) :
    (∀ l ∈ selectedLines start k i, l.Encodable) ↔ AccessOk i := by
  obtain ⟨dest, payload⟩ := i
  cases payload with
  | Const ty v =>
    cases dest with
    | none => simp [selectedLines, AccessOk]
    | some d => exact ⟨fun _ => trivial, fun _ => constLines_encodable _ v⟩
  | ReadReg r =>
    have hlegal := guestReg_legal (hr r (Or.inl rfl))
    cases dest <;> simp [selectedLines, AccessOk, Line.Encodable, hlegal]
  | WriteReg r v =>
    have hlegal := guestReg_legal (hr r (Or.inr ⟨v, rfl⟩))
    simp [selectedLines, AccessOk, Line.Encodable, hlegal]
  | ZExt src dst =>
    cases dest <;> simp only [selectedLines, AccessOk, extLine] <;> try split_ifs
    all_goals simp [Line.Encodable]
  | SExt src dst =>
    cases dest <;> simp only [selectedLines, AccessOk, extLine] <;> try split_ifs
    all_goals simp [Line.Encodable]
  | _ => cases dest <;> simp [selectedLines, AccessOk, Line.Encodable, addrLine]

theorem linesAll_encodable {is : List IR.Instr}
    (hr : ∀ i ∈ is, ∀ r, GuestReg i.payload r → r < 32) :
    (∀ l ∈ linesAll start k is, l.Encodable) ↔ ∀ i ∈ is, AccessOk i := by
  induction is generalizing k with
  | nil => simp [linesAll]
  | cons i is ih =>
    rw [linesAll, List.forall_mem_append, List.forall_mem_cons,
      selectedLines_encodable (hr i (by simp)), ih fun j hj => hr j (by simp [hj])]

end Lines

section Lowered

def sourceRegs : Source → List ℕ
  | .reg r => [r]
  | .imm _ => []

/-- The guest registers that a lowering reads or writes. -/
def guestRegs : Lowering → List ℕ
  | .alu _ rd rs1 src | .addWord rd rs1 src => rd :: rs1 :: sourceRegs src
  | .loadWord _ rd base _ | .loadDouble rd base _ => [rd, base]
  | .store _ base rs _ => [base, rs]
  | .compare _ rs1 rs2 => [rs1, rs2]
  | .auipc rd _ | .link rd _ => [rd]
  | .jumpReg rd base _ _ => [rd, base]
  | .nothing => []

/-- The guest access that a lowering makes. -/
def access : Lowering → Option (Size × BitVec 64)
  | .loadWord _ _ _ off => some (.w, off)
  | .loadDouble _ _ off => some (.x, off)
  | .store ty _ _ off => some (sizeOf ty, off)
  | _ => none

theorem code_payload {n : ℕ} {l : Lowering} {i : IR.Instr} (hi : i ∈ l.code n) :
    i.payload ∈ l.values n ++ l.writes n := by
  rcases List.mem_append.mp hi with hi | hi
  · have hm := List.mem_map_of_mem (f := IR.Instr.payload) hi
    rw [numbered_payloads] at hm
    exact List.mem_append_left _ hm
  · obtain ⟨p, hp, rfl⟩ := List.mem_map.mp hi
    exact List.mem_append_right _ hp

theorem code_guestReg {n : ℕ} {l : Lowering} {i : IR.Instr} (hi : i ∈ l.code n) {r : ℕ}
    (hr : GuestReg i.payload r) : r ∈ guestRegs l := by
  have hwrite : ∀ rd v, i.payload ∈ writeBack rd v → r = rd := by
    intro rd v hw
    unfold writeBack at hw
    split_ifs at hw
    · cases hw
    · rw [List.mem_singleton.mp hw] at hr
      simpa [GuestReg, eq_comm] using hr
  rcases List.mem_append.mp (code_payload hi) with hp | hp
  · clear hi
    generalize i.payload = p at hp hr
    cases l with
    | alu k rd rs1 src =>
      cases src <;> simp only [Lowering.values, Source.payload, List.mem_cons, List.not_mem_nil,
        or_false] at hp <;> rcases hp with rfl | rfl | rfl <;>
        simp_all [GuestReg, guestRegs, sourceRegs]
    | addWord rd rs1 src =>
      cases src <;> simp only [Lowering.values, Source.payload, List.mem_cons, List.not_mem_nil,
        or_false] at hp <;> rcases hp with rfl | rfl | rfl | rfl | rfl <;>
        simp_all [GuestReg, guestRegs, sourceRegs]
    | loadWord signed rd base off =>
      cases signed <;> simp only [Lowering.values, List.mem_cons, List.not_mem_nil,
        or_false] at hp <;> rcases hp with rfl | rfl | rfl <;> simp_all [GuestReg, guestRegs]
    | loadDouble rd base off =>
      simp only [Lowering.values, List.mem_cons, List.not_mem_nil, or_false] at hp
      rcases hp with rfl | rfl <;> simp_all [GuestReg, guestRegs]
    | store ty base rs off =>
      simp only [Lowering.values, List.mem_cons, List.not_mem_nil, or_false] at hp
      rcases hp with rfl | rfl <;> simp_all [GuestReg, guestRegs]
    | compare c rs1 rs2 =>
      simp only [Lowering.values, List.mem_cons, List.not_mem_nil, or_false] at hp
      rcases hp with rfl | rfl | rfl <;> simp_all [GuestReg, guestRegs]
    | auipc rd v =>
      simp only [Lowering.values, List.mem_cons, List.not_mem_nil, or_false] at hp
      rcases hp with rfl | rfl | rfl <;> simp_all [GuestReg]
    | link rd ra =>
      rw [List.mem_singleton.mp hp] at hr
      simp [GuestReg] at hr
    | jumpReg rd base off ra =>
      simp only [Lowering.values, List.mem_cons, List.not_mem_nil, or_false] at hp
      rcases hp with rfl | rfl | rfl | rfl | rfl | rfl <;> simp_all [GuestReg, guestRegs]
    | nothing => cases hp
  · cases l with
    | store ty base rs off =>
      rw [List.mem_singleton.mp hp] at hr
      simp [GuestReg] at hr
    | compare c rs1 rs2 => cases hp
    | nothing => cases hp
    | _ => simp [guestRegs, hwrite _ _ hp]

theorem code_access {n : ℕ} {l : Lowering} : (∀ i ∈ l.code n, AccessOk i) ↔
    ∀ size off, access l = some (size, off) → size.legal (off.setWidth 32) := by
  have hwrite : ∀ rd v, (∀ i ∈ unnumbered (writeBack rd v), AccessOk i) ↔ True := by
    refine fun rd v => ⟨fun _ => trivial, fun _ i hi => ?_⟩
    unfold writeBack at hi
    split_ifs at hi
    · cases hi
    · rw [List.mem_singleton.mp hi]
      trivial
  rw [Lowering.code, List.forall_mem_append]
  cases l with
  | alu k rd rs1 src =>
    cases src <;> simp only [Lowering.values, Lowering.writes, hwrite] <;>
      simp [numbered, AccessOk, access, Source.payload]
  | addWord rd rs1 src =>
    cases src <;> simp only [Lowering.values, Lowering.writes, hwrite] <;>
      simp [numbered, AccessOk, access, Source.payload]
  | loadWord signed rd base off =>
    cases signed <;> simp only [Lowering.values, Lowering.writes, hwrite] <;>
      simp [numbered, AccessOk, access, sizeOf]
  | _ =>
    simp only [Lowering.values, Lowering.writes, hwrite]
    simp [numbered, unnumbered, AccessOk, access, sizeOf]

theorem aluLowering_guestRegs {op : Opcode} {rd rs1 r : ℕ} {src : Source}
    (h : r ∈ guestRegs (aluLowering op rd rs1 src)) : r ∈ rd :: rs1 :: sourceRegs src := by
  unfold aluLowering at h
  split_ifs at h
  · exact h
  · split at h
    · exact h
    · cases h

theorem guestRegs_lt {inst : DecodedInst} (hs : Shaped inst) :
    ∀ r ∈ guestRegs (lowering inst), r < 32 := by
  intro v hv
  cases hs with
  | regImm pc raw op rd i hop hrd =>
    simp only [lowering] at hv
    split_ifs at hv <;> simp only [guestRegs, List.mem_singleton, List.not_mem_nil] at hv
    · exact hv ▸ hrd
    · exact hv ▸ hrd
  | regMem pc raw op rd base off hop hrd hbase =>
    simp only [lowering] at hv
    split at hv <;> simp only [guestRegs, List.mem_cons, List.not_mem_nil, or_false] at hv
    all_goals rcases hv with rfl | rfl
    all_goals assumption
  | memReg pc raw op base rs off hop hbase hrs =>
    simp only [lowering] at hv
    split at hv <;> simp only [guestRegs, List.mem_cons, List.not_mem_nil, or_false] at hv
    all_goals rcases hv with rfl | rfl
    all_goals assumption
  | regRegImm pc raw op r s i hop hr hs =>
    simp only [lowering] at hv
    split at hv
    · simp only [guestRegs, List.mem_cons, List.not_mem_nil, or_false] at hv
      rcases hv with rfl | rfl
      all_goals assumption
    · have hm := aluLowering_guestRegs hv
      simp only [sourceRegs, List.mem_cons, List.not_mem_nil, or_false] at hm
      rcases hm with rfl | rfl
      all_goals assumption
  | regRegReg pc raw op rd rs1 rs2 hop hrd hrs1 hrs2 =>
    have hm := aluLowering_guestRegs hv
    simp only [sourceRegs, List.mem_cons, List.not_mem_nil, or_false] at hm
    rcases hm with rfl | rfl | rfl
    all_goals assumption
  | bare pc raw op hop => cases hv

theorem access_eq {inst : DecodedInst} (hs : Shaped inst) :
    access (lowering inst) = guestAccess inst := by
  cases hs with
  | regMem pc raw op rd base off hop hrd hbase =>
    simp only [List.mem_cons, List.not_mem_nil, or_false] at hop
    rcases hop with rfl | rfl | rfl | rfl | rfl | rfl | rfl | rfl <;> rfl
  | memReg pc raw op base rs off hop hbase hrs =>
    simp only [List.mem_cons, List.not_mem_nil, or_false] at hop
    rcases hop with rfl | rfl | rfl | rfl <;> rfl
  | regImm pc raw op rd i hop hrd =>
    simp only [List.mem_cons, List.not_mem_nil, or_false] at hop
    rcases hop with rfl | rfl | rfl <;> rfl
  | bare pc raw op hop =>
    simp only [List.mem_cons, List.not_mem_nil, or_false] at hop
    rcases hop with rfl | rfl | rfl <;> rfl
  | regRegImm pc raw op r s i hop hr hs =>
    simp only [List.mem_cons, List.not_mem_nil, or_false] at hop
    rcases hop with rfl | rfl | rfl | rfl | rfl | rfl | rfl | rfl | rfl | rfl | rfl | rfl | rfl |
      rfl | rfl | rfl | rfl | rfl | rfl <;> rfl
  | regRegReg pc raw op rd rs1 rs2 hop hrd hrs1 hrs2 =>
    simp only [List.mem_cons, List.not_mem_nil, or_false] at hop
    rcases hop with rfl | rfl | rfl | rfl | rfl | rfl | rfl | rfl | rfl | rfl | rfl | rfl | rfl |
      rfl | rfl <;> rfl

end Lowered

section Blocks
variable {mem : MemoryReader} {entry : BitVec 64} {cfg : CFG} {bb : BasicBlock} {o : ItemOrders}

theorem inst_access {pc : BitVec 64} {inst : DecodedInst} (hd : decodeNext mem pc = .ok inst)
    (n : ℕ) : (∀ i ∈ (lowering inst).code n, AccessOk i) ↔ OffsetFits inst := by
  rw [code_access, access_eq (decodeNext_shaped hd)]
  refine forall_congr' fun size => forall_congr' fun off => imp_congr_right fun ha => ?_
  obtain ⟨v, rfl⟩ := guestAccess_offset hd ha
  exact legal_iff size v

theorem emitted_access {is : List DecodedInst} {n : ℕ}
    (hd : ∀ inst ∈ is, ∃ pc, decodeNext mem pc = .ok inst) :
    (∀ i ∈ emitted n is, AccessOk i) ↔ ∀ inst ∈ is, OffsetFits inst := by
  induction is generalizing n with
  | nil => simp [emitted]
  | cons inst is ih =>
    obtain ⟨pc, hpc⟩ := hd inst (by simp)
    rw [emitted_cons, List.forall_mem_append, List.forall_mem_cons, inst_access hpc,
      ih fun j hj => hd j (List.mem_cons_of_mem _ hj)]

theorem emitted_guestReg {is : List DecodedInst} {n : ℕ} (hs : ∀ inst ∈ is, Shaped inst) :
    ∀ i ∈ emitted n is, ∀ r, GuestReg i.payload r → r < 32 := by
  induction is generalizing n with
  | nil => simp [emitted]
  | cons inst is ih =>
    rw [emitted_cons, List.forall_mem_append]
    exact ⟨fun i hi r hr => guestRegs_lt (hs inst (by simp)) r (code_guestReg hi hr),
      ih fun j hj => hs j (List.mem_cons_of_mem _ hj)⟩

/-- The accesses of a block can be encoded exactly when the guest offsets fit. -/
theorem blockLines_encodable (h : WellBuilt mem bb) :
    (∀ l ∈ blockLines (lifted bb), l.Encodable) ↔ ∀ inst ∈ bb.insts, OffsetFits inst := by
  have hdec : ∀ inst ∈ bb.insts, ∃ pc, decodeNext mem pc = .ok inst := by
    intro inst hi
    obtain ⟨i, hlt, rfl⟩ := List.getElem_of_mem hi
    exact ⟨_, h.decoded i hlt⟩
  have hreg : ∀ i ∈ (lifted bb).insts, ∀ r, GuestReg i.payload r → r < 32 :=
    emitted_guestReg fun inst hi => h.shaped inst hi
  have hpro : (Line.ldr Size.x (VName.phys 21) (.phys 0) 256).Encodable := by
    change Size.x.legal 256
    decide
  have hterm : ∀ l ∈ termLines (selectedTerm (lifted bb).term), l.Encodable := by
    intro l hl
    unfold termLines at hl
    split at hl
    · rw [List.mem_singleton.mp hl]
      trivial
    · rw [List.mem_singleton.mp hl]
      trivial
    · cases hl
  rw [blockLines, List.forall_mem_append, List.forall_mem_cons, linesAll_encodable hreg,
    ← emitted_access hdec (n := 0)]
  exact ⟨fun hl => hl.1.2, fun hl => ⟨⟨hpro, hl⟩, hterm⟩⟩

/-- Every access of a printed block can be encoded. -/
def AccessesEncodable (asm : AsmBlock PReg) : Prop := ∀ l ∈ asm.lines, l.Encodable

/-- The offsets of all guest accesses of a block fit. -/
def OffsetsFit (bb : BasicBlock) : Prop := ∀ inst ∈ bb.insts, OffsetFits inst

theorem PrintedAs.encodable {asm : AsmBlock PReg} (h : WellBuilt mem bb)
    (hp : PrintedAs o bb asm) : AccessesEncodable asm ↔ OffsetsFit bb := by
  obtain ⟨blk, asg, ht, he⟩ := hp
  rw [emitBlock_lines h ht] at he
  cases he
  simp only [AccessesEncodable, List.forall_mem_map, Line.encodable_map]
  exact blockLines_encodable h

theorem printedAs_exists (h : WellBuilt mem bb) (hsize : (lifted bb).insts.length < 2 ^ 31)
    (o : ItemOrders) : ∃ asm, PrintedAs o bb asm := by
  rw [lifted_length] at hsize
  obtain ⟨asg, hasg, has⟩ := translateBlock_ok h hsize o
  obtain ⟨asm, -, -, hasm, -⟩ := has.emitted
  exact ⟨asm, _, asg, hasg, hasm⟩

/-- What is printed for a CFG can be encoded exactly where the guest offsets fit. -/
structure EncodableWhereFits (o : ItemOrders) (cfg : CFG) : Prop where
  printed : ∀ bb ∈ cfg.blocks, (lifted bb).insts.length < 2 ^ 31 → ∃ asm, PrintedAs o bb asm
  blocks : ∀ bb ∈ cfg.blocks, ∀ asm, PrintedAs o bb asm →
    (AccessesEncodable asm ↔ OffsetsFit bb)
  modules : ∀ m, translate o cfg = .ok m →
    ((∀ asm ∈ m.blocks, AccessesEncodable asm) ↔ ∀ bb ∈ cfg.blocks, OffsetsFit bb)

theorem encodable_where_fits (h : Builds mem entry cfg) (o : ItemOrders) :
    EncodableWhereFits o cfg := by
  have hbuilt := h.sound.built
  refine ⟨fun bb hbb hs => printedAs_exists (hbuilt bb hbb) hs o,
    fun bb hbb asm hp => hp.encodable (hbuilt bb hbb), fun m hm => ?_⟩
  have hmod := translate_inv h hm
  constructor
  · intro hall bb hbb
    obtain ⟨asm, hasm, hp⟩ := hmod.printedFor h.sound hbb
    exact (hp.encodable (hbuilt bb hbb)).mp (hall asm hasm)
  · intro hall asm hasm
    obtain ⟨bb, hbb, hp⟩ := hmod.printed hasm
    exact (hp.encodable (hbuilt bb hbb)).mpr (hall bb hbb)

/-- A load far below its base, as in a function with a large frame. -/
def frameReader : MemoryReader := fun a =>
  if a = 0 then some 0xed412083
  else if a = 4 then some 0x00000073
  else none

def frameLoad : DecodedInst := ⟨0, 0xed412083, .LW, [.reg 1, .mem 2 (-300)]⟩

def frameBlock : BasicBlock := ⟨0, [frameLoad, ⟨4, 0x00000073, .ECALL, []⟩], .Trap, []⟩

def frameCFG : CFG := ⟨0, [frameBlock], (∅ : AddrIndex).insert 0 0⟩

theorem frame_builds : Builds frameReader 0 frameCFG := ⟨3, rfl⟩

theorem frame_where_fits : EncodableWhereFits default frameCFG :=
  encodable_where_fits frame_builds default

/-- The offset of `lw x1, -300(x2)` has no encoding. -/
theorem frame_not_encodable : ¬ ∀ mem entry cfg o, Builds mem entry cfg →
    ∀ bb ∈ cfg.blocks, ∀ asm, PrintedAs o bb asm → AccessesEncodable asm := by
  intro h
  have hwell := frame_builds.sound.built frameBlock (by simp [frameCFG])
  have hsize : (lifted frameBlock).insts.length < 2 ^ 31 := by
    rw [lifted_length]
    change 4 < 2 ^ 31
    decide
  obtain ⟨asm, hp⟩ := printedAs_exists hwell hsize default
  have hfits := (hp.encodable hwell).mp
    (h _ _ _ _ frame_builds frameBlock (by simp [frameCFG]) asm hp)
  have hload := hfits frameLoad (by simp [frameBlock]) .w (-300) rfl
  exact absurd hload (by decide)

end Blocks

end Riscy.AArch64
