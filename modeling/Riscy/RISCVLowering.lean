import Riscy.RISCVCFGSound
import Riscy.RISCVLifter

/-! The code of one instruction in closed form: consecutively numbered values and at
most one write at the end. The lifter emits exactly this for operands of the shapes the
decoder builds, so nothing later looks into its monadic code again. -/
namespace Riscy.RISCV
open IR (ValueId TypeKind BinOpKind ICmpCond Payload)

/-- Second operand of an arithmetic instruction. -/
inductive Source
  | reg (r : ℕ)
  | imm (v : BitVec 64)

def Source.payload : Source → Payload
  | .reg r => .ReadReg r
  | .imm v => .Const .I64 v

inductive Lowering
  | alu (k : BinOpKind) (rd rs1 : ℕ) (src : Source)
  | addWord (rd rs1 : ℕ) (src : Source)
  | loadWord (signed : Bool) (rd base : ℕ) (off : BitVec 64)
  | loadDouble (rd base : ℕ) (off : BitVec 64)
  | store (ty : TypeKind) (base rs : ℕ) (off : BitVec 64)
  | compare (c : ICmpCond) (rs1 rs2 : ℕ)
  | auipc (rd : ℕ) (i : BitVec 64)
  | link (rd : ℕ) (ra : BitVec 64)
  | jumpReg (rd base : ℕ) (off ra : BitVec 64)
  | nothing

def binKind : Opcode → Option BinOpKind
  | .ADD | .ADDI => some .Add
  | .SUB => some .Sub
  | .AND | .ANDI => some .And
  | .OR | .ORI => some .Or
  | .XOR | .XORI => some .Xor
  | .SLL | .SLLI => some .Shl
  | .SRL | .SRLI => some .LShr
  | .SRA | .SRAI => some .AShr
  | _ => none

def condOf : Opcode → Option ICmpCond
  | .BEQ => some .EQ
  | .BNE => some .NE
  | .BLT => some .SLT
  | .BGE => some .SGE
  | .BLTU => some .ULT
  | .BGEU => some .UGE
  | _ => none

def aluLowering (op : Opcode) (rd rs1 : ℕ) (src : Source) : Lowering :=
  if op = .ADDW ∨ op = .ADDIW then .addWord rd rs1 src
  else match binKind op with
    | some k => .alu k rd rs1 src
    | none => .nothing

def lowering (inst : DecodedInst) : Lowering :=
  match inst.operands with
  | [.reg rd, .imm i] =>
    if inst.opcode = .AUIPC then .auipc rd i
    else if inst.opcode = .JAL then .link rd (inst.pc + 4)
    else .nothing
  | [.reg rd, .mem base off] =>
    match inst.opcode with
    | .LW => .loadWord true rd base off
    | .LWU => .loadWord false rd base off
    | .LD => .loadDouble rd base off
    | .JALR => .jumpReg rd base off (inst.pc + 4)
    | _ => .nothing
  | [.mem base off, .reg rs] =>
    match inst.opcode with
    | .SW => .store .I32 base rs off
    | .SD => .store .I64 base rs off
    | _ => .nothing
  | [.reg r, .reg s, .imm i] =>
    match condOf inst.opcode with
    | some c => .compare c r s
    | none => aluLowering inst.opcode r s (.imm i)
  | [.reg rd, .reg rs1, .reg rs2] => aluLowering inst.opcode rd rs1 (.reg rs2)
  | _ => .nothing

/-- The value that position `n` of a block defines. -/
def valueAt (n : ℕ) : ValueId := n % 2 ^ 32

def Lowering.values (n : ℕ) : Lowering → List Payload
  | .alu k _ rs1 src =>
    [.ReadReg rs1, src.payload, .BinOp k (valueAt n) (valueAt (n + 1)) .I64]
  | .addWord _ rs1 src =>
    [.ReadReg rs1, src.payload, .BinOp .Add (valueAt n) (valueAt (n + 1)) .I64,
      .Trunc (valueAt (n + 2)) .I32, .SExt (valueAt (n + 3)) .I64]
  | .loadWord signed _ base off =>
    [.ReadReg base, .Load (valueAt n) off .I32,
      if signed then .SExt (valueAt (n + 1)) .I64 else .ZExt (valueAt (n + 1)) .I64]
  | .loadDouble _ base off => [.ReadReg base, .Load (valueAt n) off .I64]
  | .store _ base rs _ => [.ReadReg base, .ReadReg rs]
  | .compare c rs1 rs2 =>
    [.ReadReg rs1, .ReadReg rs2, .ICmp c (valueAt n) (valueAt (n + 1))]
  | .auipc _ i => [.GetPC, .Const .I64 i, .BinOp .Add (valueAt n) (valueAt (n + 1)) .I64]
  | .link _ ra => [.Const .I64 ra]
  | .jumpReg _ base off ra =>
    [.ReadReg base, .Const .I64 off, .BinOp .Add (valueAt n) (valueAt (n + 1)) .I64,
      .Const .I64 (~~~1), .BinOp .And (valueAt (n + 2)) (valueAt (n + 3)) .I64,
      .Const .I64 ra]
  | .nothing => []

def writeBack (rd : ℕ) (v : ValueId) : List Payload :=
  if rd = 0 then [] else [.WriteReg rd v]

def Lowering.writes (n : ℕ) : Lowering → List Payload
  | .alu _ rd _ _ => writeBack rd (valueAt (n + 2))
  | .addWord rd _ _ => writeBack rd (valueAt (n + 4))
  | .loadWord _ rd _ _ => writeBack rd (valueAt (n + 2))
  | .loadDouble rd _ _ => writeBack rd (valueAt (n + 1))
  | .store ty _ _ off => [.Store (valueAt (n + 1)) (valueAt n) off ty]
  | .compare _ _ _ => []
  | .auipc rd _ => writeBack rd (valueAt (n + 2))
  | .link rd _ => writeBack rd (valueAt n)
  | .jumpReg rd _ _ _ => writeBack rd (valueAt (n + 5))
  | .nothing => []

/-- Values numbered from position `n` on. -/
def numbered (n : ℕ) : List Payload → List IR.Instr
  | [] => []
  | p :: ps => ⟨some (valueAt n), p⟩ :: numbered (n + 1) ps

def unnumbered (ps : List Payload) : List IR.Instr := ps.map fun p => ⟨none, p⟩

def Lowering.code (n : ℕ) (l : Lowering) : List IR.Instr :=
  numbered n (l.values n) ++ unnumbered (l.writes n)

/-- The code of consecutive instructions, the first one at position `n`. -/
def emitted (n : ℕ) : List DecodedInst → List IR.Instr
  | [] => []
  | i :: is =>
    (lowering i).code n ++ emitted (n + ((lowering i).code n).length) is

theorem emitted_append (n : ℕ) (is js : List DecodedInst) :
    emitted n (is ++ js) = emitted n is ++ emitted (n + (emitted n is).length) js := by
  induction is generalizing n with
  | nil => simp [emitted]
  | cons i is ih =>
    simp only [List.cons_append, emitted, ih, List.append_assoc, List.length_append,
      Nat.add_assoc]

section Builders
variable (s : List IR.Instr)

theorem produce_run (p : Payload) :
    (produce p).run s = .ok (valueAt s.length, s ++ [⟨some (valueAt s.length), p⟩]) := rfl

theorem writeReg_run (rd : ℕ) (v : ValueId) :
    (writeReg rd v).run s = .ok ((), s ++ unnumbered (writeBack rd v)) := by
  unfold writeReg writeBack isX0
  by_cases h : rd = 0
  · simp only [h, decide_true, if_true, unnumbered, List.map_nil, List.append_nil]
    rfl
  · simp only [h, decide_false, if_false, unnumbered, List.map_cons, List.map_nil]
    rfl

theorem regOperand_run {inst : DecodedInst} {i r : ℕ}
    (h : inst.operands[i]? = some (.reg r)) : (regOperand inst i).run s = .ok (r, s) := by
  simp only [regOperand, DecodedInst.operand, h]
  rfl

theorem immOperand_run {inst : DecodedInst} {i : ℕ} {v : BitVec 64}
    (h : inst.operands[i]? = some (.imm v)) : (immOperand inst i).run s = .ok (v, s) := by
  simp only [immOperand, DecodedInst.operand, h]
  rfl

theorem memOperand_run {inst : DecodedInst} {i b : ℕ} {off : BitVec 64}
    (h : inst.operands[i]? = some (.mem b off)) :
    (memOperand inst i).run s = .ok ((b, off), s) := by
  simp only [memOperand, DecodedInst.operand, h]
  rfl

theorem bind_run {α β : Type} {x : LiftM α} {a : α} {s t : List IR.Instr}
    (h : x.run s = .ok (a, t)) (f : α → LiftM β) : (x >>= f).run s = (f a).run t := by
  rw [StateT.run_bind, h]
  rfl

theorem store_run (ty : TypeKind) (v base : ValueId) (off : BitVec 64) :
    (store ty v base off).run s = .ok ((), s ++ unnumbered [.Store v base off ty]) := rfl

theorem signExtendWord_run (v : ValueId) :
    (signExtendWord v).run s = .ok (valueAt (s.length + 1),
      s ++ numbered s.length [.Trunc v .I32, .SExt (valueAt s.length) .I64]) := by
  unfold signExtendWord
  rw [bind_run (produce_run ..), produce_run]
  simp [numbered]

variable {inst : DecodedInst} {rd rs1 rs2 base rs : ℕ} {i off : BitVec 64}

theorem liftBinImm_run (k : BinOpKind) (h : inst.operands = [.reg rd, .reg rs1, .imm i]) :
    (liftBinImm k inst).run s =
      .ok ((), s ++ (Lowering.alu k rd rs1 (.imm i)).code s.length) := by
  unfold liftBinImm readReg imm bin
  rw [bind_run (regOperand_run s (r := rd) (by rw [h]; rfl)),
    bind_run (regOperand_run s (r := rs1) (by rw [h]; rfl)),
    bind_run (immOperand_run s (v := i) (by rw [h]; rfl)), bind_run (produce_run ..),
    bind_run (produce_run ..), bind_run (produce_run ..), writeReg_run]
  simp [Lowering.code, Lowering.values, Lowering.writes, numbered, Source.payload]

theorem liftBinReg_run (k : BinOpKind) (h : inst.operands = [.reg rd, .reg rs1, .reg rs2]) :
    (liftBinReg k inst).run s =
      .ok ((), s ++ (Lowering.alu k rd rs1 (.reg rs2)).code s.length) := by
  unfold liftBinReg readReg bin
  rw [bind_run (regOperand_run s (r := rd) (by rw [h]; rfl)),
    bind_run (regOperand_run s (r := rs1) (by rw [h]; rfl)),
    bind_run (regOperand_run s (r := rs2) (by rw [h]; rfl)),
    bind_run (produce_run ..),
    bind_run (produce_run ..),
    bind_run (produce_run ..),
    writeReg_run]
  simp [Lowering.code, Lowering.values, Lowering.writes, numbered, Source.payload]

theorem liftADDIW_run (h : inst.operands = [.reg rd, .reg rs1, .imm i]) :
    (liftADDIW inst).run s =
      .ok ((), s ++ (Lowering.addWord rd rs1 (.imm i)).code s.length) := by
  unfold liftADDIW readReg imm bin
  rw [bind_run (regOperand_run s (r := rd) (by rw [h]; rfl)),
    bind_run (regOperand_run s (r := rs1) (by rw [h]; rfl)),
    bind_run (immOperand_run s (v := i) (by rw [h]; rfl)),
    bind_run (produce_run ..),
    bind_run (produce_run ..),
    bind_run (produce_run ..),
    bind_run (signExtendWord_run ..),
    writeReg_run]
  simp [Lowering.code, Lowering.values, Lowering.writes, numbered, Source.payload]

theorem liftADDW_run (h : inst.operands = [.reg rd, .reg rs1, .reg rs2]) :
    (liftADDW inst).run s =
      .ok ((), s ++ (Lowering.addWord rd rs1 (.reg rs2)).code s.length) := by
  unfold liftADDW readReg bin
  rw [bind_run (regOperand_run s (r := rd) (by rw [h]; rfl)),
    bind_run (regOperand_run s (r := rs1) (by rw [h]; rfl)),
    bind_run (regOperand_run s (r := rs2) (by rw [h]; rfl)),
    bind_run (produce_run ..),
    bind_run (produce_run ..),
    bind_run (produce_run ..),
    bind_run (signExtendWord_run ..),
    writeReg_run]
  simp [Lowering.code, Lowering.values, Lowering.writes, numbered, Source.payload]

theorem liftLoadWord_run (signed : Bool) (h : inst.operands = [.reg rd, .mem base off]) :
    (liftLoadWord (if signed then .SExt else .ZExt) inst).run s =
      .ok ((), s ++ (Lowering.loadWord signed rd base off).code s.length) := by
  unfold liftLoadWord readReg load
  rw [bind_run (regOperand_run s (r := rd) (by rw [h]; rfl)),
    bind_run (memOperand_run s (show inst.operands[1]? = some (.mem base off) by rw [h]; rfl)),
    bind_run (produce_run ..), bind_run (produce_run ..), bind_run (produce_run ..),
    writeReg_run]
  cases signed <;> simp [Lowering.code, Lowering.values, Lowering.writes, numbered]

theorem liftLD_run (h : inst.operands = [.reg rd, .mem base off]) :
    (liftLD inst).run s =
      .ok ((), s ++ (Lowering.loadDouble rd base off).code s.length) := by
  unfold liftLD readReg load
  rw [bind_run (regOperand_run s (r := rd) (by rw [h]; rfl)),
    bind_run (memOperand_run s (show inst.operands[1]? = some (.mem base off) by rw [h]; rfl)),
    bind_run (produce_run ..),
    bind_run (produce_run ..),
    writeReg_run]
  simp [Lowering.code, Lowering.values, Lowering.writes, numbered]

theorem liftStore_run (ty : TypeKind) (h : inst.operands = [.mem base off, .reg rs]) :
    (liftStore ty inst).run s =
      .ok ((), s ++ (Lowering.store ty base rs off).code s.length) := by
  unfold liftStore readReg
  rw [bind_run (memOperand_run s (show inst.operands[0]? = some (.mem base off) by rw [h]; rfl)),
    bind_run (regOperand_run s (r := rs) (by rw [h]; rfl)),
    bind_run (produce_run ..),
    bind_run (produce_run ..),
    store_run]
  simp [Lowering.code, Lowering.values, Lowering.writes, numbered]

theorem liftAUIPC_run (h : inst.operands = [.reg rd, .imm i]) :
    (liftAUIPC inst).run s =
      .ok ((), s ++ (Lowering.auipc rd i).code s.length) := by
  unfold liftAUIPC getpc imm bin
  rw [bind_run (regOperand_run s (r := rd) (by rw [h]; rfl)),
    bind_run (immOperand_run s (v := i) (by rw [h]; rfl)),
    bind_run (produce_run ..),
    bind_run (produce_run ..),
    bind_run (produce_run ..),
    writeReg_run]
  simp [Lowering.code, Lowering.values, Lowering.writes, numbered]

theorem liftJAL_run (h : inst.operands = [.reg rd, .imm i]) :
    (liftJAL inst).run s =
      .ok ((), s ++ (Lowering.link rd (inst.pc + 4)).code s.length) := by
  unfold liftJAL imm
  rw [bind_run (regOperand_run s (r := rd) (by rw [h]; rfl)),
    bind_run (produce_run ..),
    writeReg_run]
  simp [Lowering.code, Lowering.values, Lowering.writes, numbered]

theorem liftJALR_run (h : inst.operands = [.reg rd, .mem base off]) :
    (liftJALR inst).run s =
      .ok ((), s ++ (Lowering.jumpReg rd base off (inst.pc + 4)).code s.length) := by
  unfold liftJALR readReg imm bin
  rw [bind_run (regOperand_run s (r := rd) (by rw [h]; rfl)),
    bind_run (memOperand_run s (show inst.operands[1]? = some (.mem base off) by rw [h]; rfl)),
    bind_run (produce_run ..),
    bind_run (produce_run ..),
    bind_run (produce_run ..),
    bind_run (produce_run ..),
    bind_run (produce_run ..),
    bind_run (produce_run ..),
    writeReg_run]
  simp [Lowering.code, Lowering.values, Lowering.writes, numbered]

theorem liftBranch_run (c : ICmpCond) (h : inst.operands = [.reg rs1, .reg rs2, .imm i]) :
    (liftBranch c inst).run s =
      .ok ((), s ++ (Lowering.compare c rs1 rs2).code s.length) := by
  unfold liftBranch readReg icmp
  rw [bind_run (regOperand_run s (r := rs1) (by rw [h]; rfl)),
    bind_run (regOperand_run s (r := rs2) (by rw [h]; rfl)), bind_run (produce_run ..),
    bind_run (produce_run ..), bind_run (produce_run ..)]
  simp [Lowering.code, Lowering.values, Lowering.writes, numbered, unnumbered]
  rfl

theorem skip_run :
    (pure () : LiftM Unit).run s = .ok ((), s ++ Lowering.nothing.code s.length) := by
  simp [Lowering.code, Lowering.values, Lowering.writes, numbered, unnumbered]
  rfl

/-- Any instruction with the operands of its opcode is lowered to its closed form. -/
theorem liftInst_run {inst : DecodedInst} (h : Shaped inst) :
    (liftInst inst).run s = .ok ((), s ++ (lowering inst).code s.length) := by
  cases h with
  | regImm pc raw op rd i hop hrd =>
    simp only [List.mem_cons, List.not_mem_nil, or_false] at hop
    rcases hop with rfl | rfl | rfl
    · exact skip_run s
    · exact liftAUIPC_run s rfl
    · exact liftJAL_run s rfl
  | regMem pc raw op rd base off hop hrd hbase =>
    simp only [List.mem_cons, List.not_mem_nil, or_false] at hop
    rcases hop with rfl | rfl | rfl | rfl | rfl | rfl | rfl | rfl
    · exact liftJALR_run s rfl
    · exact skip_run s
    · exact skip_run s
    · exact liftLoadWord_run s true rfl
    · exact liftLD_run s rfl
    · exact skip_run s
    · exact skip_run s
    · exact liftLoadWord_run s false rfl
  | memReg pc raw op base rs off hop hbase hrs =>
    simp only [List.mem_cons, List.not_mem_nil, or_false] at hop
    rcases hop with rfl | rfl | rfl | rfl
    · exact skip_run s
    · exact skip_run s
    · exact liftStore_run s .I32 rfl
    · exact liftStore_run s .I64 rfl
  | regRegImm pc raw op r t i hop hr ht =>
    simp only [List.mem_cons, List.not_mem_nil, or_false] at hop
    rcases hop with rfl | rfl | rfl | rfl | rfl | rfl | rfl | rfl | rfl | rfl | rfl | rfl |
      rfl | rfl | rfl | rfl | rfl | rfl | rfl
    · exact liftBranch_run s .EQ rfl
    · exact liftBranch_run s .NE rfl
    · exact liftBranch_run s .SLT rfl
    · exact liftBranch_run s .SGE rfl
    · exact liftBranch_run s .ULT rfl
    · exact liftBranch_run s .UGE rfl
    · exact liftBinImm_run s .Add rfl
    · exact skip_run s
    · exact skip_run s
    · exact liftBinImm_run s .Xor rfl
    · exact liftBinImm_run s .Or rfl
    · exact liftBinImm_run s .And rfl
    · exact liftBinImm_run s .Shl rfl
    · exact liftBinImm_run s .LShr rfl
    · exact liftBinImm_run s .AShr rfl
    · exact liftADDIW_run s rfl
    · exact skip_run s
    · exact skip_run s
    · exact skip_run s
  | regRegReg pc raw op rd rs1 rs2 hop hrd hrs1 hrs2 =>
    simp only [List.mem_cons, List.not_mem_nil, or_false] at hop
    rcases hop with rfl | rfl | rfl | rfl | rfl | rfl | rfl | rfl | rfl | rfl | rfl | rfl |
      rfl | rfl | rfl
    · exact liftBinReg_run s .Add rfl
    · exact liftBinReg_run s .Sub rfl
    · exact liftBinReg_run s .Shl rfl
    · exact skip_run s
    · exact skip_run s
    · exact liftBinReg_run s .Xor rfl
    · exact liftBinReg_run s .LShr rfl
    · exact liftBinReg_run s .AShr rfl
    · exact liftBinReg_run s .Or rfl
    · exact liftBinReg_run s .And rfl
    · exact liftADDW_run s rfl
    · exact skip_run s
    · exact skip_run s
    · exact skip_run s
    · exact skip_run s
  | bare pc raw op hop =>
    simp only [List.mem_cons, List.not_mem_nil, or_false] at hop
    rcases hop with rfl | rfl | rfl <;> exact skip_run s

end Builders

theorem liftInsts_run {insts : List DecodedInst} (h : ∀ i ∈ insts, Shaped i)
    (s : List IR.Instr) :
    (liftInsts insts).run s = .ok ((), s ++ emitted s.length insts) := by
  induction insts generalizing s with
  | nil =>
    simp [liftInsts, emitted]
    rfl
  | cons i is ih =>
    have hi : Shaped i := h i (by simp)
    have his : ∀ j ∈ is, Shaped j := fun j hj => h j (by simp [hj])
    have hrest := ih his (s ++ (lowering i).code s.length)
    change (liftInst i >>= fun _ => liftInsts is).run s = _
    rw [bind_run (liftInst_run s hi), hrest]
    simp [emitted]

theorem lift_of_shaped {bb : BasicBlock} (h : ∀ i ∈ bb.insts, Shaped i) :
    lift bb = .ok ⟨bb.start, emitted 0 bb.insts, liftTerm bb (emitted 0 bb.insts)⟩ := by
  unfold lift
  rw [liftInsts_run h]
  rfl

theorem WellBuilt.shaped {mem : MemoryReader} {bb : BasicBlock} (h : WellBuilt mem bb) :
    ∀ i ∈ bb.insts, Shaped i := by
  have hbody : ∀ {start body}, Straight mem start body → ∀ i ∈ body, Shaped i := by
    intro start body hs i hi
    obtain ⟨k, hk, rfl⟩ := List.getElem_of_mem hi
    exact decodeNext_shaped (hs.decoded k hk)
  cases h with
  | control hs hd he =>
    intro i hi
    rcases List.mem_append.mp hi with hi | hi
    · exact hbody hs i hi
    · rw [List.mem_singleton.mp hi]
      exact decodeNext_shaped hd
  | undecoded hs hd => exact hbody hs
  | cut hs hne hfresh => exact hbody hs

/-- What `lift` returns for a block of a CFG. -/
theorem WellBuilt.lift_eq {mem : MemoryReader} {bb : BasicBlock} (h : WellBuilt mem bb) :
    lift bb = .ok ⟨bb.start, emitted 0 bb.insts, liftTerm bb (emitted 0 bb.insts)⟩ :=
  lift_of_shaped h.shaped

end Riscy.RISCV
