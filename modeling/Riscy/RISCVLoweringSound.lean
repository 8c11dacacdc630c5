import Riscy.IRSemantics
import Riscy.RISCVLowering
import Riscy.RISCVMachine

/-! Running the code of a lowering: the values it computes, and its effect on registers
and memory. Value numbers repeat only after 2^32 positions, so the few numbers of one
instruction are always distinct. -/
namespace Riscy.RISCV
open IR (ValueId TypeKind BinOpKind ICmpCond Payload Val)
open ByteMemory

@[simp] theorem valueAt_add_eq (n i j : ℕ) :
    valueAt (n + i) = valueAt (n + j) ↔ i % 2 ^ 32 = j % 2 ^ 32 := by
  have h : (n + i) % 2 ^ 32 = (n + j) % 2 ^ 32 ↔ i % 2 ^ 32 = j % 2 ^ 32 := by omega
  exact h

@[simp] theorem valueAt_eq_add (n j : ℕ) : valueAt n = valueAt (n + j) ↔ j % 2 ^ 32 = 0 := by
  have h : n % 2 ^ 32 = (n + j) % 2 ^ 32 ↔ j % 2 ^ 32 = 0 := by omega
  exact h

@[simp] theorem valueAt_add_eq_self (n j : ℕ) :
    valueAt (n + j) = valueAt n ↔ j % 2 ^ 32 = 0 := by
  rw [eq_comm, valueAt_eq_add]

abbrev i64 (x : BitVec 64) : Val := ⟨.I64, x⟩

abbrev i32 (x : BitVec 32) : Val := ⟨.I32, x⟩

def Source.value (regs : ℕ → BitVec 64) : Source → BitVec 64
  | .reg r => regs r
  | .imm v => v

def setReg (regs : ℕ → BitVec 64) (rd : ℕ) (v : BitVec 64) : ℕ → BitVec 64 :=
  if rd = 0 then regs else Function.update regs rd v

/-- The values of the code of a lowering, in order. -/
def Lowering.results (start : BitVec 64) (regs : ℕ → BitVec 64) (mem : Memory 64) :
    Lowering → List Val
  | .alu k _ rs1 src =>
    let a := regs rs1
    let b := src.value regs
    [i64 a, i64 b, i64 (IR.evalBin k a b)]
  | .addWord _ rs1 src =>
    let a := regs rs1
    let b := src.value regs
    [i64 a, i64 b, i64 (a + b), i32 (low (a + b)), i64 (word (low (a + b)))]
  | .loadWord signed _ base off =>
    let v := BitVec.ofNat 32 (read mem (regs base + off) 4)
    [i64 (regs base), i32 v, i64 (if signed then v.signExtend 64 else v.setWidth 64)]
  | .loadDouble _ base off =>
    [i64 (regs base), i64 (BitVec.ofNat 64 (read mem (regs base + off) 8))]
  | .store _ base rs _ => [i64 (regs base), i64 (regs rs)]
  | .compare c rs1 rs2 =>
    [i64 (regs rs1), i64 (regs rs2),
      ⟨.I1, BitVec.ofBool (IR.evalCmp c (regs rs1) (regs rs2))⟩]
  | .auipc _ i => [i64 start, i64 i, i64 (start + i)]
  | .link _ ra => [i64 ra]
  | .jumpReg _ base off ra =>
    let t := regs base + off
    [i64 (regs base), i64 off, i64 t, i64 (~~~1), i64 (t &&& ~~~1), i64 ra]
  | .nothing => []

/-- Registers after the code of a lowering. -/
def Lowering.regs (start : BitVec 64) (regs : ℕ → BitVec 64) (mem : Memory 64) :
    Lowering → ℕ → BitVec 64
  | .alu k rd rs1 src => setReg regs rd (IR.evalBin k (regs rs1) (src.value regs))
  | .addWord rd rs1 src => setReg regs rd (word (low (regs rs1 + src.value regs)))
  | .loadWord signed rd base off =>
    let v := BitVec.ofNat 32 (read mem (regs base + off) 4)
    setReg regs rd (if signed then v.signExtend 64 else v.setWidth 64)
  | .loadDouble rd base off => setReg regs rd (BitVec.ofNat 64 (read mem (regs base + off) 8))
  | .auipc rd i => setReg regs rd (start + i)
  | .link rd ra => setReg regs rd ra
  | .jumpReg rd _ _ ra => setReg regs rd ra
  | .store _ _ _ _ | .compare _ _ _ | .nothing => regs

/-- Memory after the code of a lowering. -/
def Lowering.mem (regs : ℕ → BitVec 64) (mem : Memory 64) : Lowering → Memory 64
  | .store ty base rs off => write mem (regs base + off) (regs rs).toNat ty.bytes
  | _ => mem

/-- Values defined from position `n` on. -/
def defineAll (n : ℕ) : List Val → (ValueId → Option Val) → ValueId → Option Val
  | [], env => env
  | v :: vs, env => defineAll (n + 1) vs (Function.update env (valueAt n) (some v))

theorem defineAll_frame {n : ℕ} {vs : List Val} {env : ValueId → Option Val} {v : ValueId}
    (h : ∀ i < vs.length, v ≠ valueAt (n + i)) : defineAll n vs env v = env v := by
  induction vs generalizing n env with
  | nil => rfl
  | cons x vs ih =>
    have h0 : v ≠ valueAt n := h 0 (by simp)
    rw [defineAll, ih, Function.update_of_ne h0]
    intro i hi
    have hs := h (i + 1) (by simpa using hi)
    rwa [Nat.add_assoc, Nat.add_comm 1 i]

theorem defineAll_at {n : ℕ} {vs : List Val} {env : ValueId → Option Val} {i : ℕ}
    (hl : vs.length ≤ 2 ^ 32) (hi : i < vs.length) :
    defineAll n vs env (valueAt (n + i)) = some vs[i] := by
  induction vs generalizing n env i with
  | nil => exact absurd hi (Nat.not_lt_zero i)
  | cons x vs ih =>
    rw [List.length_cons] at hl hi
    cases i with
    | zero =>
      rw [defineAll, defineAll_frame, Nat.add_zero, Function.update_self]
      · rfl
      · intro j hj he
        rw [Nat.add_zero, Nat.add_assoc, valueAt_eq_add, Nat.mod_eq_of_lt (by omega)] at he
        omega
    | succ i =>
      rw [defineAll, ← Nat.add_assoc, Nat.add_right_comm]
      exact ih (by omega) (by omega)

theorem run_writeBack (start : BitVec 64) (s : IR.State) (rd : ℕ) (v : ValueId)
    (x : BitVec 64) (h : s.env v = some (i64 x)) :
    IR.run start (unnumbered (writeBack rd v)) s = some { s with regs := setReg s.regs rd x } := by
  unfold writeBack setReg
  split_ifs
  · rfl
  · simp [unnumbered, IR.exec, IR.State.get, h]

theorem run_values (start : BitVec 64) (n : ℕ) (l : Lowering) (s : IR.State) :
    IR.run start (numbered n (l.values n)) s =
      some { s with env := defineAll n (l.results start s.regs s.mem) s.env } := by
  cases l with
  | alu k rd rs1 src =>
    cases src <;> simp [Lowering.values, Lowering.results, numbered, defineAll, Source.payload,
      Source.value, IR.exec, IR.eval, IR.State.define, IR.State.get, Nat.add_assoc]
  | addWord rd rs1 src =>
    cases src <;> simp [Lowering.values, Lowering.results, numbered, defineAll, Source.payload,
      Source.value, IR.exec, IR.eval, IR.State.define, IR.State.get, low, word, Nat.add_assoc,
      TypeKind.width, IR.evalBin]
  | loadWord signed rd base off =>
    cases signed <;> simp [Lowering.values, Lowering.results, numbered, defineAll,
      IR.exec, IR.eval, IR.State.define, IR.State.get, Nat.add_assoc,
      TypeKind.width, TypeKind.bytes]
  | _ => simp [Lowering.values, Lowering.results, numbered, defineAll,
      IR.exec, IR.eval, IR.State.define, IR.State.get, Nat.add_assoc,
      TypeKind.width, TypeKind.bytes, IR.evalBin]

theorem results_length (start : BitVec 64) (regs : ℕ → BitVec 64) (mem : Memory 64)
    (n : ℕ) (l : Lowering) : (l.results start regs mem).length = (l.values n).length := by
  cases l <;> rfl

theorem values_length_le (n : ℕ) (l : Lowering) : (l.values n).length ≤ 6 := by
  cases l <;> simp [Lowering.values]

section Code
variable (start : BitVec 64) (n : ℕ) (s : IR.State) (l : Lowering)

/-- The state after the code of `l`. -/
def Lowering.after : IR.State :=
  ⟨l.regs start s.regs s.mem, l.mem s.regs s.mem,
    defineAll n (l.results start s.regs s.mem) s.env⟩

theorem after_env {i : ℕ} (hi : i < (l.results start s.regs s.mem).length) :
    (l.after start n s).env (valueAt (n + i)) = some (l.results start s.regs s.mem)[i] := by
  have hl := values_length_le n l
  rw [← results_length start s.regs s.mem] at hl
  exact defineAll_at (by omega) hi

theorem run_code : IR.run start (l.code n) s = some (l.after start n s) := by
  have hat := @after_env start n s l
  rw [Lowering.code, IR.run_append, run_values, Option.bind_some]
  unfold Lowering.after at hat ⊢
  cases l with
  | alu k rd rs1 src => exact run_writeBack _ _ _ _ _ (hat (i := 2) (by simp [Lowering.results]))
  | addWord rd rs1 src =>
    exact run_writeBack _ _ _ _ _ (hat (i := 4) (by simp [Lowering.results]))
  | loadWord signed rd base off =>
    exact run_writeBack _ _ _ _ _ (hat (i := 2) (by simp [Lowering.results]))
  | loadDouble rd base off =>
    exact run_writeBack _ _ _ _ _ (hat (i := 1) (by simp [Lowering.results]))
  | auipc rd i => exact run_writeBack _ _ _ _ _ (hat (i := 2) (by simp [Lowering.results]))
  | link rd ra => exact run_writeBack _ _ _ _ _ (hat (i := 0) (by simp [Lowering.results]))
  | jumpReg rd base off ra =>
    exact run_writeBack _ _ _ _ _ (hat (i := 5) (by simp [Lowering.results]))
  | compare c rs1 rs2 => rfl
  | nothing => rfl
  | store ty base rs off =>
    have h0 := hat (i := 0) (by simp [Lowering.results])
    have h1 := hat (i := 1) (by simp [Lowering.results])
    have hw : ty.width ≤ 64 := by cases ty <;> simp [TypeKind.width]
    simp only [Lowering.results, Nat.add_zero, List.getElem_cons_zero,
      List.getElem_cons_succ] at h0 h1
    simp [Lowering.writes, unnumbered, IR.exec, IR.State.get, Lowering.results, Lowering.regs,
      Lowering.mem, h0, h1, hw]

end Code

/-- Opcodes that the switch of the lifter leaves to `default` although they write a
register or memory. -/
def dropped : List Opcode :=
  [.LUI, .LB, .LH, .LBU, .LHU, .SB, .SH, .SLTI, .SLTIU, .SLT, .SLTU, .SLLIW, .SRLIW, .SRAIW,
    .SUBW, .SLLW, .SRLW, .SRAW]

theorem set_x_eq_setReg (f : RegFile) (rd : ℕ) (v : BitVec 64) :
    (f.set rd v).x = setReg f.x rd v := by
  rw [RegFile.set_x, setReg]

theorem low_add (a b : BitVec 64) : low (a + b) = low a + low b := by
  unfold low
  exact BitVec.setWidth_add a b (by omega)

theorem ofNat_setWidth_read (m : Memory 64) (a : BitVec 64) :
    (BitVec.ofNat 32 (read m a 4)).setWidth 64 = BitVec.ofNat 64 (read m a 4) := by
  have hr := read_lt m a 4
  apply BitVec.eq_of_toNat_eq
  simp only [BitVec.toNat_setWidth, BitVec.toNat_ofNat]
  omega

/-- The reference operation of an opcode that has a binary operation. -/
theorem alu_of_binKind {op : Opcode} {k : BinOpKind} (h : binKind op = some k) :
    alu op = some (IR.evalBin k) := by
  unfold binKind at h
  split at h <;> cases h <;> rfl

theorem branchTaken_eq (op : Opcode) : branchTaken op = (condOf op).map IR.evalCmp := by
  cases op <;> rfl

theorem binKind_isSome {op : Opcode} {f : BitVec 64 → BitVec 64 → BitVec 64}
    (h : alu op = some f) (hd : op ∉ dropped) (hw : ¬ (op = .ADDW ∨ op = .ADDIW)) :
    ∃ k, binKind op = some k := by
  unfold alu at h
  split at h <;> first | exact ⟨_, rfl⟩ | simp_all [dropped]

/-- The effect of an arithmetic instruction that is not dropped. -/
theorem aluLowering_effect {op : Opcode} {f : BitVec 64 → BitVec 64 → BitVec 64}
    (h : alu op = some f) (hd : op ∉ dropped) (start : BitVec 64) (regs : ℕ → BitVec 64)
    (mem : Memory 64) (rd rs1 : ℕ) (src : Source) :
    (aluLowering op rd rs1 src).regs start regs mem =
        setReg regs rd (f (regs rs1) (src.value regs)) ∧
      (aluLowering op rd rs1 src).mem regs mem = mem := by
  unfold aluLowering
  split_ifs with hw
  · rcases hw with rfl | rfl <;> cases h <;>
      simp only [Lowering.regs, Lowering.mem, low_add, and_self]
  · obtain ⟨k, hk⟩ := binKind_isSome h hd hw
    rw [alu_of_binKind hk] at h
    cases h
    simp only [hk, Lowering.regs, Lowering.mem, and_self]

/-- Apart from the dropped opcodes and AUIPC, the code of an instruction has its effect. -/
theorem lowering_effect {inst : DecodedInst} {m m' : Machine} (hs : Shaped inst)
    (hd : inst.opcode ∉ dropped) (ha : inst.opcode ≠ .AUIPC) (hpc : inst.pc = m.pc)
    (h : execute inst m = some m') (start : BitVec 64) :
    (lowering inst).regs start m.regs.x m.mem = m'.regs.x ∧
      (lowering inst).mem m.regs.x m.mem = m'.mem := by
  cases hs with
  | regImm pc raw op rd i hop hrd =>
    simp only [List.mem_cons, List.not_mem_nil, or_false] at hop
    rcases hop with rfl | rfl | rfl
    · simp [dropped] at hd
    · exact absurd rfl ha
    · cases h
      change pc = m.pc at hpc
      subst hpc
      exact ⟨(set_x_eq_setReg _ _ _).symm, rfl⟩
  | regMem pc raw op rd base off hop hrd hbase =>
    simp only [List.mem_cons, List.not_mem_nil, or_false] at hop
    rcases hop with rfl | rfl | rfl | rfl | rfl | rfl | rfl | rfl
    · cases h
      change pc = m.pc at hpc
      subst hpc
      exact ⟨(set_x_eq_setReg _ _ _).symm, rfl⟩
    · simp [dropped] at hd
    · simp [dropped] at hd
    · cases h
      exact ⟨(set_x_eq_setReg _ _ _).symm, rfl⟩
    · cases h
      exact ⟨(set_x_eq_setReg _ _ _).symm, rfl⟩
    · simp [dropped] at hd
    · simp [dropped] at hd
    · cases h
      refine ⟨?_, rfl⟩
      change _ = (m.regs.set rd (BitVec.ofNat 64 (read m.mem (m.regs.x base + off) 4))).x
      rw [set_x_eq_setReg, ← ofNat_setWidth_read]
      rfl
  | memReg pc raw op base rs off hop hbase hrs =>
    simp only [List.mem_cons, List.not_mem_nil, or_false] at hop
    rcases hop with rfl | rfl | rfl | rfl
    · simp [dropped] at hd
    · simp [dropped] at hd
    · cases h
      exact ⟨rfl, rfl⟩
    · cases h
      exact ⟨rfl, rfl⟩
  | regRegImm pc raw op r t i hop hr ht =>
    simp only [execute] at h
    rw [branchTaken_eq] at h
    cases hc : condOf op with
    | some c =>
      simp only [hc, Option.map_some, Option.some.injEq] at h
      subst h
      simp only [lowering, hc, Lowering.regs, Lowering.mem, and_self]
    | none =>
      simp only [hc, Option.map_none, Option.map_eq_some_iff] at h
      obtain ⟨f, hf, rfl⟩ := h
      simp only [lowering, hc, Machine.put, set_x_eq_setReg]
      exact aluLowering_effect hf hd start m.regs.x m.mem r t (.imm i)
  | regRegReg pc raw op rd rs1 rs2 hop hrd hrs1 hrs2 =>
    simp only [execute, Option.map_eq_some_iff] at h
    obtain ⟨f, hf, rfl⟩ := h
    simp only [lowering, Machine.put, set_x_eq_setReg]
    exact aluLowering_effect hf hd start m.regs.x m.mem rd rs1 (.reg rs2)
  | bare pc raw op hop =>
    simp only [execute] at h
    split_ifs at h
    cases h
    exact ⟨rfl, rfl⟩

/-- What the tests after `push_back` make of an instruction, with its operands. -/
inductive ExitCase (inst : DecodedInst) : Prop
  | branch (c : ICmpCond) (r s : ℕ) (i : BitVec 64) (hc : condOf inst.opcode = some c)
      (ho : inst.operands = [.reg r, .reg s, .imm i])
      (he : exitOf inst = .ok (some (.Branch, [inst.pc + i, inst.pc + 4])))
  | jump (rd : ℕ) (i : BitVec 64) (hop : inst.opcode = .JAL)
      (ho : inst.operands = [.reg rd, .imm i])
      (he : exitOf inst = .ok (some (.Jump, [inst.pc + i])))
  | indirect (rd base : ℕ) (off : BitVec 64) (hop : inst.opcode = .JALR)
      (ho : inst.operands = [.reg rd, .mem base off])
      (hn : ¬ (rd = 0 ∧ base = 1 ∧ off = 0))
      (he : exitOf inst = .ok (some (.IndirectJump, [])))
  | ret (hop : inst.opcode = .JALR) (ho : inst.operands = [.reg 0, .mem 1 0])
      (he : exitOf inst = .ok (some (.Return, [])))
  | trap (hop : inst.opcode = .ECALL ∨ inst.opcode = .EBREAK) (ho : inst.operands = [])
      (he : exitOf inst = .ok (some (.Trap, [])))
  | inner (hc : condOf inst.opcode = none)
      (hop : inst.opcode ∉ [Opcode.JAL, .JALR, .ECALL, .EBREAK])
      (he : exitOf inst = .ok none)

theorem exitCase_jalr (pc : BitVec 64) (raw : BitVec 32) (rd base : ℕ) (off : BitVec 64) :
    ExitCase ⟨pc, raw, .JALR, [.reg rd, .mem base off]⟩ := by
  by_cases h : rd = 0 ∧ base = 1 ∧ off = 0
  · obtain ⟨rfl, rfl, rfl⟩ := h
    exact .ret rfl rfl rfl
  · refine .indirect rd base off rfl rfl h ?_
    have hr : isReturn ⟨pc, raw, .JALR, [.reg rd, .mem base off]⟩ = .ok false := by
      change Except.ok (decide (rd = 0 ∧ base = 1 ∧ off = 0)) = _
      rw [decide_eq_false h]
    have hi : isIndirect ⟨pc, raw, .JALR, [.reg rd, .mem base off]⟩ = .ok true := by
      simp only [isIndirect, hr]
      rfl
    simp [exitOf, isCondBranch, isJump, hi]
    rfl

theorem Shaped.exitCase {inst : DecodedInst} (h : Shaped inst) : ExitCase inst := by
  cases h with
  | regImm pc raw op rd i hop hrd =>
    simp only [List.mem_cons, List.not_mem_nil, or_false] at hop
    rcases hop with rfl | rfl | rfl
    · exact .inner rfl (by simp) rfl
    · exact .inner rfl (by simp) rfl
    · exact .jump rd i rfl rfl rfl
  | regMem pc raw op rd base off hop hrd hbase =>
    simp only [List.mem_cons, List.not_mem_nil, or_false] at hop
    rcases hop with rfl | rfl | rfl | rfl | rfl | rfl | rfl | rfl
    · exact exitCase_jalr pc raw rd base off
    all_goals exact .inner rfl (by simp) rfl
  | memReg pc raw op base rs off hop hbase hrs =>
    simp only [List.mem_cons, List.not_mem_nil, or_false] at hop
    rcases hop with rfl | rfl | rfl | rfl <;> exact .inner rfl (by simp) rfl
  | regRegImm pc raw op r s i hop hr hs =>
    simp only [List.mem_cons, List.not_mem_nil, or_false] at hop
    rcases hop with rfl | rfl | rfl | rfl | rfl | rfl | hop
    · exact .branch .EQ r s i rfl rfl rfl
    · exact .branch .NE r s i rfl rfl rfl
    · exact .branch .SLT r s i rfl rfl rfl
    · exact .branch .SGE r s i rfl rfl rfl
    · exact .branch .ULT r s i rfl rfl rfl
    · exact .branch .UGE r s i rfl rfl rfl
    · rcases hop with rfl | rfl | rfl | rfl | rfl | rfl | rfl | rfl | rfl | rfl | rfl | rfl |
        rfl <;> exact .inner rfl (by simp) rfl
  | regRegReg pc raw op rd rs1 rs2 hop hrd hrs1 hrs2 =>
    simp only [List.mem_cons, List.not_mem_nil, or_false] at hop
    rcases hop with rfl | rfl | rfl | rfl | rfl | rfl | rfl | rfl | rfl | rfl | rfl | rfl |
      rfl | rfl | rfl <;> exact .inner rfl (by simp) rfl
  | bare pc raw op hop =>
    simp only [List.mem_cons, List.not_mem_nil, or_false] at hop
    rcases hop with rfl | rfl | rfl
    · exact .inner rfl (by simp) rfl
    · exact .trap (Or.inl rfl) rfl rfl
    · exact .trap (Or.inr rfl) rfl rfl

theorem Shaped.exits {inst : DecodedInst} (hs : Shaped inst) :
    ∃ exit, exitOf inst = .ok exit := by
  cases hs.exitCase with
  | branch c r s i hc ho he => exact ⟨_, he⟩
  | jump rd i hop ho he => exact ⟨_, he⟩
  | indirect rd base off hop ho hn he => exact ⟨_, he⟩
  | ret hop ho he => exact ⟨_, he⟩
  | trap hop ho he => exact ⟨_, he⟩
  | inner hc hop he => exact ⟨_, he⟩

/-- An instruction that ends its block, by the terminator and the successors it gives. -/
inductive ControlCase (inst : DecodedInst) : TermKind → List (BitVec 64) → Prop
  | branch {c : ICmpCond} {r s : ℕ} {i : BitVec 64} (hc : condOf inst.opcode = some c)
      (ho : inst.operands = [.reg r, .reg s, .imm i]) :
      ControlCase inst .Branch [inst.pc + i, inst.pc + 4]
  | jump {rd : ℕ} {i : BitVec 64} (hop : inst.opcode = .JAL)
      (ho : inst.operands = [.reg rd, .imm i]) : ControlCase inst .Jump [inst.pc + i]
  | indirect {rd base : ℕ} {off : BitVec 64} (hop : inst.opcode = .JALR)
      (ho : inst.operands = [.reg rd, .mem base off])
      (hn : ¬ (rd = 0 ∧ base = 1 ∧ off = 0)) : ControlCase inst .IndirectJump []
  | ret (hop : inst.opcode = .JALR) (ho : inst.operands = [.reg 0, .mem 1 0]) :
      ControlCase inst .Return []
  | trap (hop : inst.opcode = .ECALL ∨ inst.opcode = .EBREAK) (ho : inst.operands = []) :
      ControlCase inst .Trap []

theorem Shaped.controlCase {inst : DecodedInst} {term : TermKind} {succs : List (BitVec 64)}
    (hs : Shaped inst) (he : exitOf inst = .ok (some (term, succs))) :
    ControlCase inst term succs := by
  cases hs.exitCase with
  | branch c r s i hc ho he' =>
    rw [he] at he'
    cases he'
    exact .branch hc ho
  | jump rd i hop ho he' =>
    rw [he] at he'
    cases he'
    exact .jump hop ho
  | indirect rd base off hop ho hn he' =>
    rw [he] at he'
    cases he'
    exact .indirect hop ho hn
  | ret hop ho he' =>
    rw [he] at he'
    cases he'
    exact .ret hop ho
  | trap hop ho he' =>
    rw [he] at he'
    cases he'
    exact .trap hop ho
  | inner hc hop he' =>
    rw [he] at he'
    cases he'

theorem Shaped.innerCase {inst : DecodedInst} (hs : Shaped inst) (he : exitOf inst = .ok none) :
    condOf inst.opcode = none ∧ inst.opcode ∉ [Opcode.JAL, .JALR, .ECALL, .EBREAK] := by
  cases hs.exitCase with
  | inner hc hop he' => exact ⟨hc, hop⟩
  | branch c r s i hc ho he' => rw [he] at he'; cases he'
  | jump rd i hop ho he' => rw [he] at he'; cases he'
  | indirect rd base off hop ho hn he' => rw [he] at he'; cases he'
  | ret hop ho he' => rw [he] at he'; cases he'
  | trap hop ho he' => rw [he] at he'; cases he'

theorem Shaped.exit_jalr {inst : DecodedInst} {rd base : ℕ} {off : BitVec 64} (hs : Shaped inst)
    (hop : inst.opcode = .JALR) (ho : inst.operands = [.reg rd, .mem base off]) :
    exitOf inst = .ok (some
      (if rd = 0 ∧ base = 1 ∧ off = 0 then .Return else .IndirectJump, [])) := by
  cases hs.exitCase with
  | indirect rd' base' off' hop' ho' hne hx =>
    rw [ho] at ho'
    cases ho'
    rw [hx, if_neg hne]
  | ret hop' ho' hx =>
    rw [ho] at ho'
    cases ho'
    rw [hx, if_pos ⟨rfl, rfl, rfl⟩]
  | branch c r s i hcond ho' hx => simp [hop, condOf] at hcond
  | jump rd i hop' ho' hx => simp [hop] at hop'
  | trap hop' ho' hx => rcases hop' with hop' | hop' <;> simp [hop] at hop'
  | inner hcond hop' hx => simp [hop] at hop'

theorem Shaped.exit_trap {inst : DecodedInst} (hs : Shaped inst)
    (hop : inst.opcode = .ECALL ∨ inst.opcode = .EBREAK) :
    exitOf inst = .ok (some (.Trap, [])) ∧ lowering inst = .nothing := by
  cases hs.exitCase with
  | trap hop' ho hx => exact ⟨hx, by simp only [lowering, ho]⟩
  | branch c r s i hcond ho hx => rcases hop with hop | hop <;> simp [hop, condOf] at hcond
  | jump rd i hop' ho hx => rcases hop with hop | hop <;> simp [hop] at hop'
  | indirect rd base off hop' ho hne hx => rcases hop with hop | hop <;> simp [hop] at hop'
  | ret hop' ho hx => rcases hop with hop | hop <;> simp [hop] at hop'
  | inner hcond hop' hx => rcases hop with hop | hop <;> simp [hop] at hop'

theorem execute_jalr {inst : DecodedInst} {rd base : ℕ} {off : BitVec 64}
    (hop : inst.opcode = .JALR) (ho : inst.operands = [.reg rd, .mem base off]) (m : Machine) :
    execute inst m =
      some ⟨(m.regs.x base + off) &&& ~~~1, m.regs.set rd (m.pc + 4), m.mem⟩ := by
  simp only [execute, ho, hop, if_true]

/-- An instruction inside a block goes on with the next one. -/
theorem execute_inner {inst : DecodedInst} {m m' : Machine}
    (he : exitOf inst = .ok none) (hs : Shaped inst) (h : execute inst m = some m') :
    m'.pc = m.pc + 4 := by
  obtain ⟨hc, hop⟩ := hs.innerCase he
  cases hs with
  | regImm pc raw op rd i hops hrd =>
    simp only [execute] at h
    split at h
    · cases h
      rfl
    · cases h
      rfl
    · simp at hop
    · cases h
  | regMem pc raw op rd base off hops hrd hbase =>
    simp only [execute] at h
    split_ifs at h with hj
    · simp [hj] at hop
    · obtain ⟨v, -, rfl⟩ := Option.map_eq_some_iff.mp h
      rfl
  | memReg pc raw op base rs off hops hbase hrs =>
    obtain ⟨v, -, rfl⟩ := Option.map_eq_some_iff.mp h
    rfl
  | regRegImm pc raw op r s i hops hr hs =>
    simp only [execute, branchTaken_eq, hc, Option.map_none] at h
    obtain ⟨v, -, rfl⟩ := Option.map_eq_some_iff.mp h
    rfl
  | regRegReg pc raw op rd rs1 rs2 hops hrd hrs1 hrs2 =>
    obtain ⟨v, -, rfl⟩ := Option.map_eq_some_iff.mp h
    rfl
  | bare pc raw op hops =>
    simp only [execute] at h
    split_ifs at h
    cases h
    rfl

end Riscy.RISCV
