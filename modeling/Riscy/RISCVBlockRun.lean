import Riscy.RISCVLoweringSound

/-! Lifted blocks as a whole: sizes, what the code of consecutive instructions leaves
behind, and the lifted program that a CFG stands for. -/
namespace Riscy.RISCV
open IR (ValueId TypeKind BinOpKind ICmpCond Payload Val)
open ByteMemory

/-- The number of IR instructions of a lowering. -/
def Lowering.size (l : Lowering) : ℕ := (l.values 0).length + (l.writes 0).length

def irSize (insts : List DecodedInst) : ℕ := (insts.map fun i => (lowering i).size).sum

theorem numbered_length (n : ℕ) (ps : List Payload) : (numbered n ps).length = ps.length := by
  induction ps generalizing n with
  | nil => rfl
  | cons p ps ih => rw [numbered, List.length_cons, ih, List.length_cons]

theorem code_length (n : ℕ) (l : Lowering) : (l.code n).length = l.size := by
  rw [Lowering.code, List.length_append, numbered_length, unnumbered, List.length_map,
    Lowering.size]
  cases l <;> simp [Lowering.values, Lowering.writes, writeBack] <;> split_ifs <;> rfl

@[simp] theorem irSize_nil : irSize [] = 0 := rfl

@[simp] theorem irSize_cons (i : DecodedInst) (is : List DecodedInst) :
    irSize (i :: is) = (lowering i).size + irSize is := rfl

@[simp] theorem irSize_append (is js : List DecodedInst) :
    irSize (is ++ js) = irSize is + irSize js := by
  simp [irSize]

theorem emitted_cons (n : ℕ) (i : DecodedInst) (is : List DecodedInst) :
    emitted n (i :: is) = (lowering i).code n ++ emitted (n + (lowering i).size) is := by
  rw [emitted, code_length]

theorem emitted_length (n : ℕ) (is : List DecodedInst) : (emitted n is).length = irSize is := by
  induction is generalizing n with
  | nil => rfl
  | cons i is ih => rw [emitted_cons, List.length_append, code_length, ih, irSize_cons]

theorem emitted_snoc (n : ℕ) (is : List DecodedInst) (i : DecodedInst) :
    emitted n (is ++ [i]) = emitted n is ++ (lowering i).code (n + irSize is) := by
  rw [emitted_append, emitted_length, emitted_cons, emitted, List.append_nil]

/-- The state after the code of consecutive instructions, the first at position `n`. -/
def stateAfter (start : BitVec 64) : ℕ → List DecodedInst → IR.State → IR.State
  | _, [], s => s
  | n, i :: is, s =>
    stateAfter start (n + (lowering i).size) is ((lowering i).after start n s)

theorem run_emitted (start : BitVec 64) (n : ℕ) (is : List DecodedInst) (s : IR.State) :
    IR.run start (emitted n is) s = some (stateAfter start n is s) := by
  induction is generalizing n s with
  | nil => rfl
  | cons i is ih => rw [emitted_cons, IR.run_append, run_code, Option.bind_some, ih, stateAfter]

theorem stateAfter_snoc (start : BitVec 64) (n : ℕ) (is : List DecodedInst)
    (i : DecodedInst) (s : IR.State) :
    stateAfter start n (is ++ [i]) s =
      (lowering i).after start (n + irSize is) (stateAfter start n is s) := by
  induction is generalizing n s with
  | nil => rfl
  | cons j is ih =>
    rw [List.cons_append, stateAfter, stateAfter, ih, irSize_cons, Nat.add_assoc]

theorem results_length_le (start : BitVec 64) (regs : ℕ → BitVec 64) (mem : Memory 64)
    (l : Lowering) : (l.results start regs mem).length ≤ l.size := by
  rw [results_length start regs mem 0, Lowering.size]
  exact Nat.le_add_right _ _

theorem after_frame {start : BitVec 64} {n : ℕ} {l : Lowering} {s : IR.State} {v : ValueId}
    (h : ∀ i < l.size, v ≠ valueAt (n + i)) : (l.after start n s).env v = s.env v := by
  refine defineAll_frame fun i hi => h i ?_
  have hl := results_length_le start s.regs s.mem l
  omega

/-- A value keeps its meaning while no later position has its number. -/
theorem stateAfter_frame {start : BitVec 64} {n : ℕ} {is : List DecodedInst} {s : IR.State}
    {v : ValueId} (h : ∀ i < irSize is, v ≠ valueAt (n + i)) :
    (stateAfter start n is s).env v = s.env v := by
  induction is generalizing n s with
  | nil => rfl
  | cons j is ih =>
    rw [irSize_cons] at h
    rw [stateAfter, ih, after_frame]
    · exact fun i hi => h i (by omega)
    · intro i hi
      rw [Nat.add_assoc]
      exact h _ (by omega)

/-- The state in which a lifted block starts. -/
def entryState (regs : ℕ → BitVec 64) (mem : Memory 64) : IR.State := ⟨regs, mem, fun _ => none⟩

/-- The IR block that the lifter makes of the block at an address. -/
def CFG.lifted (cfg : CFG) (a : BitVec 64) : Option IR.Block :=
  (cfg.blockAt a).bind fun bb => (lift bb).toOption

theorem CFG.Sound.lifted_eq {mem : MemoryReader} {entry a : BitVec 64} {cfg : CFG}
    {bb : BasicBlock} (h : cfg.Sound mem entry) (hb : cfg.blockAt a = some bb) :
    cfg.lifted a = some ⟨a, emitted 0 bb.insts, liftTerm bb (emitted 0 bb.insts)⟩ := by
  obtain ⟨hm, rfl⟩ := (h.blockAt_iff a bb).mp hb
  rw [CFG.lifted, hb, Option.bind_some, (h.built bb hm).lift_eq]
  rfl

/-- Running a lifted block is running its code and then its terminator. -/
theorem lifted_run {bb : BasicBlock} {a : BitVec 64} {t : IR.Terminator}
    (regs : ℕ → BitVec 64) (mem : Memory 64) :
    (IR.Block.mk a (emitted 0 bb.insts) t).run regs mem =
      (IR.exitOf t (stateAfter a 0 bb.insts (entryState regs mem))).map fun e =>
        (stateAfter a 0 bb.insts (entryState regs mem), e) := by
  unfold IR.Block.run
  change (IR.run a (emitted 0 bb.insts) (entryState regs mem)).bind _ = _
  rw [run_emitted, Option.bind_some]
  cases IR.exitOf t (stateAfter a 0 bb.insts (entryState regs mem)) <;> rfl

end Riscy.RISCV
