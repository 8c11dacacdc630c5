import Riscy.AArch64Segments
import Riscy.AArch64Rename

/-! The names in the lines of selected code: those of the registers that liveness counts for
the instruction, each written before it is read, and the two host registers that hold the
state pointer and the memory base. -/
namespace Riscy.AArch64
open IR (TypeKind)
open RISCV

def Line.Occurs {ρ : Type} (l : Line ρ) (n : ρ) : Prop := n ∈ l.reads ∨ l.dest = some n

/-- The line of an instruction. -/
structure Matches (c : Instr) (l : Line VName) : Prop where
  vregs : ∀ v, l.Occurs (.virt v) ↔ v ∈ c.vregs
  reads : ∀ p, .phys p ∈ l.reads → p = 0 ∨ p = 21
  dest : ∀ p, l.dest ≠ some (.phys p)

theorem Line.base_reads {ρ : Type} {l : Line ρ} {b : ρ} (h : l.base = some b) : b ∈ l.reads := by
  cases l <;> simp only [Line.base, reduceCtorEq, Option.some.injEq] at h
  · rw [h]
    exact List.mem_singleton_self b
  · rw [h]
    exact List.mem_cons_of_mem _ (List.mem_singleton_self b)

section Matches
variable {d a b k : VReg}

theorem matches_movK {part lsl : BitVec 64} :
    List.Forall₂ Matches (movK d part lsl) (movkLine (.virt d) part lsl) := by
  unfold movK movkLine
  split_ifs
  · refine .cons ⟨fun v => ?_, fun p hp => ?_, fun p hp => ?_⟩ .nil
    · simp [Line.Occurs, Line.reads, Line.dest, Instr.vregs, Operand.vregs, eq_comm]
    · simp [Line.reads] at hp
    · simp [Line.dest] at hp
  · exact .nil

/-- Lines that write a register and read none. -/
theorem matches_write {op : Op} {o : Operand} {l : Line VName} (ho : o.vregs = [])
    (hr : l.reads = []) (hd : l.dest = some (.virt d)) : Matches ⟨op, [.regV d, o]⟩ l where
  vregs v := by
    have hv : v ∈ Instr.vregs ⟨op, [.regV d, o]⟩ ↔ v = d ∨ v ∈ o.vregs := by
      simp [Instr.vregs, Operand.vregs]
    rw [hv, ho]
    simp [Line.Occurs, hr, hd, eq_comm]
  reads p hp := by simp [hr] at hp
  dest p hp := by simp [hd] at hp

/-- Lines that compute a register from one other. -/
theorem matches_unary {op : Op} {l : Line VName} (hr : l.reads = [.virt a])
    (hd : l.dest = some (.virt d)) : Matches ⟨op, [.regV d, .regV a]⟩ l where
  vregs v := by simp [Line.Occurs, hr, hd, Instr.vregs, Operand.vregs, eq_comm, or_comm]
  reads p hp := by simp [hr] at hp
  dest p hp := by simp [hd] at hp

theorem matches_const {v : BitVec 64} :
    List.Forall₂ Matches (constCode d v) (constLines (.virt d) v) := by
  unfold constCode constLines
  split_ifs
  · exact .cons (matches_write rfl rfl rfl) .nil
  · have hz : List.Forall₂ Matches [⟨.MovZ, [.regV d, .imm (v &&& 0xffff)]⟩]
        [.movz (.virt d) (v &&& 0xffff)] := .cons (matches_write rfl rfl rfl) .nil
    exact List.rel_append (List.rel_append (List.rel_append hz matches_movK) matches_movK)
      matches_movK

theorem matches_alu {op : Op} {o : Alu} :
    Matches ⟨op, [.regV d, .regV a, .regV b]⟩ (.alu o (.virt d) (.virt a) (.virt b)) where
  vregs v := by
    simp only [Line.Occurs, Line.reads, Line.dest, Instr.vregs, Operand.vregs, List.mem_cons,
      List.mem_flatMap, List.not_mem_nil, or_false, exists_eq_or_imp, exists_eq_left,
      VName.virt.injEq, Option.some.injEq]
    rw [or_comm, @eq_comm _ d v]
  reads p hp := by simp [Line.reads] at hp
  dest p hp := by simp [Line.dest] at hp

theorem matches_cmp : Matches ⟨.Cmp, [.regV a, .regV b]⟩ (.cmp (.virt a) (.virt b)) where
  vregs v := by simp [Line.Occurs, Line.reads, Line.dest, Instr.vregs, Operand.vregs]
  reads p hp := by simp [Line.reads] at hp
  dest p hp := by simp [Line.dest] at hp

theorem matches_cset {op : Op} {c : Cond} : Matches ⟨op, [.regV d]⟩ (.cset (.virt d) c) where
  vregs v := by
    simp [Line.Occurs, Line.reads, Line.dest, Instr.vregs, Operand.vregs, eq_comm]
  reads p hp := by simp [Line.reads] at hp
  dest p hp := by simp [Line.dest] at hp

theorem matches_addr : Matches (addrCode k a) (addrLine k a) where
  vregs v := by
    simp [addrCode, addrLine, Line.Occurs, Line.reads, Line.dest, Instr.vregs, Operand.vregs,
      eq_comm, or_comm]
  reads p hp := by
    simp [addrLine, Line.reads] at hp
    exact Or.inr hp
  dest p hp := by simp [addrLine, Line.dest] at hp

theorem baseName_virt {v : VReg} : VName.virt v = baseName b ↔ v ∈ (Operand.mem b 0).vregs := by
  unfold baseName
  simp only [Operand.vregs]
  split_ifs <;> simp

theorem baseName_phys {p : PReg} (h : VName.phys p = baseName b) : p = 0 := by
  unfold baseName at h
  split_ifs at h
  exact VName.phys.inj h

theorem matches_ldr {op : Op} {size : Size} {off : BitVec 32} :
    Matches ⟨op, [.regV d, .mem b off]⟩ (.ldr size (.virt d) (baseName b) off) where
  vregs v := by
    have hb := @baseName_virt b v
    simp only [Operand.vregs] at hb
    simp [Line.Occurs, Line.reads, Line.dest, Instr.vregs, Operand.vregs, hb, eq_comm, or_comm]
  reads p hp := Or.inl (baseName_phys (List.mem_singleton.mp hp))
  dest p hp := by simp [Line.dest] at hp

theorem matches_str {op : Op} {size : Size} {off : BitVec 32} :
    Matches ⟨op, [.regV a, .mem b off]⟩ (.str size (.virt a) (baseName b) off) where
  vregs v := by
    have hb := @baseName_virt b v
    simp only [Operand.vregs] at hb
    simp [Line.Occurs, Line.reads, Line.dest, Instr.vregs, Operand.vregs, hb]
  reads p hp := by
    simp [Line.reads] at hp
    exact Or.inl (baseName_phys hp)
  dest p hp := by simp [Line.dest] at hp

/-- An extension computes one register from one other. -/
theorem extLine_names {line : VName → VName → Line VName} (hr : ∀ x y, (line x y).reads = [y])
    (hd : ∀ x y, (line x y).dest = some x) (d src : ℕ) (dst : TypeKind) :
    (extLine line d src dst).reads = [valueName src] ∧
      (extLine line d src dst).dest = some (valueName d) := by
  unfold extLine
  split_ifs
  · exact ⟨hr _ _, hd _ _⟩
  · exact ⟨rfl, rfl⟩

theorem sxtw_names (d src : ℕ) (dst : TypeKind) :
    (extLine .sxtw d src dst).reads = [valueName src] ∧
      (extLine .sxtw d src dst).dest = some (valueName d) :=
  extLine_names (fun _ _ => rfl) (fun _ _ => rfl) d src dst

theorem uxtw_names (d src : ℕ) (dst : TypeKind) :
    (extLine .uxtw d src dst).reads = [valueName src] ∧
      (extLine .uxtw d src dst).dest = some (valueName d) :=
  extLine_names (fun _ _ => rfl) (fun _ _ => rfl) d src dst

theorem matches_selected {start : BitVec 64} {i : IR.Instr} :
    List.Forall₂ Matches (selected start k i) (selectedLines start k i) := by
  obtain ⟨dest, payload⟩ := i
  cases payload with
  | Const ty v =>
    cases dest with
    | none => exact .nil
    | some d => exact matches_const
  | ReadReg r =>
    cases dest with
    | none => exact .nil
    | some d => exact .cons (matches_ldr (b := 0)) .nil
  | WriteReg r v => exact .cons (matches_str (b := 0)) .nil
  | BinOp op l r ty =>
    cases dest with
    | none => exact .nil
    | some d => exact .cons matches_alu .nil
  | ICmp c l r =>
    cases dest with
    | none => exact .cons matches_cmp .nil
    | some d => exact .cons matches_cmp (.cons matches_cset .nil)
  | ZExt src dst =>
    cases dest with
    | none => exact .nil
    | some d =>
      have hn := uxtw_names d src dst
      exact .cons (matches_unary hn.1 hn.2) .nil
  | SExt src dst =>
    cases dest with
    | none => exact .nil
    | some d =>
      have hn := sxtw_names d src dst
      exact .cons (matches_unary hn.1 hn.2) .nil
  | Trunc src dst =>
    cases dest with
    | none => exact .nil
    | some d => exact .cons (matches_unary rfl rfl) .nil
  | Load b off ty =>
    cases dest with
    | none => exact .nil
    | some d => exact .cons matches_addr (.cons matches_ldr .nil)
  | Store v b off ty => exact .cons matches_addr (.cons matches_str .nil)
  | GetPC =>
    cases dest with
    | none => exact .nil
    | some d => exact .cons (matches_write rfl rfl rfl) .nil

theorem matches_selectedAll {start : BitVec 64} {is : List IR.Instr} :
    List.Forall₂ Matches (selectedAll start k is) (linesAll start k is) := by
  induction is generalizing k with
  | nil => exact .nil
  | cons i is ih => exact List.rel_append matches_selected ih

end Matches

section Defined

/-- Every register that a line reads is in `D` or written by an earlier line. -/
def DefinedFrom (D : VReg → Prop) : List (Line VName) → Prop
  | [] => True
  | l :: ls => (∀ v, .virt v ∈ l.reads → D v) ∧
      DefinedFrom (fun v => D v ∨ l.dest = some (.virt v)) ls

theorem DefinedFrom.mono {D E : VReg → Prop} {ls : List (Line VName)} (h : DefinedFrom D ls)
    (hDE : ∀ v, D v → E v) : DefinedFrom E ls := by
  induction ls generalizing D E with
  | nil => trivial
  | cons l ls ih => exact ⟨fun v hv => hDE v (h.1 v hv), ih h.2 fun v => Or.imp_left (hDE v)⟩

theorem DefinedFrom.append {D E : VReg → Prop} {ls ms : List (Line VName)}
    (h : DefinedFrom D ls) (hE : ∀ v, E v → D v ∨ ∃ l ∈ ls, l.dest = some (.virt v))
    (g : DefinedFrom E ms) : DefinedFrom D (ls ++ ms) := by
  induction ls generalizing D with
  | nil => exact g.mono fun v hv => (hE v hv).resolve_right fun ⟨l, hl, _⟩ => by cases hl
  | cons l ls ih =>
    refine ⟨h.1, ih h.2 fun v hv => ?_⟩
    rcases hE v hv with hD | ⟨l', hl', hd⟩
    · exact Or.inl (Or.inl hD)
    · rcases List.mem_cons.mp hl' with rfl | hl'
      · exact Or.inl (Or.inr hd)
      · exact Or.inr ⟨l', hl', hd⟩

theorem DefinedFrom.get {D : VReg → Prop} {ls : List (Line VName)} (h : DefinedFrom D ls)
    {j : ℕ} {l : Line VName} (hj : ls[j]? = some l) {v : VReg} (hv : .virt v ∈ l.reads) :
    D v ∨ ∃ k < j, ∃ l', ls[k]? = some l' ∧ l'.dest = some (.virt v) := by
  induction ls generalizing D j with
  | nil => cases hj
  | cons l' ls ih =>
    cases j with
    | zero =>
      cases hj
      exact Or.inl (h.1 v hv)
    | succ j =>
      rcases ih h.2 hj with (hD | hd) | ⟨k, hk, l'', hl'', hd⟩
      · exact Or.inl hD
      · exact Or.inr ⟨0, Nat.succ_pos j, l', rfl, hd⟩
      · exact Or.inr ⟨k + 1, Nat.succ_lt_succ hk, l'', hl'', hd⟩

theorem defined_const {D : VReg → Prop} {d : VReg} {v : BitVec 64} :
    DefinedFrom D (constLines (.virt d) v) ∧
      ∃ l ∈ constLines (.virt d) v, l.dest = some (.virt d) := by
  have hk : ∀ {E : VReg → Prop} part lsl, E d → DefinedFrom E (movkLine (.virt d) part lsl) := by
    intro E part lsl hE
    unfold movkLine
    split_ifs
    · refine ⟨fun w hw => ?_, trivial⟩
      rw [VName.virt.inj (List.mem_singleton.mp hw)]
      exact hE
    · trivial
  unfold constLines
  split_ifs
  · exact ⟨⟨fun w hw => (List.not_mem_nil hw).elim, trivial⟩, _, List.mem_singleton_self _, rfl⟩
  · refine ⟨?_, .movz (.virt d) (v &&& 0xffff), by simp, rfl⟩
    have hz : DefinedFrom D [.movz (.virt d) (v &&& 0xffff)] :=
      ⟨fun w hw => (List.not_mem_nil hw).elim, trivial⟩
    have hd : ∀ {ls : List (Line VName)}, .movz (.virt d) (v &&& 0xffff) ∈ ls →
        ∀ w, w = d → D w ∨ ∃ l ∈ ls, l.dest = some (.virt w) := by
      rintro ls hm w rfl
      exact Or.inr ⟨_, hm, rfl⟩
    exact ((hz.append (hd (by simp)) (hk _ _ rfl)).append (hd (by simp)) (hk _ _ rfl)).append
      (hd (by simp)) (hk _ _ rfl)

variable {start : BitVec 64} {k : ℕ}

theorem defined_one {D : VReg → Prop} {l : Line VName} (h : ∀ v, .virt v ∈ l.reads → D v) :
    DefinedFrom D [l] :=
  ⟨h, trivial⟩

/-- The lines of an instruction read its operands, and the temporary that they write. -/
theorem defined_selected {D : VReg → Prop} {i : IR.Instr}
    (h : ∀ id ∈ payloadIds i.payload, D (valueReg id)) :
    DefinedFrom D (selectedLines start k i) := by
  have hids : ∀ {ids : List ℕ} {l : Line VName}, (∀ id ∈ ids, id ∈ payloadIds i.payload) →
      l.reads = ids.map valueName → DefinedFrom D [l] := by
    intro ids l hids hr
    refine defined_one fun v hv => ?_
    rw [hr] at hv
    obtain ⟨id, hid, he⟩ := List.mem_map.mp hv
    rw [← VName.virt.inj he]
    exact h id (hids id hid)
  have haddr : ∀ b ∈ payloadIds i.payload, ∀ v, .virt v ∈ (addrLine k b).reads → D v := by
    intro b hb v hv
    simp [addrLine, Line.reads] at hv
    rw [hv]
    exact h b hb
  have hbase : ∀ {b : ℕ} {v : VReg}, VName.virt v = baseName (addrReg k) →
      (addrLine k b).dest = some (.virt v) := by
    intro b v hv
    unfold baseName at hv
    split_ifs at hv
    rw [hv]
    rfl
  have hnone : ∀ {l : Line VName}, (∀ v, .virt v ∉ l.reads) → DefinedFrom D [l] :=
    fun hl => defined_one fun v hv => absurd hv (hl v)
  obtain ⟨dest, payload⟩ := i
  cases payload with
  | Const ty v =>
    cases dest with
    | none => trivial
    | some d => exact defined_const.1
  | ReadReg r =>
    cases dest with
    | none => trivial
    | some d => exact hnone fun v hv => by simp [Line.reads] at hv
  | WriteReg r v =>
    refine defined_one fun w hw => ?_
    simp [Line.reads] at hw
    rw [hw]
    exact h v (by simp [payloadIds])
  | BinOp op l r ty =>
    cases dest with
    | none => trivial
    | some d => exact hids (fun id hid => hid) rfl
  | ICmp c l r =>
    have hc : DefinedFrom D [.cmp (valueName l) (valueName r)] := hids (fun id hid => hid) rfl
    cases dest with
    | none => exact hc
    | some d => exact ⟨hc.1, fun v hv => by simp [Line.reads] at hv, trivial⟩
  | ZExt src dst =>
    cases dest with
    | none => trivial
    | some d => exact hids (fun id hid => hid) (uxtw_names d src dst).1
  | SExt src dst =>
    cases dest with
    | none => trivial
    | some d => exact hids (fun id hid => hid) (sxtw_names d src dst).1
  | Trunc src dst =>
    cases dest with
    | none => trivial
    | some d => exact hids (fun id hid => hid) rfl
  | Load b off ty =>
    cases dest with
    | none => trivial
    | some d =>
      refine ⟨haddr b (by simp [payloadIds]), fun v hv => Or.inr ?_, trivial⟩
      exact hbase (List.mem_singleton.mp hv)
  | Store x b off ty =>
    refine ⟨haddr b (by simp [payloadIds]), fun v hv => ?_, trivial⟩
    rcases List.mem_cons.mp hv with hv | hv
    · rw [VName.virt.inj hv]
      exact Or.inl (h x (by simp [payloadIds]))
    · exact Or.inr (hbase (List.mem_singleton.mp hv))
  | GetPC =>
    cases dest with
    | none => trivial
    | some d => exact hnone fun v hv => by simp [Line.reads] at hv

/-- The lines of a value write its register. -/
theorem values_defines {n d : ℕ} {l : Lowering} {p : IR.Payload} (hp : p ∈ l.values n) :
    ∃ ln ∈ selectedLines start k ⟨some d, p⟩, ln.dest = some (valueName d) := by
  have hconst : ∀ v ty, ∃ ln ∈ selectedLines start k ⟨some d, .Const ty v⟩,
      ln.dest = some (valueName d) := fun v ty => (defined_const (D := fun _ => True)).2
  cases l with
  | alu op rd rs1 src =>
    cases src <;> simp only [Lowering.values, Source.payload, List.mem_cons, List.not_mem_nil,
      or_false] at hp <;> rcases hp with rfl | rfl | rfl <;>
      first | exact hconst _ _ | exact ⟨_, List.mem_singleton_self _, rfl⟩
  | addWord rd rs1 src =>
    cases src <;> simp only [Lowering.values, Source.payload, List.mem_cons, List.not_mem_nil,
      or_false] at hp <;> rcases hp with rfl | rfl | rfl | rfl | rfl <;>
      first | exact hconst _ _ | exact ⟨_, List.mem_singleton_self _, rfl⟩
  | loadWord signed rd base off =>
    cases signed <;> simp only [Lowering.values, List.mem_cons, List.not_mem_nil, or_false,
      if_true, Bool.false_eq_true, if_false] at hp <;> rcases hp with rfl | rfl | rfl
    · exact ⟨_, List.mem_singleton_self _, rfl⟩
    · exact ⟨_, List.mem_cons_of_mem _ (List.mem_singleton_self _), rfl⟩
    · exact ⟨_, List.mem_singleton_self _, (uxtw_names ..).2⟩
    · exact ⟨_, List.mem_singleton_self _, rfl⟩
    · exact ⟨_, List.mem_cons_of_mem _ (List.mem_singleton_self _), rfl⟩
    · exact ⟨_, List.mem_singleton_self _, (sxtw_names ..).2⟩
  | loadDouble rd base off =>
    simp only [Lowering.values, List.mem_cons, List.not_mem_nil, or_false] at hp
    rcases hp with rfl | rfl
    · exact ⟨_, List.mem_singleton_self _, rfl⟩
    · exact ⟨_, List.mem_cons_of_mem _ (List.mem_singleton_self _), rfl⟩
  | store ty base rs off =>
    simp only [Lowering.values, List.mem_cons, List.not_mem_nil, or_false] at hp
    rcases hp with rfl | rfl <;> exact ⟨_, List.mem_singleton_self _, rfl⟩
  | compare c rs1 rs2 =>
    simp only [Lowering.values, List.mem_cons, List.not_mem_nil, or_false] at hp
    rcases hp with rfl | rfl | rfl
    · exact ⟨_, List.mem_singleton_self _, rfl⟩
    · exact ⟨_, List.mem_singleton_self _, rfl⟩
    · exact ⟨_, List.mem_cons_of_mem _ (List.mem_singleton_self _), rfl⟩
  | auipc rd i =>
    simp only [Lowering.values, List.mem_cons, List.not_mem_nil, or_false] at hp
    rcases hp with rfl | rfl | rfl <;>
      first | exact hconst _ _ | exact ⟨_, List.mem_singleton_self _, rfl⟩
  | link rd ra =>
    rw [List.mem_singleton.mp hp]
    exact hconst _ _
  | jumpReg rd base off ra =>
    simp only [Lowering.values, List.mem_cons, List.not_mem_nil, or_false] at hp
    rcases hp with rfl | rfl | rfl | rfl | rfl | rfl <;>
      first | exact hconst _ _ | exact ⟨_, List.mem_singleton_self _, rfl⟩
  | nothing => cases hp

theorem code_defines {n d : ℕ} {l : Lowering} {i : IR.Instr} (hi : i ∈ l.code n)
    (hd : i.dest = some d) : ∃ ln ∈ selectedLines start k i, ln.dest = some (valueName d) := by
  rcases List.mem_append.mp hi with hi | hi
  · have hp := List.mem_map_of_mem (f := IR.Instr.payload) hi
    rw [numbered_payloads] at hp
    obtain ⟨dest, payload⟩ := i
    cases hd
    exact values_defines hp
  · obtain ⟨p, -, rfl⟩ := List.mem_map.mp hi
    cases hd

theorem Ssa.definedFrom {D : List ℕ} {is : List IR.Instr} (h : Ssa D is)
    (hdef : ∀ i ∈ is, ∀ k d, i.dest = some d →
      ∃ ln ∈ selectedLines start k i, ln.dest = some (valueName d)) :
    DefinedFrom (fun v => ∃ id ∈ D, v = valueReg id) (linesAll start k is) := by
  induction is generalizing D k with
  | nil => trivial
  | cons i is ih =>
    have hi : DefinedFrom (fun v => ∃ id ∈ D, v = valueReg id) (selectedLines start k i) :=
      defined_selected fun id hid => ⟨id, h.1 id hid, rfl⟩
    refine hi.append ?_ (ih h.2 fun j hj => hdef j (List.mem_cons_of_mem _ hj))
    rintro v ⟨id, hid, rfl⟩
    rcases List.mem_append.mp hid with hid | hid
    · exact Or.inl ⟨id, hid, rfl⟩
    · exact Or.inr (hdef i (by simp) k id (by simpa using hid))

/-- In lifted code every register is written before it is read. -/
theorem emitted_defined (n : ℕ) (is : List DecodedInst) :
    DefinedFrom (fun _ => False) (linesAll start k (emitted n is)) := by
  induction is generalizing n k with
  | nil => trivial
  | cons i is ih =>
    rw [emitted_cons, linesAll_append]
    have hcode : DefinedFrom _ (linesAll start k ((lowering i).code n)) :=
      (code_ssa [] n (lowering i)).definedFrom fun j hj k d hd => code_defines hj hd
    have hnone : ∀ v, (∃ id ∈ ([] : List ℕ), v = valueReg id) → False := by
      rintro v ⟨id, hid, -⟩
      cases hid
    exact (hcode.mono hnone).append (fun v hv => hv.elim) (ih _)

end Defined

end Riscy.AArch64
