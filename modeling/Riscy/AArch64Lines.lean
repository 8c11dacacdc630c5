import Riscy.AArch64Asm
import Riscy.AArch64Selected

/-! The lines that selected code is printed as. They are given once over virtual names;
under any other names of the registers the printed lines are the images of these. -/
namespace Riscy.AArch64
open IR (TypeKind BinOpKind ICmpCond)

def Line.map {ρ σ : Type} (f : ρ → σ) : Line ρ → Line σ
  | .mov d s => .mov (f d) (f s)
  | .movImm d v => .movImm (f d) v
  | .movz d v => .movz (f d) v
  | .movk d v lsl => .movk (f d) v lsl
  | .alu op d a b => .alu op (f d) (f a) (f b)
  | .ldr size d base off => .ldr size (f d) (f base) off
  | .str size v base off => .str size (f v) (f base) off
  | .cmp a b => .cmp (f a) (f b)
  | .cmpZero a => .cmpZero (f a)
  | .cset d c => .cset (f d) c
  | .sxtw d s => .sxtw (f d) (f s)
  | .uxtw d s => .uxtw (f d) (f s)

theorem Line.map_id {ρ : Type} (l : Line ρ) : l.map id = l := by
  cases l <;> rfl

/-- Virtual registers of an operand. The base 0 of a memory operand is none. -/
def Operand.vregs : Operand → List VReg
  | .regV v => [v]
  | .mem base _ => if base = 0 then [] else [base]
  | _ => []

def Instr.vregs (i : Instr) : List VReg := i.ops.flatMap Operand.vregs

theorem constCode_vregs {d : VReg} {v : BitVec 64} {c : Instr} (hc : c ∈ constCode d v) :
    c.vregs = [d] := by
  have hk : ∀ part lsl, c ∈ movK d part lsl → c.vregs = [d] := by
    intro part lsl hm
    unfold movK at hm
    split_ifs at hm
    · rw [List.mem_singleton.mp hm]
      rfl
    · cases hm
  unfold constCode at hc
  split_ifs at hc
  · rw [List.mem_singleton.mp hc]
    rfl
  · simp only [List.mem_append, List.mem_singleton] at hc
    rcases hc with ((rfl | hc) | hc) | hc
    · rfl
    · exact hk _ _ hc
    · exact hk _ _ hc
    · exact hk _ _ hc

def aluOf : BinOpKind → Alu
  | .Add => .add
  | .Sub => .sub
  | .And => .and
  | .Or => .orr
  | .Xor => .eor
  | .Shl => .lsl
  | .LShr => .lsr
  | .AShr => .asr

def condOf : ICmpCond → Cond
  | .EQ => .eq
  | .NE => .ne
  | .ULT => .lo
  | .ULE => .ls
  | .UGT => .hi
  | .UGE => .hs
  | .SLT => .lt
  | .SLE => .le
  | .SGT => .gt
  | .SGE => .ge

def sizeOf : TypeKind → Size
  | .I64 | .I1 => .x
  | .I32 => .w
  | .I16 => .h
  | .I8 => .b

def baseName (v : VReg) : VName := if v = 0 then .phys 0 else .virt v

/-- The name of a value. -/
abbrev valueName (v : ℕ) : VName := .virt (valueReg v)

def movkLine (d : VName) (part lsl : BitVec 64) : List (Line VName) :=
  if part ≠ 0 then [.movk d part lsl] else []

def constLines (d : VName) (v : BitVec 64) : List (Line VName) :=
  if v >>> 16 = 0 then [.movImm d v]
  else
    [.movz d (v &&& 0xffff)] ++ movkLine d ((v >>> 16) &&& 0xffff) 16 ++
      movkLine d ((v >>> 32) &&& 0xffff) 32 ++ movkLine d ((v >>> 48) &&& 0xffff) 48

def addrLine (k base : ℕ) : Line VName :=
  .alu .add (.virt (addrReg k)) (valueName base) (.phys 21)

def extLine (line : VName → VName → Line VName) (d src : ℕ) (dst : TypeKind) : Line VName :=
  if dst = .I64 then line (valueName d) (valueName src) else .mov (valueName d) (valueName src)

/-- The lines of an instruction that is selected when the map has size `k`. -/
def selectedLines (start : BitVec 64) (k : ℕ) (i : IR.Instr) : List (Line VName) :=
  match i.payload, i.dest with
  | .Const _ v, some d => constLines (valueName d) v
  | .ReadReg r, some d => [.ldr .x (valueName d) (.phys 0) (guestRegOffsetBytes r)]
  | .WriteReg r v, _ => [.str .x (valueName v) (.phys 0) (guestRegOffsetBytes r)]
  | .BinOp op l r _, some d => [.alu (aluOf op) (valueName d) (valueName l) (valueName r)]
  | .ICmp c l r, some d => [.cmp (valueName l) (valueName r), .cset (valueName d) (condOf c)]
  | .ICmp _ l r, none => [.cmp (valueName l) (valueName r)]
  | .ZExt src dst, some d => [extLine .uxtw d src dst]
  | .SExt src dst, some d => [extLine .sxtw d src dst]
  | .Trunc src _, some d => [.mov (valueName d) (valueName src)]
  | .Load b off ty, some d =>
    [addrLine k b, .ldr (sizeOf ty) (valueName d) (baseName (addrReg k)) (off.setWidth 32)]
  | .Store v b off ty, _ =>
    [addrLine k b, .str (sizeOf ty) (valueName v) (baseName (addrReg k)) (off.setWidth 32)]
  | .GetPC, some d => [.movImm (valueName d) start]
  | _, none => []

def linesAll (start : BitVec 64) (k : ℕ) : List IR.Instr → List (Line VName)
  | [] => []
  | i :: is => selectedLines start k i ++ linesAll start (k + temps i) is

theorem linesAll_append {start : BitVec 64} {k : ℕ} (is js : List IR.Instr) :
    linesAll start k (is ++ js) =
      linesAll start k is ++ linesAll start (k + tempCount is) js := by
  induction is generalizing k with
  | nil => rfl
  | cons i is ih =>
    have hk : k + tempCount (i :: is) = k + temps i + tempCount is := by
      simp [tempCount, Nat.add_assoc]
    rw [List.cons_append, linesAll, linesAll, ih, List.append_assoc, hk]

/-- Lines before the jumps of a terminator. -/
def termLines (t : Terminator) : List (Line VName) :=
  match t.kind, t.data with
  | .CBr, .cbr cond _ _ => [.cmpZero (.virt cond)]
  | .BrIndirect, .brIndirect target => [.mov (.phys 1) (.virt target)]
  | _, _ => []

def termJumps (t : Terminator) : List Jump :=
  match t.kind, t.data with
  | .Br, .br target => [.b target]
  | .CBr, .cbr _ tt ff => [.bne tt, .b ff]
  | .BrIndirect, .brIndirect _ => [.bl]
  | .Ret, _ => [.ret]
  | .Trap, _ => [.brk]
  | _, _ => []

def Terminator.vregs (t : Terminator) : List VReg :=
  match t.kind, t.data with
  | .CBr, .cbr cond _ _ => [cond]
  | .BrIndirect, .brIndirect target => [target]
  | _, _ => []

section Print
variable {ρ : Type} {phys : PReg → ρ} {mapV : VReg → Except Fault ρ}

/-- Every instruction is printed, as one line. -/
def Prints (phys : PReg → ρ) (mapV : VReg → Except Fault ρ) (is : List Instr)
    (ls : List (Line ρ)) : Prop :=
  List.Forall₂ (fun i l => printInstr phys mapV i = .ok [l]) is ls

theorem Prints.printInstrs {is : List Instr} {ls : List (Line ρ)}
    (h : Prints phys mapV is ls) : printInstrs phys mapV is = .ok ls := by
  have hm : is.mapM (printInstr phys mapV) = .ok (ls.map fun l => [l]) := by
    induction h with
    | nil => rfl
    | cons hi _ ih =>
      rw [List.mapM_cons, hi, ih]
      rfl
  rw [AArch64.printInstrs, hm]
  change Except.ok (ls.map fun l => [l]).flatten = _
  rw [← List.flatMap_def, List.flatMap_singleton']

theorem Prints.append {is js : List Instr} {ls ms : List (Line ρ)}
    (h : Prints phys mapV is ls) (g : Prints phys mapV js ms) :
    Prints phys mapV (is ++ js) (ls ++ ms) :=
  List.rel_append h g

variable {f : VName → ρ} {d a b : VReg}

/-- The virtual registers of `c` are called what `f` calls them. -/
def Named (mapV : VReg → Except Fault ρ) (f : VName → ρ) (c : Instr) : Prop :=
  ∀ v ∈ c.vregs, mapV v = .ok (f (.virt v))

theorem mapBase_eq (hphys : ∀ p, f (.phys p) = phys p) {base : VReg}
    (h : base ≠ 0 → mapV base = .ok (f (.virt base))) :
    mapBase phys mapV base = .ok (f (baseName base)) := by
  unfold mapBase baseName
  split_ifs with h0
  · rw [hphys]
  · exact h h0

theorem printInstr_mov (h : Named mapV f ⟨.Mov, [.regV d, .regV a]⟩) :
    printInstr phys mapV ⟨.Mov, [.regV d, .regV a]⟩ =
      .ok [.mov (f (.virt d)) (f (.virt a))] := by
  have hd := h d (by simp [Instr.vregs, Operand.vregs])
  have ha : mapAnyReg phys mapV (.regV a) = .ok (f (.virt a)) :=
    h a (by simp [Instr.vregs, Operand.vregs])
  simp only [printInstr, printMov, Instr.operand, getRegV, bind, Except.bind,
    List.getElem?_cons_zero, List.getElem?_cons_succ, hd, ha]
  rfl

theorem printInstr_movImm {v : BitVec 64} (h : Named mapV f ⟨.Mov, [.regV d, .imm v]⟩) :
    printInstr phys mapV ⟨.Mov, [.regV d, .imm v]⟩ = .ok [.movImm (f (.virt d)) v] := by
  have hd := h d (by simp [Instr.vregs, Operand.vregs])
  simp only [printInstr, printMov, Instr.operand, getRegV, bind, Except.bind,
    List.getElem?_cons_zero, List.getElem?_cons_succ, hd]
  rfl

theorem printInstr_movz {v : BitVec 64} (h : Named mapV f ⟨.MovZ, [.regV d, .imm v]⟩) :
    printInstr phys mapV ⟨.MovZ, [.regV d, .imm v]⟩ = .ok [.movz (f (.virt d)) v] := by
  have hd := h d (by simp [Instr.vregs, Operand.vregs])
  simp only [printInstr, printMovZ, Instr.operand, getRegV, getImm, bind, Except.bind,
    List.getElem?_cons_zero, List.getElem?_cons_succ, hd]
  rfl

theorem printInstr_movk {v lsl : BitVec 64}
    (h : Named mapV f ⟨.MovK, [.regV d, .imm v, .imm lsl]⟩) :
    printInstr phys mapV ⟨.MovK, [.regV d, .imm v, .imm lsl]⟩ =
      .ok [.movk (f (.virt d)) v lsl] := by
  have hd := h d (by simp [Instr.vregs, Operand.vregs])
  simp only [printInstr, printMovK, Instr.operand, getRegV, getImm, bind, Except.bind,
    List.getElem?_cons_zero, List.getElem?_cons_succ, hd]
  rfl

theorem printInstr_bin {op : BinOpKind}
    (h : Named mapV f ⟨binOp op, [.regV d, .regV a, .regV b]⟩) :
    printInstr phys mapV ⟨binOp op, [.regV d, .regV a, .regV b]⟩ =
      .ok [.alu (aluOf op) (f (.virt d)) (f (.virt a)) (f (.virt b))] := by
  have hd := h d (by simp [Instr.vregs, Operand.vregs])
  have ha : mapAnyReg phys mapV (.regV a) = .ok (f (.virt a)) :=
    h a (by simp [Instr.vregs, Operand.vregs])
  have hb : mapAnyReg phys mapV (.regV b) = .ok (f (.virt b)) :=
    h b (by simp [Instr.vregs, Operand.vregs])
  have hline : ∀ o, printAlu phys mapV o ⟨binOp op, [.regV d, .regV a, .regV b]⟩ =
      .ok [.alu o (f (.virt d)) (f (.virt a)) (f (.virt b))] := by
    intro o
    simp only [printAlu, Instr.operand, getRegV, bind, Except.bind,
      List.getElem?_cons_zero, List.getElem?_cons_succ, hd, ha, hb]
    rfl
  cases op <;> exact hline _

theorem printInstr_addr (hphys : ∀ p, f (.phys p) = phys p)
    (h : Named mapV f ⟨.Add, [.regV d, .regV a, .regP 21]⟩) :
    printInstr phys mapV ⟨.Add, [.regV d, .regV a, .regP 21]⟩ =
      .ok [.alu .add (f (.virt d)) (f (.virt a)) (f (.phys 21))] := by
  have hd := h d (by simp [Instr.vregs, Operand.vregs])
  have ha : mapAnyReg phys mapV (.regV a) = .ok (f (.virt a)) :=
    h a (by simp [Instr.vregs, Operand.vregs])
  have hb : mapAnyReg phys mapV (.regP 21) = .ok (f (.phys 21)) := by
    rw [hphys]
    rfl
  simp only [printInstr, printAlu, Instr.operand, getRegV, bind, Except.bind,
    List.getElem?_cons_zero, List.getElem?_cons_succ, hd, ha, hb]
  rfl

section Access
variable {base : VReg} {off : BitVec 32} (ty : TypeKind)

theorem printInstr_load (hphys : ∀ p, f (.phys p) = phys p)
    (h : Named mapV f ⟨loadOp ty, [.regV d, .mem base off]⟩) :
    printInstr phys mapV ⟨loadOp ty, [.regV d, .mem base off]⟩ =
      .ok [.ldr (sizeOf ty) (f (.virt d)) (f (baseName base)) off] := by
  have hd := h d (by simp [Instr.vregs, Operand.vregs])
  have hb := mapBase_eq hphys fun h0 => h base (by simp [Instr.vregs, Operand.vregs, h0])
  have hline : ∀ size, printLdr phys mapV size ⟨loadOp ty, [.regV d, .mem base off]⟩ =
      .ok [.ldr size (f (.virt d)) (f (baseName base)) off] := by
    intro size
    simp only [printLdr, Instr.operand, getRegV, getMem, bind, Except.bind,
      List.getElem?_cons_zero, List.getElem?_cons_succ, hd, hb]
    rfl
  cases ty <;> exact hline _

theorem printInstr_store (hphys : ∀ p, f (.phys p) = phys p)
    (h : Named mapV f ⟨storeOp ty, [.regV d, .mem base off]⟩) :
    printInstr phys mapV ⟨storeOp ty, [.regV d, .mem base off]⟩ =
      .ok [.str (sizeOf ty) (f (.virt d)) (f (baseName base)) off] := by
  have hd := h d (by simp [Instr.vregs, Operand.vregs])
  have hb := mapBase_eq hphys fun h0 => h base (by simp [Instr.vregs, Operand.vregs, h0])
  have hline : ∀ size, printStr phys mapV size ⟨storeOp ty, [.regV d, .mem base off]⟩ =
      .ok [.str size (f (.virt d)) (f (baseName base)) off] := by
    intro size
    simp only [printStr, Instr.operand, getRegV, getMem, bind, Except.bind,
      List.getElem?_cons_zero, List.getElem?_cons_succ, hd, hb]
    rfl
  cases ty <;> exact hline _

end Access

theorem printInstr_cmp (h : Named mapV f ⟨.Cmp, [.regV a, .regV b]⟩) :
    printInstr phys mapV ⟨.Cmp, [.regV a, .regV b]⟩ =
      .ok [.cmp (f (.virt a)) (f (.virt b))] := by
  have ha : mapAnyReg phys mapV (.regV a) = .ok (f (.virt a)) :=
    h a (by simp [Instr.vregs, Operand.vregs])
  have hb : mapAnyReg phys mapV (.regV b) = .ok (f (.virt b)) :=
    h b (by simp [Instr.vregs, Operand.vregs])
  simp only [printInstr, printCmp, Instr.operand, bind, Except.bind,
    List.getElem?_cons_zero, List.getElem?_cons_succ, ha, hb]
  rfl

theorem printInstr_cset {c : ICmpCond} (h : Named mapV f ⟨csetOp c, [.regV d]⟩) :
    printInstr phys mapV ⟨csetOp c, [.regV d]⟩ = .ok [.cset (f (.virt d)) (condOf c)] := by
  have hd := h d (by simp [Instr.vregs, Operand.vregs])
  have hline : ∀ o, printCset mapV o ⟨csetOp c, [.regV d]⟩ = .ok [.cset (f (.virt d)) o] := by
    intro o
    simp only [printCset, Instr.operand, getRegV, bind, Except.bind,
      List.getElem?_cons_zero, hd]
    rfl
  cases c <;> exact hline _

/-- Extensions to 64 bits are printed as such, all others as moves. -/
theorem printInstr_ext {op : Op} (line : {ρ : Type} → ρ → ρ → Line ρ) {dst : TypeKind}
    (hop : printInstr phys mapV ⟨op, [.regV d, .regV a]⟩ =
      printExt mapV line ⟨op, [.regV d, .regV a]⟩)
    (h : Named mapV f ⟨if dst = .I64 then op else .Mov, [.regV d, .regV a]⟩) :
    printInstr phys mapV ⟨if dst = .I64 then op else .Mov, [.regV d, .regV a]⟩ =
      .ok [if dst = .I64 then line (f (.virt d)) (f (.virt a))
        else .mov (f (.virt d)) (f (.virt a))] := by
  have hd := h d (by simp [Instr.vregs, Operand.vregs])
  have ha := h a (by simp [Instr.vregs, Operand.vregs])
  split_ifs with hdst
  · rw [hop]
    simp only [printExt, Instr.operand, getRegV, bind, Except.bind,
      List.getElem?_cons_zero, List.getElem?_cons_succ, hd, ha]
    rfl
  · rw [if_neg hdst] at h
    exact printInstr_mov h

theorem prints_const {v : BitVec 64} (h : ∀ c ∈ constCode d v, Named mapV f c) :
    Prints phys mapV (constCode d v) ((constLines (.virt d) v).map (Line.map f)) := by
  have hk : ∀ part lsl, (∀ c ∈ movK d part lsl, Named mapV f c) →
      Prints phys mapV (movK d part lsl) ((movkLine (.virt d) part lsl).map (Line.map f)) := by
    intro part lsl hc
    unfold movK at hc ⊢
    unfold movkLine
    split_ifs at hc ⊢
    · exact .cons (printInstr_movk (hc _ (List.mem_singleton_self _))) .nil
    · exact .nil
  unfold constCode at h ⊢
  unfold constLines
  split_ifs at h ⊢
  · exact .cons (printInstr_movImm (h _ (List.mem_singleton_self _))) .nil
  · simp only [List.forall_mem_append] at h
    simp only [List.map_append]
    have hz : printInstr phys mapV _ = _ := printInstr_movz (h.1.1.1 _ (List.mem_singleton_self _))
    exact (((Prints.append (.cons hz .nil) (hk _ _ h.1.1.2)).append (hk _ _ h.1.2)).append
      (hk _ _ h.2))

/-- Selected code is printed line by line, whatever its registers are called. -/
theorem prints_selected (hphys : ∀ p, f (.phys p) = phys p) {start : BitVec 64} {k : ℕ}
    {i : IR.Instr} (h : ∀ c ∈ selected start k i, Named mapV f c) :
    Prints phys mapV (selected start k i) ((selectedLines start k i).map (Line.map f)) := by
  obtain ⟨dest, payload⟩ := i
  have hx0 : f (.phys 0) = phys 0 := hphys 0
  have hone : ∀ {c l}, (∀ i ∈ [c], Named mapV f i) → (Named mapV f c →
      printInstr phys mapV c = .ok [l]) → Prints phys mapV [c] [l] :=
    fun hc hp => .cons (hp (hc _ (List.mem_singleton_self _))) .nil
  have htwo : ∀ {c c' l l'}, (∀ i ∈ [c, c'], Named mapV f i) → (Named mapV f c →
      printInstr phys mapV c = .ok [l]) → (Named mapV f c' → printInstr phys mapV c' = .ok [l']) →
      Prints phys mapV [c, c'] [l, l'] :=
    fun hc hp hp' => .cons (hp (hc _ (by simp))) (.cons (hp' (hc _ (by simp))) .nil)
  cases payload with
  | Const ty v =>
    cases dest with
    | none => exact .nil
    | some d => exact prints_const h
  | ReadReg r =>
    cases dest with
    | none => exact .nil
    | some d => exact hone h (printInstr_load .I64 hphys)
  | WriteReg r v => exact hone h (printInstr_store .I64 hphys)
  | BinOp op l r ty =>
    cases dest with
    | none => exact .nil
    | some d => exact hone h printInstr_bin
  | ICmp c l r =>
    cases dest with
    | none => exact hone h printInstr_cmp
    | some d => exact htwo h printInstr_cmp printInstr_cset
  | ZExt src dst =>
    cases dest with
    | none => exact .nil
    | some d =>
      refine hone h fun hn => (printInstr_ext .uxtw rfl hn).trans ?_
      unfold extLine
      split_ifs <;> rfl
  | SExt src dst =>
    cases dest with
    | none => exact .nil
    | some d =>
      refine hone h fun hn => (printInstr_ext .sxtw rfl hn).trans ?_
      unfold extLine
      split_ifs <;> rfl
  | Trunc src dst =>
    cases dest with
    | none => exact .nil
    | some d => exact hone h printInstr_mov
  | Load b off ty =>
    cases dest with
    | none => exact .nil
    | some d => exact htwo h (printInstr_addr hphys) (printInstr_load ty hphys)
  | Store v b off ty => exact htwo h (printInstr_addr hphys) (printInstr_store ty hphys)
  | GetPC =>
    cases dest with
    | none => exact .nil
    | some d => exact hone h printInstr_movImm

theorem prints_selectedAll (hphys : ∀ p, f (.phys p) = phys p) {start : BitVec 64} {k : ℕ}
    {is : List IR.Instr} (h : ∀ c ∈ selectedAll start k is, Named mapV f c) :
    Prints phys mapV (selectedAll start k is) ((linesAll start k is).map (Line.map f)) := by
  induction is generalizing k with
  | nil => exact .nil
  | cons i is ih =>
    simp only [selectedAll, List.forall_mem_append] at h
    rw [selectedAll, linesAll, List.map_append]
    exact (prints_selected hphys h.1).append (ih h.2)

theorem printTerm_eq (hphys : ∀ p, f (.phys p) = phys p) {t : IR.Terminator} (ht : TermOk t)
    (h : ∀ v ∈ (selectedTerm t).vregs, mapV v = .ok (f (.virt v))) :
    printTerm phys mapV (selectedTerm t) =
      .ok ((termLines (selectedTerm t)).map (Line.map f), termJumps (selectedTerm t)) := by
  obtain ⟨kind, data⟩ := t
  cases kind <;> cases data <;> first
    | rfl
    | exact ht.elim
    | skip
  · have hc := h _ (List.mem_singleton_self _)
    simp only [printTerm, selectedTerm, hc, bind, Except.bind]
    rfl
  · have hc := h _ (List.mem_singleton_self _)
    simp only [printTerm, selectedTerm, hc, bind, Except.bind]
    simp only [termLines, List.map_cons, List.map_nil, Line.map, hphys]
    rfl

end Print

/-- The lines of a selected block. -/
def blockLines (bb : IR.Block) : List (Line VName) :=
  .ldr .x (.phys 21) (.phys 0) 256 ::
    linesAll bb.start (bb.insts.length + 1) bb.insts ++ termLines (selectedTerm bb.term)

section Block
variable {ρ : Type} {phys : PReg → ρ} {mapV : VReg → Except Fault ρ} {f : VName → ρ}

theorem printBlock_eq (hphys : ∀ p, f (.phys p) = phys p) {bb : IR.Block}
    (hterm : TermOk bb.term) (h : ∀ c ∈ (selectedBlock bb).instrs, Named mapV f c)
    (ht : ∀ v ∈ (selectedBlock bb).term.vregs, mapV v = .ok (f (.virt v))) :
    printBlock phys mapV (selectedBlock bb) = .ok ⟨blockLabel bb.start,
      (blockLines bb).map (Line.map f), termJumps (selectedTerm bb.term)⟩ := by
  have hbody : printInstrs phys mapV _ = _ := (prints_selectedAll hphys h).printInstrs
  have hend := printTerm_eq hphys hterm ht
  simp only [printBlock, selectedBlock, bind, Except.bind, hbody, hend]
  simp only [prologue, blockLines, List.map_cons, List.map_append, Line.map, hphys]
  rfl

end Block

theorem virtualBlock_eq {bb : IR.Block} (hterm : TermOk bb.term) :
    virtualBlock (selectedBlock bb) =
      .ok ⟨blockLabel bb.start, blockLines bb, termJumps (selectedTerm bb.term)⟩ := by
  have h : virtualBlock (selectedBlock bb) = .ok ⟨blockLabel bb.start,
      (blockLines bb).map (Line.map id), termJumps (selectedTerm bb.term)⟩ :=
    @printBlock_eq VName .phys (fun v => .ok (.virt v)) id (fun _ => rfl) bb hterm
      (fun _ _ _ _ => rfl) (fun _ _ => rfl)
  have hid : (Line.map id : Line VName → Line VName) = id := funext Line.map_id
  rw [hid, List.map_id] at h
  exact h

end Riscy.AArch64
