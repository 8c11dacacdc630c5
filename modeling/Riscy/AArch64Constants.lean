import Riscy.AArch64SelectSound

/-! Values that `ISel::select` puts in a register itself. A constant is moved in pieces of
sixteen bits, the start of the block in one `mov`, which not every value allows. -/
namespace Riscy.AArch64
open IR (ValueId TypeKind Payload)

/-- All bits but those of one 16-bit chunk are zero. -/
def IsChunk (v : BitVec 64) : Prop :=
  ∃ shift ∈ [0, 16, 32, 48], v &&& ~~~((0xffff : BitVec 64) <<< shift) = 0

/-- `k` ones, rotated right by `r` in an element of `e` bits, in all elements. -/
def bitmask (e k r : ℕ) : BitVec 64 :=
  (((BitVec.ofNat e (2 ^ k - 1)).rotateRight r).replicate (64 / e)).setWidth 64

def LogicalImm (v : BitVec 64) : Prop :=
  ∃ e ∈ [2, 4, 8, 16, 32, 64], ∃ k < e, 0 < k ∧ ∃ r < e, v = bitmask e k r

/-- The immediates of `mov Xd, #imm`, an alias of movz, movn and orr. -/
def MovEncodable (v : BitVec 64) : Prop := IsChunk v ∨ IsChunk (~~~v) ∨ LogicalImm v

instance : DecidablePred IsChunk := fun v => by
  unfold IsChunk
  infer_instance

instance : DecidablePred LogicalImm := fun v => by
  unfold LogicalImm
  infer_instance

instance : DecidablePred MovEncodable := fun v => by
  unfold MovEncodable
  infer_instance

/-- A move of a constant that AArch64 has. -/
def Line.LegalMove {ρ : Type} : Line ρ → Prop
  | .movImm _ v => MovEncodable v
  | .movz _ v => v.toNat < 2 ^ 16
  | .movk _ v lsl => v.toNat < 2 ^ 16 ∧ lsl.toNat ∈ [0, 16, 32, 48]
  | _ => False

/-- The value that an instruction of a block puts in its register without reading one. -/
def constantOf (start : BitVec 64) : Payload → Option (BitVec 64)
  | .Const _ v => some v
  | .GetPC => some start
  | _ => none

/-- Whatever registers are called, the code is printed as legal moves that leave `val` in
the register of `v`, and change nothing else. -/
def Puts (code : List Instr) (v : VReg) (val : BitVec 64) : Prop :=
  ∀ {ρ : Type} [DecidableEq ρ] (phys : PReg → ρ) (mapV : VReg → Except Fault ρ) (r : ρ),
    mapV v = .ok r → ∃ lines, printInstrs phys mapV code = .ok lines ∧
      (∀ l ∈ lines, l.LegalMove) ∧ ∀ x0 h, runLines x0 lines h = some (h.set r val)

/-- From every state of selection, `i` is selected as code that puts `val` in the register
of its destination. -/
structure Materialised (start : BitVec 64) (i : IR.Instr) (d : ValueId) (val : BitVec 64) :
    Prop where
  selects : ∀ s, d + 1 < 2 ^ 32 → ∃ s', (selectInst start i).run s = .ok ((), s')
  puts : ∀ s s', (selectInst start i).run s = .ok ((), s') → ∃ v code,
    s'.vmap[d]? = some v ∧ s'.instrs = s.instrs ++ code ∧ Puts code v val

/-- All values that are put in registers are put there exactly, by legal moves. -/
def ConstantsExact (bb : IR.Block) : Prop :=
  ∀ i ∈ bb.insts, ∀ d val, i.dest = some d → constantOf bb.start i.payload = some val →
    Materialised bb.start i d val

section Select
variable {d : ℕ} {s s' : SelState}

/-- The map in which `vreg_of` looks up a value. -/
def grownMap (vmap : List VReg) (d : ℕ) : List VReg :=
  if d ≥ vmap.length then resize vmap ((d + 1) % 2 ^ 32) else vmap

theorem vregOf_found {v : VReg} (h : (grownMap s.vmap d)[d]? = some v) :
    (vregOf d).run s = if v = 0
      then .ok ((d + 1) % 2 ^ 32,
        { s with vmap := (grownMap s.vmap d).set d ((d + 1) % 2 ^ 32) })
      else .ok (v, { s with vmap := grownMap s.vmap d }) := by
  change (vregOf d) s = _
  unfold grownMap at h ⊢
  simp only [vregOf, bind, StateT.bind, get, getThe, MonadStateOf.get, StateT.get, h, Pure.pure,
    Except.pure, Except.bind]
  split_ifs <;> rfl

theorem vregOf_missing (h : (grownMap s.vmap d)[d]? = none) :
    (vregOf d).run s = .error .operandOutOfRange := by
  change (vregOf d) s = _
  unfold grownMap at h
  simp only [vregOf, bind, StateT.bind, get, getThe, MonadStateOf.get, StateT.get, h, Pure.pure,
    Except.pure, Except.bind]
  rfl

theorem vregOf_ok {v : VReg} (h : (vregOf d).run s = .ok (v, s')) :
    s'.vmap[d]? = some v ∧ s'.instrs = s.instrs := by
  cases hget : (grownMap s.vmap d)[d]? with
  | none =>
    rw [vregOf_missing hget] at h
    cases h
  | some u =>
    have hlt := (List.getElem?_eq_some_iff.mp hget).1
    rw [vregOf_found hget] at h
    split_ifs at h with h0
    · cases h
      exact ⟨List.getElem?_set_self hlt, rfl⟩
    · cases h
      exact ⟨hget, rfl⟩

theorem vregOf_total (hd : d + 1 < 2 ^ 32) (s : SelState) :
    ∃ v s', (vregOf d).run s = .ok (v, s') := by
  have hlt : d < (grownMap s.vmap d).length := by
    unfold grownMap resize
    rw [Nat.mod_eq_of_lt hd]
    split_ifs with hge
    · rw [List.length_append, List.length_replicate, List.length_take]
      omega
    · exact Nat.lt_of_not_le hge
  have hget := List.getElem?_eq_getElem hlt
  rw [vregOf_found hget]
  split_ifs
  · exact ⟨_, _, rfl⟩
  · exact ⟨_, _, rfl⟩

theorem pushAll_run (code : List Instr) (s : SelState) :
    (code.forM pushBack).run s = .ok ((), { s with instrs := s.instrs ++ code }) := by
  induction code generalizing s with
  | nil =>
    rw [List.append_nil]
    rfl
  | cons i code ih =>
    have hrest := ih { s with instrs := s.instrs ++ [i] }
    rw [List.append_assoc] at hrest
    exact hrest

/-- A value gets its register, and then its code. -/
theorem materialised_of_code {start : BitVec 64} {i : IR.Instr} {val : BitVec 64}
    {code : VReg → List Instr}
    (hi : selectInst start i = vregOf d >>= fun v => (code v).forM pushBack)
    (hputs : ∀ v, Puts (code v) v val) : Materialised start i d val := by
  refine ⟨fun s hd => ?_, fun s s' h => ?_⟩
  · obtain ⟨v, s₁, hv⟩ := vregOf_total hd s
    rw [hi, StateT.run_bind, hv]
    exact ⟨_, pushAll_run (code v) s₁⟩
  · cases hv : (vregOf d).run s with
    | error e =>
      rw [hi, StateT.run_bind, hv] at h
      cases h
    | ok p =>
      obtain ⟨v, s₁⟩ := p
      obtain ⟨hmap, hinstrs⟩ := vregOf_ok hv
      have hrun : ((code v).forM pushBack).run s₁ = .ok ((), s') := by
        rw [hi, StateT.run_bind, hv] at h
        exact h
      rw [pushAll_run] at hrun
      cases hrun
      exact ⟨v, code v, hmap, by rw [hinstrs], hputs v⟩

end Select

theorem movkLine_legal {d : VName} {part lsl : BitVec 64} (hpart : part.toNat < 2 ^ 16)
    (hlsl : lsl.toNat ∈ [0, 16, 32, 48]) : ∀ l ∈ movkLine d part lsl, l.LegalMove := by
  intro l hl
  unfold movkLine at hl
  split_ifs at hl
  · obtain rfl := List.mem_singleton.mp hl
    exact ⟨hpart, hlsl⟩
  · cases hl

theorem chunk_lt (v : BitVec 64) : (v &&& 0xffff).toNat < 2 ^ 16 := by
  rw [← low_sixteen, low, BitVec.toNat_setWidth]
  exact (Nat.mod_le _ _).trans_lt (BitVec.isLt _)

/-- A value of sixteen bits is its own lowest chunk. -/
theorem isChunk_of_shift {v : BitVec 64} (h : v >>> 16 = 0) : IsChunk v := by
  refine ⟨0, by decide, ?_⟩
  apply BitVec.eq_of_getLsbD_eq
  intro i hi
  rw [BitVec.shiftLeft_zero, BitVec.getLsbD_and, BitVec.getLsbD_not, getLsbD_ffff]
  by_cases h16 : i < 16
  · simp [h16]
  · have hbit := congrArg (fun w => w.getLsbD (i - 16)) h
    simp only [BitVec.getLsbD_ushiftRight] at hbit
    rw [Nat.add_sub_cancel' (Nat.le_of_not_lt h16)] at hbit
    simp [hbit]

theorem constLines_legal (d : VName) (v : BitVec 64) : ∀ l ∈ constLines d v, l.LegalMove := by
  unfold constLines
  split_ifs with h
  · intro l hl
    obtain rfl := List.mem_singleton.mp hl
    exact Or.inl (isChunk_of_shift h)
  · simp only [List.forall_mem_append]
    refine ⟨⟨⟨?_, ?_⟩, ?_⟩, ?_⟩
    · intro l hl
      obtain rfl := List.mem_singleton.mp hl
      exact chunk_lt v
    · exact movkLine_legal (chunk_lt _) (by decide)
    · exact movkLine_legal (chunk_lt _) (by decide)
    · exact movkLine_legal (chunk_lt _) (by decide)

theorem Line.legalMove_map {ρ σ : Type} (f : ρ → σ) (l : Line ρ) :
    (l.map f).LegalMove ↔ l.LegalMove := by
  cases l <;> rfl

theorem constCode_puts (v : VReg) (val : BitVec 64) : Puts (constCode v val) v val := by
  intro ρ _ phys mapV r hr
  have hnamed : ∀ c ∈ constCode v val, Named mapV (fun _ => r) c := by
    intro c hc u hu
    rw [constCode_vregs hc, List.mem_singleton] at hu
    rw [hu, hr]
  refine ⟨_, (prints_const hnamed).printInstrs, ?_, fun x0 h => run_constLines_map _ h x0 _ val⟩
  simp only [List.forall_mem_map, Line.legalMove_map]
  exact constLines_legal _ val

theorem materialised_const (start : BitVec 64) (d : ValueId) (ty : TypeKind) (val : BitVec 64) :
    Materialised start ⟨some d, .Const ty val⟩ d val :=
  materialised_of_code rfl fun v => constCode_puts v val

theorem printInstrs_movImm {ρ : Type} {phys : PReg → ρ} {mapV : VReg → Except Fault ρ} {v : VReg}
    {r : ρ} (hr : mapV v = .ok r) (val : BitVec 64) :
    printInstrs phys mapV [⟨.Mov, [.regV v, .imm val]⟩] = .ok [.movImm r val] := by
  have hnamed : Named mapV (fun _ => r) ⟨.Mov, [.regV v, .imm val]⟩ := by
    intro u hu
    obtain rfl : u = v := by simpa [Instr.vregs, Operand.vregs] using hu
    exact hr
  have hprints : Prints phys mapV [⟨.Mov, [.regV v, .imm val]⟩] [.movImm r val] :=
    .cons (printInstr_movImm hnamed) .nil
  exact hprints.printInstrs

/-- One `mov` puts exactly the values in a register that it can encode. -/
theorem movImm_puts_iff (v : VReg) (val : BitVec 64) :
    Puts [⟨.Mov, [.regV v, .imm val]⟩] v val ↔ MovEncodable val := by
  constructor
  · intro h
    have hr : (fun _ => .ok () : VReg → Except Fault Unit) v = .ok () := rfl
    obtain ⟨lines, hprint, hlegal, -⟩ := h (fun _ => ()) (fun _ => .ok ()) () rfl
    rw [printInstrs_movImm hr] at hprint
    cases hprint
    exact hlegal _ (List.mem_singleton_self _)
  · intro h ρ _ phys mapV r hr
    refine ⟨_, printInstrs_movImm hr val, ?_, fun x0 h => rfl⟩
    intro l hl
    obtain rfl := List.mem_singleton.mp hl
    exact h

theorem materialised_getPC_iff (start : BitVec 64) (d : ValueId) :
    Materialised start ⟨some d, .GetPC⟩ d start ↔ MovEncodable start := by
  have hselect : selectInst start ⟨some d, .GetPC⟩ = vregOf d >>= fun v =>
      [(⟨.Mov, [.regV v, .imm start]⟩ : Instr)].forM pushBack := rfl
  constructor
  · intro h
    obtain ⟨v, s, hv⟩ : ∃ v s, (vregOf d).run ⟨List.replicate (d + 1) 0, []⟩ = .ok (v, s) := by
      rw [vregOf_run (by simp)]
      split_ifs <;> exact ⟨_, _, rfl⟩
    obtain ⟨hmap, hinstrs⟩ := vregOf_ok hv
    have hrun : (selectInst start ⟨some d, .GetPC⟩).run ⟨List.replicate (d + 1) 0, []⟩ =
        .ok ((), { s with instrs := s.instrs ++ [⟨.Mov, [.regV v, .imm start]⟩] }) := by
      rw [hselect, StateT.run_bind, hv]
      exact pushAll_run _ _
    obtain ⟨u, code, hu, hcode, hputs⟩ := h.puts _ _ hrun
    obtain rfl : v = u := Option.some.inj (hmap.symm.trans hu)
    obtain rfl : [⟨.Mov, [.regV v, .imm start]⟩] = code := by simpa [hinstrs] using hcode
    exact (movImm_puts_iff v start).1 hputs
  · intro h
    exact materialised_of_code hselect fun v => (movImm_puts_iff v start).2 h

/-- Constants are materialised, and the start of the block where a single `mov` can. -/
theorem constants_exact_iff (bb : IR.Block) : ConstantsExact bb ↔
    ((∃ i ∈ bb.insts, i.payload = .GetPC ∧ i.dest.isSome) → MovEncodable bb.start) := by
  constructor
  · rintro h ⟨⟨dest, payload⟩, hi, rfl, hdest⟩
    obtain ⟨d, rfl⟩ := Option.isSome_iff_exists.mp hdest
    exact (materialised_getPC_iff bb.start d).1 (h _ hi d _ rfl rfl)
  · rintro h ⟨dest, payload⟩ hi d val rfl hval
    cases payload with
    | Const ty v =>
      cases hval
      exact materialised_const bb.start d ty _
    | GetPC =>
      cases hval
      exact (materialised_getPC_iff bb.start d).2 (h ⟨_, hi, rfl, rfl⟩)
    | _ => cases hval

/-- `auipc x1, 0` at the start of a block. -/
def auipcBlock (start : BitVec 64) : IR.Block :=
  ⟨start, [⟨some 0, .GetPC⟩, ⟨some 1, .Const .I64 0⟩, ⟨some 2, .BinOp .Add 0 1 .I64⟩,
    ⟨none, .WriteReg 1 2⟩], ⟨.Trap, .monostate⟩⟩

/-- At 0x10004 the block would need a `mov` of two chunks. -/
theorem auipc_not_encodable : ¬ ConstantsExact (auipcBlock 0x10004) := by
  have hstart : ¬ MovEncodable 0x10004 := by decide +kernel
  intro h
  exact hstart ((materialised_getPC_iff _ 0).1 (h _ (List.mem_cons_self ..) 0 _ rfl rfl))

end Riscy.AArch64
