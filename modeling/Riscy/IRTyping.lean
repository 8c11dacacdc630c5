import Riscy.IRSemantics

/-! Types of IR values. A value is known by the position that defines it, and an
instruction is judged by the instructions before it. -/
namespace Riscy.IR

/-- Type of the value that a payload computes. -/
def Payload.ty : Payload → Option TypeKind
  | .Const ty _ => some ty
  | .ReadReg _ | .GetPC => some .I64
  | .BinOp _ _ _ ty => some ty
  | .ICmp .. => some .I1
  | .ZExt _ dst | .SExt _ dst | .Trunc _ dst => some dst
  | .Load _ _ ty => some ty
  | .WriteReg .. | .Store .. => none

/-- Position `v` defines a value of the type. -/
def HasTy (done : List Instr) (v : ℕ) (ty : TypeKind) : Prop :=
  ∃ i, done[v]? = some i ∧ i.dest = some v ∧ i.payload.ty = some ty

/-- Every instruction satisfies `P` after the instructions before it. -/
def Prefixed (P : List Instr → Instr → Prop) (before is : List Instr) : Prop :=
  ∀ p i, is[p]? = some i → P (before ++ is.take p) i

section Prefixed
variable {P : List Instr → Instr → Prop} {before is js : List Instr} {i : Instr}

theorem prefixed_nil : Prefixed P before [] := by
  intro p i hi
  cases hi

theorem prefixed_cons : Prefixed P before (i :: is) ↔
    P before i ∧ Prefixed P (before ++ [i]) is := by
  constructor
  · intro h
    refine ⟨by simpa using h 0 i rfl, fun p j hj => ?_⟩
    have hp := h (p + 1) j hj
    rwa [List.take_succ_cons, List.append_cons] at hp
  · rintro ⟨hi, his⟩ (_ | p) j hj
    · cases hj
      simpa using hi
    · rw [List.take_succ_cons, List.append_cons]
      exact his p j hj

theorem prefixed_append : Prefixed P before (is ++ js) ↔
    Prefixed P before is ∧ Prefixed P (before ++ is) js := by
  induction is generalizing before with
  | nil => simp [prefixed_nil]
  | cons i is ih =>
    rw [List.cons_append, prefixed_cons, ih, prefixed_cons, and_assoc, ← List.append_cons]

end Prefixed

section HasTy
variable {done more : List Instr} {v : ℕ} {ty ty' : TypeKind}

theorem HasTy.lt (h : HasTy done v ty) : v < done.length := by
  obtain ⟨i, hi, -⟩ := h
  exact (List.getElem?_eq_some_iff.mp hi).1

theorem HasTy.unique (h : HasTy done v ty) (h' : HasTy done v ty') : ty = ty' := by
  obtain ⟨i, hi, -, hty⟩ := h
  obtain ⟨j, hj, -, hty'⟩ := h'
  rw [hi] at hj
  cases hj
  exact Option.some.inj (hty.symm.trans hty')

theorem HasTy.append (h : HasTy done v ty) : HasTy (done ++ more) v ty := by
  obtain ⟨i, hi, hd, hty⟩ := h
  refine ⟨i, ?_, hd, hty⟩
  rwa [List.getElem?_append_left (List.getElem?_eq_some_iff.mp hi).1]

theorem HasTy.of_take {p : ℕ} (h : HasTy (done.take p) v ty) : HasTy done v ty := by
  rw [← List.take_append_drop p done]
  exact h.append

theorem HasTy.last {i : Instr} (hd : i.dest = some done.length) (hty : i.payload.ty = some ty) :
    HasTy (done ++ [i]) done.length ty :=
  ⟨i, List.getElem?_concat_length, hd, hty⟩

end HasTy

/-- The operands are earlier values of types that the operation takes. -/
def Payload.TypedAfter (done : List Instr) : Payload → Prop
  | .Const .. | .GetPC => True
  | .ReadReg r => r < 32
  | .WriteReg r v => r < 32 ∧ HasTy done v .I64
  | .BinOp _ l r ty => HasTy done l ty ∧ HasTy done r ty
  | .ICmp _ l r => ∃ ty, HasTy done l ty ∧ HasTy done r ty
  | .ZExt src dst | .SExt src dst => ∃ ty, HasTy done src ty ∧ ty.width < dst.width
  | .Trunc src dst => ∃ ty, HasTy done src ty ∧ dst.width < ty.width
  | .Load b _ _ => HasTy done b .I64
  | .Store v b _ ty => HasTy done b .I64 ∧ ∃ tv, HasTy done v tv ∧ ty.width ≤ tv.width

structure Instr.TypedAfter (done : List Instr) (i : Instr) : Prop where
  dest : ∀ d, i.dest = some d → d = done.length
  effect : i.payload.ty = none → i.dest = none
  payload : i.payload.TypedAfter done

def Terminator.Typed (insts : List Instr) (t : Terminator) : Prop :=
  match t.kind, t.data with
  | .Br, .br _ => True
  | .CBr, .cbr cond _ _ => ∃ ty, HasTy insts cond ty
  | .BrIndirect, .brIndirect target => HasTy insts target .I64
  | .Ret, _ | .Trap, _ | .None, _ => True
  | _, _ => False

/-- Well-typed SSA: values are numbered by position and used after their definition, at
their types. -/
structure Block.WellTyped (b : Block) : Prop where
  insts : Prefixed Instr.TypedAfter [] b.insts
  term : b.term.Typed b.insts

theorem Block.WellTyped.at {b : Block} (h : b.WellTyped) {p : ℕ} {i : Instr}
    (hi : b.insts[p]? = some i) : i.TypedAfter (b.insts.take p) :=
  h.insts p i hi

end Riscy.IR
