import Riscy.AArch64ISel

/-! Selection in closed form. As long as every value number is below the size of the map,
value `v` lives in virtual register `v + 1`, and the `t`-th address temporary of a block
of `n` instructions is number `n + 2 + t`, all as 32-bit numbers. -/
namespace Riscy.AArch64
open IR (ValueId TypeKind BinOpKind ICmpCond Payload)

/-- A slot is empty or holds the register of its value. -/
def VmapOk (vmap : List VReg) : Prop :=
  ∀ i v, vmap[i]? = some v → v = 0 ∨ v = (i + 1) % 2 ^ 32

/-- From every state whose map has size `k`, `x` returns `a`, appends `code` and leaves a
map of size `k'`. -/
def Emits {α : Type} (x : SelM α) (k : ℕ) (a : α) (code : List Instr) (k' : ℕ) : Prop :=
  ∀ s, VmapOk s.vmap → s.vmap.length = k → ∃ s', x.run s = .ok (a, s') ∧ VmapOk s'.vmap ∧
    s'.vmap.length = k' ∧ s'.instrs = s.instrs ++ code

section Emits
variable {α β : Type} {k k' k'' : ℕ} {a : α} {b : β} {c d : List Instr}

theorem Emits.pure (a : α) (k : ℕ) : Emits (pure a) k a [] k :=
  fun s hok hlen => ⟨s, rfl, hok, hlen, (List.append_nil _).symm⟩

theorem Emits.bind {x : SelM α} {f : α → SelM β} (hx : Emits x k a c k')
    (hf : Emits (f a) k' b d k'') : Emits (x >>= f) k b (c ++ d) k'' := by
  intro s hok hlen
  obtain ⟨s₁, hr₁, hok₁, hlen₁, hi₁⟩ := hx s hok hlen
  obtain ⟨s₂, hr₂, hok₂, hlen₂, hi₂⟩ := hf s₁ hok₁ hlen₁
  refine ⟨s₂, ?_, hok₂, hlen₂, ?_⟩
  · rw [StateT.run_bind, hr₁]
    exact hr₂
  · rw [hi₂, hi₁, List.append_assoc]

theorem Emits.push (i : Instr) (k : ℕ) : Emits (pushBack i) k () [i] k :=
  fun s hok hlen => ⟨{ s with instrs := s.instrs ++ [i] }, rfl, hok, hlen, rfl⟩

theorem Emits.pushAll (is : List Instr) (k : ℕ) : Emits (is.forM pushBack) k () is k := by
  induction is with
  | nil => exact Emits.pure () k
  | cons i is ih => exact (Emits.push i k).bind ih

theorem vregOf_run {id : ℕ} {s : SelState} (hlt : id < s.vmap.length) :
    (vregOf id).run s = if s.vmap[id] = 0
      then .ok ((id + 1) % 2 ^ 32, { s with vmap := s.vmap.set id ((id + 1) % 2 ^ 32) })
      else .ok (s.vmap[id], s) := by
  have hget : s.vmap[id]? = some s.vmap[id] := List.getElem?_eq_getElem hlt
  have hnge : ¬ id ≥ s.vmap.length := by omega
  change (vregOf id) s = _
  simp only [vregOf, bind, StateT.bind, get, getThe, MonadStateOf.get, StateT.get,
    if_neg hnge, hget, Pure.pure, Except.pure, Except.bind]
  split_ifs <;> rfl

/-- A value that is in the map gets the register after its number. -/
theorem Emits.vregOf {id : ℕ} (hk : id < k) :
    Emits (vregOf id) k ((id + 1) % 2 ^ 32) [] k := by
  intro s hok hlen
  have hlt : id < s.vmap.length := by omega
  rw [vregOf_run hlt]
  split_ifs with h0
  · refine ⟨{ s with vmap := s.vmap.set id ((id + 1) % 2 ^ 32) }, rfl, ?_,
      by simpa using hlen, (List.append_nil _).symm⟩
    intro i v hv
    by_cases hi : i = id
    · subst hi
      rw [List.getElem?_set_self hlt] at hv
      exact Or.inr (Option.some.inj hv).symm
    · rw [List.getElem?_set_ne (Ne.symm hi)] at hv
      exact hok i v hv
  · have hv := (hok id _ (List.getElem?_eq_getElem hlt)).resolve_left h0
    exact ⟨s, by rw [hv], hok, hlen, (List.append_nil _).symm⟩

/-- Register of an address temporary that is allotted when the map has size `k`. -/
def addrReg (k : ℕ) : VReg := (k + 1) % 2 ^ 32

theorem Emits.newAddr (k : ℕ) : Emits newAddr k (addrReg k) [] (k + 1) := by
  intro s hok hlen
  refine ⟨{ s with vmap := s.vmap ++ [(s.vmap.length + 1) % 2 ^ 32] }, ?_, ?_, by simp [hlen],
    (List.append_nil _).symm⟩
  · rw [addrReg, ← hlen]
    rfl
  · intro i v hv
    rcases Nat.lt_trichotomy i s.vmap.length with hi | rfl | hi
    · rw [List.getElem?_append_left hi] at hv
      exact hok i v hv
    · rw [List.getElem?_append_right le_rfl, Nat.sub_self] at hv
      exact Or.inr (Option.some.inj hv).symm
    · rw [List.getElem?_eq_none (by simp; omega)] at hv
      cases hv

end Emits

/-- Value numbers that a payload mentions. -/
def payloadIds : Payload → List ℕ
  | .Const .. | .ReadReg .. | .GetPC => []
  | .WriteReg _ v => [v]
  | .BinOp _ l r _ => [l, r]
  | .ICmp _ l r => [l, r]
  | .ZExt src _ | .SExt src _ | .Trunc src _ => [src]
  | .Load b _ _ => [b]
  | .Store v b _ _ => [v, b]

/-- Value numbers that an instruction mentions. -/
def valueIds (i : IR.Instr) : List ℕ := i.dest.toList ++ payloadIds i.payload

/-- Address temporaries of an instruction. -/
def temps (i : IR.Instr) : ℕ :=
  match i.payload, i.dest with
  | .Load .., some _ => 1
  | .Store .., _ => 1
  | _, _ => 0

/-- The register of a value. -/
def valueReg (v : ℕ) : VReg := v + 1

def extCode (op : Op) (d src : ℕ) (dst : TypeKind) : List Instr :=
  [⟨if dst = .I64 then op else .Mov, [.regV (valueReg d), .regV (valueReg src)]⟩]

def addrCode (k base : ℕ) : Instr :=
  ⟨.Add, [.regV (addrReg k), .regV (valueReg base), .regP 21]⟩

/-- The code selected for an instruction when the map has size `k`. -/
def selected (start : BitVec 64) (k : ℕ) (i : IR.Instr) : List Instr :=
  match i.payload, i.dest with
  | .Const _ v, some d => constCode (valueReg d) v
  | .ReadReg r, some d => [⟨.LdrX, [.regV (valueReg d), .mem 0 (guestRegOffsetBytes r)]⟩]
  | .WriteReg r v, _ => [⟨.StrX, [.regV (valueReg v), .mem 0 (guestRegOffsetBytes r)]⟩]
  | .BinOp op l r _, some d =>
    [⟨binOp op, [.regV (valueReg d), .regV (valueReg l), .regV (valueReg r)]⟩]
  | .ICmp c l r, some d =>
    [⟨.Cmp, [.regV (valueReg l), .regV (valueReg r)]⟩, ⟨csetOp c, [.regV (valueReg d)]⟩]
  | .ICmp _ l r, none => [⟨.Cmp, [.regV (valueReg l), .regV (valueReg r)]⟩]
  | .ZExt src dst, some d => extCode .Uxtw d src dst
  | .SExt src dst, some d => extCode .Sxtw d src dst
  | .Trunc src _, some d => [⟨.Mov, [.regV (valueReg d), .regV (valueReg src)]⟩]
  | .Load b off ty, some d =>
    [addrCode k b, ⟨loadOp ty, [.regV (valueReg d), .mem (addrReg k) (off.setWidth 32)]⟩]
  | .Store v b off ty, _ =>
    [addrCode k b, ⟨storeOp ty, [.regV (valueReg v), .mem (addrReg k) (off.setWidth 32)]⟩]
  | .GetPC, some d => [⟨.Mov, [.regV (valueReg d), .imm start]⟩]
  | _, none => []

/-- Virtual registers are 32-bit numbers. -/
def Operand.wrap : Operand → Operand
  | .regV v => .regV (v % 2 ^ 32)
  | .mem base off => .mem (base % 2 ^ 32) off
  | o => o

def Instr.wrap (i : Instr) : Instr := ⟨i.op, i.ops.map Operand.wrap⟩

theorem constCode_wrap (v : VReg) (val : BitVec 64) :
    (constCode v val).map Instr.wrap = constCode (v % 2 ^ 32) val := by
  have hk : ∀ part lsl, (movK v part lsl).map Instr.wrap = movK (v % 2 ^ 32) part lsl := by
    intro part lsl
    unfold movK
    split_ifs <;> rfl
  unfold constCode
  split_ifs
  · rfl
  · rw [List.map_append, List.map_append, List.map_append, hk, hk, hk]
    rfl

theorem addrReg_mod (k : ℕ) : addrReg k % 2 ^ 32 = addrReg k := Nat.mod_mod _ _

theorem selectInst_emits {start : BitVec 64} {k : ℕ} {i : IR.Instr}
    (h : ∀ v ∈ valueIds i, v < k) :
    Emits (selectInst start i) k () ((selected start k i).map Instr.wrap) (k + temps i) := by
  obtain ⟨dest, payload⟩ := i
  have hdest : ∀ d, dest = some d → Emits (vregOf d) k (valueReg d % 2 ^ 32) [] k :=
    fun d hd => Emits.vregOf (h d (by simp [valueIds, hd]))
  have hread : ∀ v ∈ payloadIds payload, ∀ n, k ≤ n →
      Emits (vregOf v) n (valueReg v % 2 ^ 32) [] n :=
    fun v hv n hn => Emits.vregOf ((h v (List.mem_append_right _ hv)).trans_le hn)
  have access_wrap : ∀ op b v off,
      [addrCode k b, ⟨op, [.regV (valueReg v), .mem (addrReg k) off]⟩].map Instr.wrap =
        [⟨.Add, [.regV (addrReg k), .regV (valueReg b % 2 ^ 32), .regP 21]⟩,
          ⟨op, [.regV (valueReg v % 2 ^ 32), .mem (addrReg k) off]⟩] := by
    intro op b v off
    simp only [addrCode, Instr.wrap, Operand.wrap, List.map_cons, List.map_nil, addrReg_mod]
  cases payload with
  | Const ty v =>
    cases dest with
    | none => exact Emits.pure () k
    | some d =>
      change Emits _ k () ((constCode (valueReg d) v).map Instr.wrap) k
      rw [constCode_wrap]
      exact (hdest d rfl).bind (Emits.pushAll _ k)
  | ReadReg r =>
    cases dest with
    | none => exact Emits.pure () k
    | some d => exact (hdest d rfl).bind (Emits.push _ k)
  | WriteReg r v => exact (hread v (by simp [payloadIds]) k le_rfl).bind (Emits.push _ k)
  | BinOp op l r ty =>
    have hl := hread l (by simp [payloadIds]) k le_rfl
    have hr := hread r (by simp [payloadIds]) k le_rfl
    cases dest with
    | none => exact Emits.pure () k
    | some d => exact (hdest d rfl).bind (hl.bind (hr.bind (Emits.push _ k)))
  | ICmp c l r =>
    have hl := hread l (by simp [payloadIds]) k le_rfl
    have hr := hread r (by simp [payloadIds]) k le_rfl
    cases dest with
    | none => exact hl.bind (hr.bind ((Emits.push _ k).bind (Emits.pure () k)))
    | some d =>
      exact hl.bind (hr.bind ((Emits.push _ k).bind ((hdest d rfl).bind (Emits.push _ k))))
  | ZExt src dst | SExt src dst | Trunc src dst =>
    have hsrc := hread src (by simp [payloadIds]) k le_rfl
    cases dest with
    | none => exact Emits.pure () k
    | some d => exact (hdest d rfl).bind (hsrc.bind (Emits.push _ k))
  | Load b off ty =>
    have hb := hread b (by simp [payloadIds]) k le_rfl
    cases dest with
    | none => exact Emits.pure () k
    | some d =>
      rw [selected, access_wrap]
      exact (hdest d rfl).bind (hb.bind ((Emits.newAddr k).bind
        ((Emits.push _ (k + 1)).bind (Emits.push _ (k + 1)))))
  | Store v b off ty =>
    have hb := hread b (by simp [payloadIds]) k le_rfl
    have hv := hread v (by simp [payloadIds]) (k + 1) (Nat.le_succ k)
    rw [selected, access_wrap]
    exact hb.bind ((Emits.newAddr k).bind
      ((Emits.push _ (k + 1)).bind (hv.bind (Emits.push _ (k + 1)))))
  | GetPC =>
    cases dest with
    | none => exact Emits.pure () k
    | some d => exact (hdest d rfl).bind (Emits.push _ k)

/-- The code of consecutive instructions, the first with a map of size `k`. -/
def selectedAll (start : BitVec 64) (k : ℕ) : List IR.Instr → List Instr
  | [] => []
  | i :: is => selected start k i ++ selectedAll start (k + temps i) is

def tempCount (is : List IR.Instr) : ℕ := (is.map temps).sum

theorem tempCount_append (is js : List IR.Instr) :
    tempCount (is ++ js) = tempCount is + tempCount js := by
  simp [tempCount]

theorem selectAll_emits {start : BitVec 64} {k : ℕ} {is : List IR.Instr}
    (h : ∀ i ∈ is, ∀ v ∈ valueIds i, v < k) :
    Emits (is.forM (selectInst start)) k () ((selectedAll start k is).map Instr.wrap)
      (k + tempCount is) := by
  induction is generalizing k with
  | nil => exact Emits.pure () k
  | cons i is ih =>
    have hi : Emits (selectInst start i) _ _ _ _ := selectInst_emits (h i (by simp))
    have his := ih (k := k + temps i) fun j hj v hv =>
      Nat.lt_add_right _ (h j (by simp [hj]) v hv)
    have hsum : k + temps i + tempCount is = k + tempCount (i :: is) := by
      simp [tempCount, Nat.add_assoc]
    rw [← hsum, selectedAll, List.map_append]
    exact hi.bind his

/-- The value that a terminator names. -/
def termIds (t : IR.Terminator) : List ℕ :=
  match t.kind, t.data with
  | .CBr, .cbr cond _ _ => [cond]
  | .BrIndirect, .brIndirect target => [target]
  | _, _ => []

/-- Terminators whose data are those of their kind. -/
def TermOk (t : IR.Terminator) : Prop :=
  match t.kind, t.data with
  | .Br, .br _ | .CBr, .cbr .. | .BrIndirect, .brIndirect _ => True
  | .Ret, _ | .Trap, _ | .None, _ => True
  | _, _ => False

def selectedTerm (t : IR.Terminator) : Terminator :=
  match t.kind, t.data with
  | .Br, .br target => ⟨.Br, .br (blockLabel target)⟩
  | .CBr, .cbr cond tt ff => ⟨.CBr, .cbr (valueReg cond) (blockLabel tt) (blockLabel ff)⟩
  | .BrIndirect, .brIndirect target => ⟨.BrIndirect, .brIndirect (valueReg target)⟩
  | .Ret, _ => ⟨.Ret, .monostate⟩
  | .Trap, _ => ⟨.Trap, .monostate⟩
  | _, _ => ⟨.None, .monostate⟩

def Terminator.wrap (t : Terminator) : Terminator :=
  match t.data with
  | .cbr cond tt ff => ⟨t.kind, .cbr (cond % 2 ^ 32) tt ff⟩
  | .brIndirect target => ⟨t.kind, .brIndirect (target % 2 ^ 32)⟩
  | _ => t

theorem selectTerm_emits {t : IR.Terminator} {k : ℕ} (ht : TermOk t)
    (h : ∀ v ∈ termIds t, v < k) : Emits (selectTerm t) k (selectedTerm t).wrap [] k := by
  obtain ⟨kind, data⟩ := t
  cases kind <;> cases data <;> first
    | exact Emits.pure _ k
    | exact (Emits.vregOf (h _ (List.mem_singleton_self _))).bind (Emits.pure _ k)
    | exact ht.elim

/-- The selected block, registers not yet taken as 32-bit numbers. -/
def selectedBlock (bb : IR.Block) : Block :=
  ⟨bb.start, selectedAll bb.start (bb.insts.length + 1) bb.insts, selectedTerm bb.term⟩

def Block.wrap (b : Block) : Block := ⟨b.guestPc, b.instrs.map Instr.wrap, b.term.wrap⟩

/-- Blocks whose value numbers are in the map that selection starts with. -/
structure Mapped (bb : IR.Block) : Prop where
  insts : ∀ i ∈ bb.insts, ∀ v ∈ valueIds i, v < bb.insts.length + 1
  term : TermOk bb.term
  termIds : ∀ v ∈ termIds bb.term, v < bb.insts.length + 1

theorem select_wraps {bb : IR.Block} (h : Mapped bb) :
    select bb = .ok (selectedBlock bb).wrap := by
  have hterm : Emits (selectTerm bb.term) (bb.insts.length + 1 + tempCount bb.insts)
      (selectedTerm bb.term).wrap [] (bb.insts.length + 1 + tempCount bb.insts) :=
    selectTerm_emits h.term fun v hv => Nat.lt_add_right _ (h.termIds v hv)
  have hall : Emits (selectAll bb) (bb.insts.length + 1) (selectedTerm bb.term).wrap
      ((selectedAll bb.start (bb.insts.length + 1) bb.insts).map Instr.wrap ++ []) _ :=
    (selectAll_emits h.insts).bind hterm
  have hzero : VmapOk (List.replicate (bb.insts.length + 1) 0) := fun i v hv =>
    Or.inl (List.eq_of_mem_replicate (List.mem_of_getElem? hv))
  obtain ⟨s, hr, -, -, hi⟩ :=
    hall ⟨List.replicate (bb.insts.length + 1) 0, []⟩ hzero (List.length_replicate ..)
  rw [select, hr]
  change Except.ok (Block.mk bb.start s.instrs (selectedTerm bb.term).wrap) = _
  rw [hi, List.append_nil, List.nil_append]
  rfl

/-- Blocks whose value numbers, one more for the register, are 32-bit numbers. -/
structure SelectOk (bb : IR.Block) : Prop where
  insts : ∀ i ∈ bb.insts, ∀ v ∈ valueIds i, v < bb.insts.length + 1 ∧ v + 1 < 2 ^ 32
  term : TermOk bb.term
  termIds : ∀ v ∈ termIds bb.term, v < bb.insts.length + 1 ∧ v + 1 < 2 ^ 32

theorem SelectOk.mapped {bb : IR.Block} (h : SelectOk bb) : Mapped bb :=
  ⟨fun i hi v hv => (h.insts i hi v hv).1, h.term, fun v hv => (h.termIds v hv).1⟩

theorem selected_wrap (start : BitVec 64) (k : ℕ) {i : IR.Instr}
    (h : ∀ v ∈ valueIds i, v + 1 < 2 ^ 32) :
    (selected start k i).map Instr.wrap = selected start k i := by
  have hreg : ∀ v ∈ valueIds i, valueReg v % 4294967296 = valueReg v :=
    fun v hv => Nat.mod_eq_of_lt (h v hv)
  have haddr : addrReg k % 4294967296 = addrReg k := addrReg_mod k
  obtain ⟨dest, payload⟩ := i
  cases payload <;> cases dest <;>
    simp only [valueIds, payloadIds, Option.toList_some, Option.toList_none, List.nil_append,
      List.cons_append, List.forall_mem_cons] at hreg <;>
    simp only [selected, Instr.wrap, Operand.wrap, addrCode, extCode, constCode_wrap, hreg, haddr,
      List.map_cons, List.map_nil, Nat.reducePow, Nat.zero_mod]

theorem selectedAll_wrap (start : BitVec 64) (k : ℕ) {is : List IR.Instr}
    (h : ∀ i ∈ is, ∀ v ∈ valueIds i, v + 1 < 2 ^ 32) :
    (selectedAll start k is).map Instr.wrap = selectedAll start k is := by
  induction is generalizing k with
  | nil => rfl
  | cons i is ih =>
    rw [selectedAll, List.map_append, selected_wrap start k (h i (by simp)),
      ih _ fun j hj => h j (by simp [hj])]

theorem selectedTerm_wrap {t : IR.Terminator} (h : ∀ v ∈ termIds t, v + 1 < 2 ^ 32) :
    (selectedTerm t).wrap = selectedTerm t := by
  have hreg : ∀ v ∈ termIds t, valueReg v % 2 ^ 32 = valueReg v :=
    fun v hv => Nat.mod_eq_of_lt (h v hv)
  obtain ⟨kind, data⟩ := t
  cases kind <;> cases data <;> first
    | rfl
    | simp only [selectedTerm, Terminator.wrap, hreg _ (List.mem_singleton_self _)]

theorem select_eq {bb : IR.Block} (h : SelectOk bb) : select bb = .ok (selectedBlock bb) := by
  rw [select_wraps h.mapped, Block.wrap, selectedBlock,
    selectedAll_wrap _ _ fun i hi v hv => (h.insts i hi v hv).2,
    selectedTerm_wrap fun v hv => (h.termIds v hv).2]

end Riscy.AArch64
