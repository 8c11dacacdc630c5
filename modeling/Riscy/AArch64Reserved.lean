import Riscy.AArch64AllocSound
import Riscy.AArch64GuestAccess

/-! The registers that the allocator never hands out, and the state struct. Lines of a block
write registers of the pool; stores through `x0` go to a guest register, all others to the
sum of a value and `x21`. The one exception is a store whose address temporary is number 0
for want of a 32-bit number: number 0 as a base is the state struct. -/
namespace Riscy.AArch64
open RISCV ByteMemory
open IR (Payload)

section Stores

/-- The store of an instruction and the lines before it. -/
inductive Stores (k : ℕ) : IR.Instr → List (Line VName) → Line VName → Prop
  | reg {dest r v} : Stores k ⟨dest, .WriteReg r v⟩ []
      (.str .x (valueName v) (.phys 0) (guestRegOffsetBytes r))
  | mem {dest v b off ty} : Stores k ⟨dest, .Store v b off ty⟩ [addrLine k b]
      (.str (sizeOf ty) (valueName v) (baseName (addrReg k)) (off.setWidth 32))

def Line.isStore {ρ : Type} : Line ρ → Bool
  | .str .. => true
  | _ => false

theorem constLines_dest {d : VName} {v : BitVec 64} {l : Line VName} (hl : l ∈ constLines d v) :
    l.dest = some d := by
  have hk : ∀ part lsl, l ∈ movkLine d part lsl → l.dest = some d := by
    intro part lsl hm
    unfold movkLine at hm
    split_ifs at hm
    · rw [List.mem_singleton.mp hm]
      rfl
    · cases hm
  unfold constLines at hl
  split_ifs at hl
  · rw [List.mem_singleton.mp hl]
    rfl
  · simp only [List.append_assoc, List.mem_append, List.mem_singleton] at hl
    rcases hl with rfl | hl | hl | hl
    · rfl
    · exact hk _ _ hl
    · exact hk _ _ hl
    · exact hk _ _ hl

/-- One line that is no store. -/
theorem not_store_one {ρ : Type} {x l : Line ρ} {pre post : List (Line ρ)}
    (hx : x.isStore = false) (h : [x] = pre ++ l :: post) (hl : l.isStore) : False := by
  have hm : l ∈ [x] := h ▸ List.mem_append_right _ (List.mem_cons_self ..)
  rw [List.mem_singleton.mp hm, hx] at hl
  cases hl

theorem not_store_two {ρ : Type} {x y l : Line ρ} {pre post : List (Line ρ)}
    (hx : x.isStore = false) (hy : y.isStore = false) (h : [x, y] = pre ++ l :: post)
    (hl : l.isStore) : False := by
  have hm : l ∈ [x, y] := h ▸ List.mem_append_right _ (List.mem_cons_self ..)
  rcases List.mem_cons.mp hm with rfl | hm
  · rw [hx] at hl
    cases hl
  · rw [List.mem_singleton.mp hm, hy] at hl
    cases hl

/-- A store comes from a register write or from a guest store, after its address line. -/
theorem selected_stores {start : BitVec 64} {k : ℕ} {i : IR.Instr} {pre post : List (Line VName)}
    {l : Line VName} (h : selectedLines start k i = pre ++ l :: post) (hl : l.isStore) :
    Stores k i pre l := by
  have hnil : ¬ ([] = pre ++ l :: post) := by simp
  obtain ⟨dest, payload⟩ := i
  cases payload with
  | WriteReg r v =>
    change [_] = _ at h
    obtain ⟨rfl, rfl, -⟩ : pre = [] ∧ l = _ ∧ post = [] := by
      cases pre with
      | nil =>
        cases h
        exact ⟨rfl, rfl, rfl⟩
      | cons x pre => simp at h
    exact .reg
  | Store v b off ty =>
    change [_, _] = _ at h
    match pre with
    | [] =>
      cases h
      cases hl
    | [x] =>
      cases h
      exact .mem
    | x :: y :: pre => simp at h
  | Const ty v =>
    cases dest with
    | none => exact absurd h hnil
    | some d =>
      have hm : l ∈ constLines (valueName d) v := by
        change constLines (valueName d) v = _ at h
        rw [h]
        exact List.mem_append_right _ (List.mem_cons_self ..)
      have hd := constLines_dest hm
      cases l with
      | str size v base off => cases hd
      | _ => cases hl
  | Load b off ty =>
    cases dest with
    | none => exact absurd h hnil
    | some d => exact (not_store_two rfl rfl h hl).elim
  | ICmp c a b =>
    cases dest with
    | none => exact (not_store_one rfl h hl).elim
    | some d => exact (not_store_two rfl rfl h hl).elim
  | ZExt src dst | SExt src dst =>
    cases dest with
    | none => exact absurd h hnil
    | some d =>
      change [extLine _ _ _ _] = _ at h
      refine (not_store_one ?_ h hl).elim
      unfold extLine
      split_ifs <;> rfl
  | ReadReg r | BinOp op a b ty | Trunc src dst | GetPC =>
    cases dest with
    | none => exact absurd h hnil
    | some d => exact (not_store_one rfl h hl).elim

/-- An element of an appended list belongs to the first part or to the second one. -/
theorem append_split {α : Type} {as bs pre post : List α} {x : α}
    (h : as ++ bs = pre ++ x :: post) :
    (∃ post', as = pre ++ x :: post') ∨ ∃ pre', pre = as ++ pre' ∧ bs = pre' ++ x :: post := by
  rcases List.append_eq_append_iff.mp h with ⟨c, rfl, hb⟩ | ⟨c, rfl, hx⟩
  · exact Or.inr ⟨c, rfl, hb⟩
  · cases c with
    | nil => exact Or.inr ⟨[], by simp, by simpa using hx.symm⟩
    | cons y c =>
      cases hx
      exact Or.inl ⟨c, rfl⟩

theorem linesAll_stores {start : BitVec 64} {k : ℕ} {is : List IR.Instr}
    {pre post : List (Line VName)} {l : Line VName}
    (h : linesAll start k is = pre ++ l :: post) (hl : l.isStore) :
    ∃ is₁ i is₂ pre₁ pre₂, is = is₁ ++ i :: is₂ ∧ pre = pre₁ ++ pre₂ ∧
      Stores (k + tempCount is₁) i pre₂ l := by
  induction is generalizing k pre with
  | nil =>
    change [] = _ at h
    simp at h
  | cons i is ih =>
    rcases append_split h with ⟨post', hi⟩ | ⟨pre', rfl, hrest⟩
    · exact ⟨[], i, is, [], pre, rfl, rfl, selected_stores hi hl⟩
    · obtain ⟨is₁, j, is₂, pre₁, pre₂, rfl, rfl, hs⟩ := ih hrest
      refine ⟨i :: is₁, j, is₂, selectedLines start k i ++ pre₁, pre₂, rfl, by simp, ?_⟩
      have hk : k + tempCount (i :: is₁) = k + temps i + tempCount is₁ := by
        rw [tempCount, List.map_cons, List.sum_cons, ← Nat.add_assoc]
        rfl
      rw [hk]
      exact hs

end Stores

section Lowered

/-- The lifter drops writes of `x0`. -/
theorem code_write_ne {n : ℕ} {l : Lowering} {i : IR.Instr} (hi : i ∈ l.code n) {r : ℕ}
    {v : IR.ValueId} (hp : i.payload = .WriteReg r v) : r ≠ 0 := by
  have hwrite : ∀ rd w, Payload.WriteReg r v ∈ writeBack rd w → r ≠ 0 := by
    intro rd w hw
    unfold writeBack at hw
    split_ifs at hw with hrd
    · cases hw
    · cases List.mem_singleton.mp hw
      exact hrd
  have hm := code_payload hi
  rw [hp] at hm
  rcases List.mem_append.mp hm with hm | hm
  · cases l with
    | alu k rd rs1 src => cases src <;> simp [Lowering.values, Source.payload] at hm
    | addWord rd rs1 src => cases src <;> simp [Lowering.values, Source.payload] at hm
    | loadWord signed rd base off => cases signed <;> simp [Lowering.values] at hm
    | _ => simp [Lowering.values] at hm
  · cases l with
    | store ty base rs off => simp [Lowering.writes] at hm
    | compare c rs1 rs2 => cases hm
    | nothing => cases hm
    | _ => exact hwrite _ _ hm

theorem emitted_write_ne {is : List DecodedInst} {n : ℕ} :
    ∀ i ∈ emitted n is, ∀ r v, i.payload = .WriteReg r v → r ≠ 0 := by
  induction is generalizing n with
  | nil => simp [emitted]
  | cons inst is ih =>
    rw [emitted_cons, List.forall_mem_append]
    exact ⟨fun i hi r v hp => code_write_ne hi hp, ih⟩

end Lowered

section Body
variable {mem : MemoryReader} {bb : BasicBlock} {o : ItemOrders} {asg : RegAssignment}
  {asm : AsmBlock PReg} {body : List (Line PReg)}

/-- The offset of one of the guest registers `x1` to `x31` in the state struct. -/
def RegOffset (off : BitVec 32) : Prop := ∃ r, 1 ≤ r ∧ r ≤ 31 ∧ off = guestRegOffsetBytes r

/-- A store of the block, at this offset, whose address temporary has number 0. -/
def TempZero (bb : BasicBlock) (off : BitVec 64) : Prop :=
  ∃ is i is' v b ty, (lifted bb).insts = is ++ i :: is' ∧ i.payload = .Store v b off ty ∧
    addrReg ((lifted bb).insts.length + 1 + tempCount is) = 0

/-- The address temporaries of stores are told apart from the state pointer. -/
def TempsApart (bb : BasicBlock) : Prop := ∀ off, TempZero bb off → RegOffset (off.setWidth 32)

/-- The value is the base of a store of the block. -/
def StoreBase (bb : BasicBlock) (b : IR.ValueId) : Prop :=
  ∃ i ∈ (lifted bb).insts, ∃ v off ty, i.payload = .Store v b off ty

/-- `body` is what the emitter prints for the instructions of the block, under `asg`. -/
def PrintedBody (o : ItemOrders) (bb : BasicBlock) (asm : AsmBlock PReg) (asg : RegAssignment)
    (body : List (Line PReg)) : Prop :=
  ∃ blk, translateBlock o bb = .ok (blk, asg) ∧ emitBlock blk asg = .ok asm ∧
    printInstrs id (mapV asg) blk.instrs = .ok body

/-- The body keeps off the reserved registers, and its stores off the rest of the struct. -/
structure Reserved (bb : BasicBlock) (asg : RegAssignment) (body : List (Line PReg)) : Prop where
  writes : ∀ l ∈ body, ∀ d, l.dest = some d → d ∈ initialPool
  state : ∀ size v off, .str size v 0 off ∈ body → RegOffset off
  guest : ∀ pre size v base off post, body = pre ++ .str size v base off :: post → base ≠ 0 →
    ∃ pre' b q, pre = pre' ++ [.alu .add base q 21] ∧ StoreBase bb b ∧
      asg (valueReg b % 2 ^ 32) = some q

theorem pool_reserved : ∀ p ∈ initialPool,
    p ≠ 0 ∧ p ≠ 1 ∧ p ≠ 19 ∧ p ≠ 21 ∧ p ≠ 29 ∧ p ≠ 30 ∧ p < 31 := by
  decide

/-- The lines of the body over virtual names. -/
def bodyLines (bb : BasicBlock) : List (Line VName) :=
  linesAll bb.start ((lifted bb).insts.length + 1) (lifted bb).insts

theorem PrintedBody.lines (h : WellBuilt mem bb) (hp : PrintedBody o bb asm asg body) :
    body = (bodyLines bb).map (Line.map (wrapNames asg)) := by
  obtain ⟨blk, ht, -, hb⟩ := hp
  rw [printBody_lines h ht] at hb
  cases hb
  rfl

/-- Every virtual register of the body has a register of the pool. -/
theorem PrintedBody.assigned (h : WellBuilt mem bb) (hp : PrintedBody o bb asm asg body)
    {l : Line VName} (hl : l ∈ bodyLines bb) {v : VReg} (hv : l.Occurs (.virt v)) :
    ∃ q ∈ initialPool, asg (v % 2 ^ 32) = some q := by
  obtain ⟨blk, ht, -, -⟩ := hp
  obtain ⟨rfl, ha⟩ := translateBlock_inv h ht
  obtain ⟨c, hc, hm⟩ := forall₂_mem_right matches_selectedAll hl
  obtain ⟨p, hp⟩ := touches_wrapped hc ((hm.vregs v).mp hv)
  exact allocated_pool (o.ordered _ _) ha hp

theorem PrintedBody.writes (h : WellBuilt mem bb) (hp : PrintedBody o bb asm asg body) :
    ∀ l ∈ body, ∀ d, l.dest = some d → d ∈ initialPool := by
  intro l hl d hd
  rw [hp.lines h] at hl
  obtain ⟨l', hl', rfl⟩ := List.mem_map.mp hl
  rw [Line.dest_map] at hd
  obtain ⟨n, hn, rfl⟩ := Option.map_eq_some_iff.mp hd
  cases n with
  | phys p =>
    obtain ⟨c, hc, hm⟩ := forall₂_mem_right matches_selectedAll hl'
    exact absurd hn (hm.dest p)
  | virt v =>
    obtain ⟨q, hq, hv⟩ := hp.assigned h hl' (Or.inr hn)
    change (asg (v % 2 ^ 32)).getD 0 ∈ initialPool
    rw [hv]
    exact hq

/-- A store of the body comes from an instruction of the block. -/
theorem PrintedBody.stores (h : WellBuilt mem bb) (hp : PrintedBody o bb asm asg body)
    {pre post : List (Line PReg)} {size : Size} {v base : PReg} {off : BitVec 32}
    (hs : body = pre ++ .str size v base off :: post) :
    ∃ is i is' pre₁ pre₂ l, (lifted bb).insts = is ++ i :: is' ∧
      pre = (pre₁ ++ pre₂).map (Line.map (wrapNames asg)) ∧
      l.map (wrapNames asg) = .str size v base off ∧ pre₁ ++ pre₂ ++ [l] <+: bodyLines bb ∧
      Stores ((lifted bb).insts.length + 1 + tempCount is) i pre₂ l := by
  rw [hp.lines h, List.map_eq_append_iff] at hs
  obtain ⟨pre', rest, hsplit, rfl, hrest⟩ := hs
  obtain ⟨l, post', rfl, hl, rfl⟩ := List.map_eq_cons_iff.mp hrest
  have hstore : l.isStore := by
    cases l <;> first | rfl | cases hl
  obtain ⟨is, i, is', pre₁, pre₂, his, rfl, hst⟩ := linesAll_stores hsplit hstore
  exact ⟨is, i, is', pre₁, pre₂, l, his, rfl, hl, ⟨post', by rw [hsplit]; simp⟩, hst⟩

theorem wrapNames_virt {v : VReg} {q : PReg} (h : asg (v % 2 ^ 32) = some q) :
    wrapNames asg (.virt v) = q := by
  rw [wrapNames, h]
  rfl

/-- The address temporary of a store is no reserved register. -/
theorem PrintedBody.temp (h : WellBuilt mem bb) (hp : PrintedBody o bb asm asg body) {k b : ℕ}
    (hl : addrLine k b ∈ bodyLines bb) :
    ∃ q ∈ initialPool, wrapNames asg (.virt (addrReg k)) = q := by
  obtain ⟨q, hq, hk⟩ := hp.assigned h hl (Or.inr rfl)
  exact ⟨q, hq, wrapNames_virt hk⟩

theorem PrintedBody.state (h : WellBuilt mem bb) (hp : PrintedBody o bb asm asg body)
    (ht : TempsApart bb) {size : Size} {v : PReg} {off : BitVec 32}
    (hm : .str size v 0 off ∈ body) : RegOffset off := by
  obtain ⟨pre, post, hsplit⟩ := List.append_of_mem hm
  obtain ⟨is, i, is', pre₁, pre₂, l, his, -, hl, hpre, hst⟩ := hp.stores h hsplit
  have hi : i ∈ (lifted bb).insts := his ▸ List.mem_append_right _ (List.mem_cons_self ..)
  cases hst with
  | @reg dest r w =>
    cases hl
    refine ⟨r, Nat.pos_of_ne_zero (emitted_write_ne _ hi r w rfl), ?_, rfl⟩
    exact Nat.le_of_lt_succ
      (emitted_guestReg (fun inst hinst => h.shaped inst hinst) _ hi r (Or.inr ⟨w, rfl⟩))
  | @mem dest w b off' ty =>
    simp only [Line.map, Line.str.injEq] at hl
    obtain ⟨-, -, hbase, rfl⟩ := hl
    by_cases h0 : addrReg ((lifted bb).insts.length + 1 + tempCount is) = 0
    · exact ht off' ⟨is, _, is', w, b, ty, his, rfl, h0⟩
    · rw [baseName, if_neg h0] at hbase
      have haddr : addrLine ((lifted bb).insts.length + 1 + tempCount is) b ∈ bodyLines bb :=
        hpre.subset (by simp)
      obtain ⟨q, hq, hqa⟩ := hp.temp h haddr
      rw [hqa] at hbase
      exact absurd hbase (pool_reserved q hq).1

theorem PrintedBody.guest (h : WellBuilt mem bb) (hp : PrintedBody o bb asm asg body)
    {pre post : List (Line PReg)} {size : Size} {v base : PReg} {off : BitVec 32}
    (hsplit : body = pre ++ .str size v base off :: post) (hne : base ≠ 0) :
    ∃ pre' b q, pre = pre' ++ [.alu .add base q 21] ∧ StoreBase bb b ∧
      asg (valueReg b % 2 ^ 32) = some q := by
  obtain ⟨is, i, is', pre₁, pre₂, l, his, rfl, hl, hpre, hst⟩ := hp.stores h hsplit
  have hi : i ∈ (lifted bb).insts := his ▸ List.mem_append_right _ (List.mem_cons_self ..)
  cases hst with
  | reg =>
    simp only [Line.map, Line.str.injEq] at hl
    exact absurd hl.2.2.1.symm hne
  | @mem dest w b off' ty =>
    simp only [Line.map, Line.str.injEq] at hl
    obtain ⟨-, -, hbase, -⟩ := hl
    have haddr : addrLine ((lifted bb).insts.length + 1 + tempCount is) b ∈ bodyLines bb :=
      hpre.subset (by simp)
    obtain ⟨q, -, hq⟩ := hp.assigned h haddr (Or.inl (List.mem_cons_self ..))
    refine ⟨pre₁.map (Line.map (wrapNames asg)), b, q, ?_, ⟨_, hi, w, off', ty, rfl⟩, hq⟩
    by_cases h0 : addrReg ((lifted bb).insts.length + 1 + tempCount is) = 0
    · rw [baseName, if_pos h0] at hbase
      exact absurd hbase.symm hne
    · rw [baseName, if_neg h0] at hbase
      rw [List.map_append, ← hbase, ← wrapNames_virt hq]
      rfl

/-- The store of a temporary with number 0 is printed as a store to the struct. -/
theorem PrintedBody.temp_zero (h : WellBuilt mem bb) (hp : PrintedBody o bb asm asg body)
    {off : BitVec 64} (ht : TempZero bb off) :
    ∃ size v, .str size v 0 (off.setWidth 32) ∈ body := by
  obtain ⟨is, i, is', v, b, ty, his, hi, h0⟩ := ht
  obtain ⟨dest, payload⟩ := i
  dsimp only at hi
  subst hi
  refine ⟨sizeOf ty, wrapNames asg (valueName v), ?_⟩
  rw [hp.lines h, List.mem_map]
  refine ⟨.str (sizeOf ty) (valueName v) (.phys 0) (off.setWidth 32), ?_, rfl⟩
  rw [bodyLines, his, linesAll_append, ← his]
  refine List.mem_append_right _ (List.mem_append_left _ ?_)
  change _ ∈ [_, Line.str _ _ (baseName (addrReg _)) _]
  rw [h0]
  exact List.mem_cons_of_mem _ (List.mem_singleton_self _)

/-- A body respects the reserved registers exactly when its temporaries have numbers. -/
theorem PrintedBody.reserved_iff (h : WellBuilt mem bb) (hp : PrintedBody o bb asm asg body) :
    Reserved bb asg body ↔ TempsApart bb := by
  constructor
  · intro hr off ht
    obtain ⟨size, v, hm⟩ := hp.temp_zero h ht
    exact hr.state size v _ hm
  · intro ht
    exact ⟨hp.writes h, fun size v off hm => hp.state h ht hm,
      fun pre size v base off post hsplit hne => hp.guest h hsplit hne⟩

end Body

section Struct

/-- No register has this number. With it as the state pointer, the struct is memory like any
other to a line. -/
def noReg : PReg := 32

/-- The struct holds 32 guest registers, the memory base and the memory size. -/
def structSize : ℕ := 8 * 34

def wordAt (m : Memory 64) (a : BitVec 64) (k : ℕ) : ℕ := read m (a + BitVec.ofNat 64 (8 * k)) 8

theorem Line.exec_frame {ρ : Type} [DecidableEq ρ] {x0 n : ρ} {l : Line ρ} {s t : Host ρ}
    (h : l.exec x0 s = some t) (hn : l.dest ≠ some n) : t.r n = s.r n := by
  have hset : ∀ d v, l.dest = some d → (s.set d v).r n = s.r n := by
    intro d v hd
    have hne : n ≠ d := by
      rintro rfl
      exact hn hd
    exact Function.update_of_ne hne _ _
  cases l with
  | ldr size d base off =>
    simp only [Line.exec] at h
    split_ifs at h with h0 h1
    · obtain ⟨k, -, rfl⟩ := Option.map_eq_some_iff.mp h
      exact hset d _ rfl
    · cases h
      exact hset d _ rfl
  | str size v base off =>
    simp only [Line.exec] at h
    split_ifs at h with h0 h1
    · obtain ⟨k, -, rfl⟩ := Option.map_eq_some_iff.mp h
      rfl
    · cases h
      rfl
  | cmp x y | cmpZero x =>
    cases h
    rfl
  | mov d x | movImm d v | movz d v | movk d v lsl | alu op d x y | cset d c | sxtw d x
  | uxtw d x =>
    cases h
    exact hset d _ rfl

variable {x0 n : PReg} {l : Line PReg} {s t s₀ : Host PReg} {a : BitVec 64}

theorem Line.exec_mem (h : l.exec x0 s = some t) (hl : l.isStore = false) : t.mem = s.mem := by
  cases l with
  | ldr size d base off =>
    simp only [Line.exec] at h
    split_ifs at h with h0 h1
    · obtain ⟨k, -, rfl⟩ := Option.map_eq_some_iff.mp h
      rfl
    · cases h
      rfl
  | str size v base off => cases hl
  | _ =>
    cases h
    rfl

/-- A store changes memory from its address on, if it changes any. -/
theorem exec_str {size : Size} {v base : PReg} {off : BitVec 32}
    (h : Line.exec x0 s (.str size v base off) = some t) : t.mem = s.mem ∨
      t.mem = write s.mem (s.r base + off.signExtend 64) (s.r v).toNat size.bytes := by
  simp only [Line.exec] at h
  split_ifs at h with h0 h1
  · obtain ⟨k, -, rfl⟩ := Option.map_eq_some_iff.mp h
    exact Or.inl rfl
  · cases h
    exact Or.inr rfl

theorem Size.bytes_le (size : Size) : size.bytes ≤ 8 := by
  cases size <;> decide

theorem regOffset_extend : ∀ r < 32, (guestRegOffsetBytes r).signExtend 64 =
    BitVec.ofNat 64 (8 * r) := by
  decide

/-- Different words of the struct are apart. -/
theorem words_apart {k r n : ℕ} (hk : k < 34) (hr : r < 34) (hne : k ≠ r) (hn : n ≤ 8) :
    Apart (a + BitVec.ofNat 64 (8 * k)) 8 (a + BitVec.ofNat 64 (8 * r)) n := by
  intro i hi j hj he
  rw [BitVec.add_assoc, BitVec.add_assoc, ← BitVec.ofNat_add, ← BitVec.ofNat_add] at he
  have hnat := congrArg BitVec.toNat ((BitVec.add_right_inj a).mp he)
  rw [BitVec.toNat_ofNat, BitVec.toNat_ofNat, Nat.mod_eq_of_lt (by omega),
    Nat.mod_eq_of_lt (by omega)] at hnat
  omega

theorem apart_word {b : BitVec 64} {k n : ℕ} (h : Apart a structSize b n) (hk : k < 34) :
    Apart (a + BitVec.ofNat 64 (8 * k)) 8 b n := by
  intro i hi j hj
  rw [BitVec.add_assoc, ← BitVec.ofNat_add]
  refine h (8 * k + i) ?_ j hj
  rw [structSize]
  omega

/-- What the blocks keep of the host: the state pointer, the return address of the entry
stub, the memory base and size, and the zero of `x0`. -/
structure StatePinned (a : BitVec 64) (s₀ s : Host PReg) : Prop where
  state : s.r 0 = a
  ret : s.r 19 = s₀.r 19
  mem : wordAt s.mem a 32 = wordAt s₀.mem a 32
  size : wordAt s.mem a 33 = wordAt s₀.mem a 33
  zero : wordAt s.mem a 0 = 0

/-- Lines that keep off the reserved registers and off the rest of the struct. -/
structure Line.Safe (a : BitVec 64) (s : Host PReg) (l : Line PReg) : Prop where
  dest : ∀ d, l.dest = some d → d ≠ 0 ∧ d ≠ 19
  state : ∀ size v off, l = .str size v 0 off → RegOffset off
  guest : ∀ size v base off, l = .str size v base off → base ≠ 0 →
    Apart a structSize (s.r base + off.signExtend 64) size.bytes

theorem Line.Safe.words (h : l.Safe a s) (hs : s.r 0 = a) (he : l.exec x0 s = some t) {k : ℕ}
    (hk : k = 0 ∨ k = 32 ∨ k = 33) : wordAt t.mem a k = wordAt s.mem a k := by
  have hlt : k < 34 := by omega
  cases hl : l.isStore with
  | false => rw [l.exec_mem he hl]
  | true =>
    cases l with
    | str size v base off =>
      rcases exec_str he with hm | hm
      · rw [hm]
      · rw [wordAt, hm]
        refine read_write_apart ?_ _
        by_cases h0 : base = 0
        · subst h0
          obtain ⟨r, hr1, hr2, rfl⟩ := h.state size v off rfl
          rw [hs, regOffset_extend r (by omega)]
          exact words_apart hlt (by omega) (by omega) size.bytes_le
        · exact apart_word (h.guest size v base off rfl h0) hlt
    | _ => cases hl

/-- One safe line. -/
theorem StatePinned.line (hk : StatePinned a s₀ s) (hl : l.Safe a s) (he : l.exec x0 s = some t) :
    StatePinned a s₀ t where
  state := (l.exec_frame he fun hd => (hl.dest 0 hd).1 rfl).trans hk.state
  ret := (l.exec_frame he fun hd => (hl.dest 19 hd).2 rfl).trans hk.ret
  mem := (hl.words hk.state he (Or.inr (Or.inl rfl))).trans hk.mem
  size := (hl.words hk.state he (Or.inr (Or.inr rfl))).trans hk.size
  zero := (hl.words hk.state he (Or.inl rfl)).trans hk.zero

theorem runLines_frame {ls : List (Line PReg)} (hd : ∀ l ∈ ls, l.dest ≠ some n)
    (h : runLines x0 ls s = some t) : t.r n = s.r n := by
  induction ls generalizing s with
  | nil =>
    cases h
    rfl
  | cons l ls ih =>
    rw [runLines_cons] at h
    obtain ⟨u, hu, h⟩ := Option.bind_eq_some_iff.mp h
    rw [ih (fun l' hl' => hd l' (List.mem_cons_of_mem _ hl')) h, l.exec_frame hu (hd l (by simp))]

/-- The stores of the lines that are not based on `x0` miss the struct. -/
def GuestApart (a : BitVec 64) (ls : List (Line PReg)) (s : Host PReg) : Prop :=
  ∀ pre size v base off post t, ls = pre ++ .str size v base off :: post → base ≠ 0 →
    runLines noReg pre s = some t → Apart a structSize (t.r base + off.signExtend 64) size.bytes

theorem GuestApart.tail {ls : List (Line PReg)} (h : GuestApart a (l :: ls) s)
    (he : l.exec noReg s = some t) : GuestApart a ls t := by
  rintro pre size v base off post u rfl hb hu
  refine h (l :: pre) size v base off post u rfl hb ?_
  rw [runLines_cons, he]
  exact hu

/-- Safe lines, one after another. -/
theorem StatePinned.run {ls : List (Line PReg)} (hk : StatePinned a s₀ s)
    (hd : ∀ l ∈ ls, ∀ d, l.dest = some d → d ≠ 0 ∧ d ≠ 19)
    (hs : ∀ size v off, .str size v 0 off ∈ ls → RegOffset off) (hg : GuestApart a ls s)
    (h : runLines noReg ls s = some t) : StatePinned a s₀ t := by
  induction ls generalizing s with
  | nil =>
    cases h
    exact hk
  | cons l ls ih =>
    rw [runLines_cons] at h
    obtain ⟨u, hu, h⟩ := Option.bind_eq_some_iff.mp h
    have hsafe : l.Safe a s := by
      refine ⟨hd l (by simp), ?_, ?_⟩
      · rintro size v off rfl
        exact hs size v off (List.mem_cons_self ..)
      · rintro size v base off rfl hb
        exact hg [] size v base off ls s rfl hb rfl
    exact ih (hk.line hsafe hu) (fun l' hl' => hd l' (List.mem_cons_of_mem _ hl'))
      (fun size v off hm => hs size v off (List.mem_cons_of_mem _ hm)) (hg.tail hu) h

end Struct

section Run
variable {mem : MemoryReader} {entry : BitVec 64} {cfg : CFG} {o : ItemOrders} {m : ModuleAsm}
  {bb : BasicBlock} {asm : AsmBlock PReg} {a : BitVec 64} {s t s₀ : Host PReg}

/-- Lines of a block: the prologue, the body and what its terminator needs. -/
theorem PrintedAs.lines (h : WellBuilt mem bb) (hp : PrintedAs o bb asm) :
    ∃ asg body ends, PrintedBody o bb asm asg body ∧ asm.lines = prologue id :: body ++ ends ∧
      ∀ l ∈ ends, l.base = none ∧ ∀ d, l.dest = some d → d = 1 := by
  obtain ⟨blk, asg, ht, ha⟩ := hp
  refine ⟨asg, _, (termLines (selectedTerm (lifted bb).term)).map (Line.map (wrapNames asg)),
    ⟨blk, ht, ha, printBody_lines h ht⟩, ?_, ?_⟩
  · rw [emitBlock_lines h ht] at ha
    cases ha
    rw [blockLines, List.map_append]
    rfl
  · intro l hl
    obtain ⟨l', hl', rfl⟩ := List.mem_map.mp hl
    unfold termLines at hl'
    split at hl'
    · rw [List.mem_singleton.mp hl']
      exact ⟨rfl, fun d hd => by cases hd⟩
    · rw [List.mem_singleton.mp hl']
      exact ⟨rfl, fun d hd => by cases hd; rfl⟩
    · cases hl'

/-- A visit of a block: its address temporaries have numbers, and the guest stores that it
makes from here miss the struct. -/
structure Visit (o : ItemOrders) (cfg : CFG) (a : BitVec 64) (asm : AsmBlock PReg)
    (ls : List (Line PReg)) (s : Host PReg) : Prop where
  temps : ∃ bb ∈ cfg.blocks, PrintedAs o bb asm ∧ TempsApart bb
  apart : GuestApart a ls s

/-- Blocks that jump to each other by their labels. -/
inductive DirectRun (o : ItemOrders) (cfg : CFG) (m : ModuleAsm) (a : BitVec 64)
    (b₀ : AsmBlock PReg) (s₀ : Host PReg) : AsmBlock PReg → Host PReg → Prop
  | start : DirectRun o cfg m a b₀ s₀ b₀ s₀
  | jump {b s s' b' label} (h : DirectRun o cfg m a b₀ s₀ b s) (hv : Visit o cfg a b b.lines s)
    (hr : b.run noReg 1 s = some (s', .goto label)) (hb : b' ∈ m.blocks)
    (hl : b'.label = label) : DirectRun o cfg m a b₀ s₀ b' s'

/-- From the first line of a block on, `x21` is the memory base that the struct holds. -/
theorem PrintedAs.memBase (h : WellBuilt mem bb) (hp : PrintedAs o bb asm)
    {ls : List (Line PReg)} (hls : ls <+: asm.lines) (hne : ls ≠ [])
    (hrun : runLines noReg ls s = some t) :
    t.r 21 = BitVec.ofNat 64 (wordAt s.mem (s.r 0) 32) := by
  obtain ⟨asg, body, ends, hbody, hlines, hends⟩ := hp.lines h
  cases ls with
  | nil => exact absurd rfl hne
  | cons l ls =>
    rw [hlines, List.cons_append, List.cons_prefix_cons] at hls
    obtain ⟨rfl, htail⟩ := hls
    rw [runLines_cons] at hrun
    obtain ⟨u, hu, hrun⟩ := Option.bind_eq_some_iff.mp hrun
    have hkeep : ∀ l ∈ ls, l.dest ≠ some 21 := by
      intro l hl hd
      rcases List.mem_append.mp (htail.subset hl) with hm | hm
      · exact (pool_reserved 21 (hbody.writes h l hm 21 hd)).2.2.2.1 rfl
      · cases (hends l hm).2 21 hd
    rw [runLines_frame hkeep hrun]
    cases hu
    rfl

/-- Lines of a block from its first one on. -/
theorem StatePinned.lines (hk : StatePinned a s₀ s) (hcfg : cfg.Sound mem entry)
    {ls : List (Line PReg)} (hls : ls <+: asm.lines) (hv : Visit o cfg a asm ls s) (h : runLines noReg ls s = some t) :
    StatePinned a s₀ t ∧ (ls ≠ [] → t.r 21 = BitVec.ofNat 64 (wordAt s₀.mem a 32)) := by
  obtain ⟨⟨bb, hbb, hp, htemps⟩, hapart⟩ := hv
  have hwell := hcfg.built bb hbb
  obtain ⟨asg, body, ends, hbody, hlines, hends⟩ := hp.lines hwell
  have hres := (hbody.reserved_iff hwell).mpr htemps
  have hsub : ∀ l ∈ ls, l = prologue id ∨ l ∈ body ∨ l ∈ ends := by
    intro l hl
    have hm := hls.subset hl
    rw [hlines] at hm
    simpa [or_assoc] using hm
  refine ⟨hk.run ?_ ?_ hapart h, ?_⟩
  · intro l hl d hd
    rcases hsub l hl with rfl | hl | hl
    · cases hd
      decide
    · have hpool := pool_reserved d (hres.writes l hl d hd)
      exact ⟨hpool.1, hpool.2.2.1⟩
    · rw [(hends l hl).2 d hd]
      decide
  · intro size v off hm
    rcases hsub _ hm with hm | hm | hm
    · cases hm
    · exact hres.state size v off hm
    · cases (hends _ hm).1
  · intro hne
    rw [hp.memBase hwell hls hne h, hk.state, ← hk.mem]

/-- Blocks that jump to each other keep the struct and the reserved registers. -/
theorem DirectRun.keeps {b₀ b : AsmBlock PReg} (hcfg : cfg.Sound mem entry)
    (h : DirectRun o cfg m a b₀ s₀ b s) (h0 : s₀.r 0 = a) (hz : wordAt s₀.mem a 0 = 0) :
    StatePinned a s₀ s := by
  induction h with
  | start => exact ⟨h0, rfl, rfl, rfl, hz⟩
  | jump h hv hr hb hl ih =>
    obtain ⟨u, hu, hr⟩ := Option.bind_eq_some_iff.mp hr
    obtain ⟨e, -, hr⟩ := Option.bind_eq_some_iff.mp hr
    cases hr
    exact (ih.lines hcfg List.prefix_rfl hv hu).1

/-- Bodies respect the reserved registers and the struct where the temporaries of stores have
numbers, and along blocks for which this holds nothing of the host that they rely on is lost. -/
structure RespectsReserved (o : ItemOrders) (cfg : CFG) : Prop where
  bodies : ∀ bb ∈ cfg.blocks, ∀ asm asg body, PrintedBody o bb asm asg body →
    (Reserved bb asg body ↔ TempsApart bb)
  runs : ∀ m, translate o cfg = .ok m → ∀ a b₀ s₀ b s, b₀ ∈ m.blocks → s₀.r 0 = a →
    wordAt s₀.mem a 0 = 0 → DirectRun o cfg m a b₀ s₀ b s →
      ∀ ls t, ls <+: b.lines → Visit o cfg a b ls s → runLines noReg ls s = some t →
        StatePinned a s₀ t ∧ (ls ≠ [] → t.r 21 = BitVec.ofNat 64 (wordAt s₀.mem a 32))

/-- Whatever the length of a block, it is the number of a temporary that decides. -/
theorem reserved_where_apart (h : Builds mem entry cfg) (o : ItemOrders) :
    RespectsReserved o cfg where
  bodies bb hbb _ _ _ hp := hp.reserved_iff (h.sound.built bb hbb)
  runs _ _ _ _ _ _ _ _ h0 hz hrun _ _ hls hv ht :=
    (hrun.keeps h.sound h0 hz).lines h.sound hls hv ht

end Run

section Stored

/-- One `addi x0, x0, 0` and `n` times `sd x1, 0(x1)`. -/
def storesReader (n : ℕ) : MemoryReader := fun a =>
  if a = 0 then some 0x00000013
  else if a.toNat ≤ 4 * n then some 0x0010b023
  else none

def sdAt (i : ℕ) : DecodedInst := ⟨addrAt 0#64 i, 0x0010b023, .SD, [.mem 1 0, .reg 1]⟩

def sds : ℕ → ℕ → List DecodedInst
  | _, 0 => []
  | i, k + 1 => sdAt i :: sds (i + 1) k

def storesBlock (n : ℕ) : BasicBlock := ⟨0#64, nopAt 0 :: sds 1 n, .Trap, []⟩

def storesCFG (n : ℕ) : CFG := ⟨0#64, [storesBlock n], (∅ : AddrIndex).insert 0#64 0⟩

theorem sds_snoc (i k : ℕ) : sds i (k + 1) = sds i k ++ [sdAt (i + k)] := by
  induction k generalizing i with
  | zero => rfl
  | succ k ih =>
    rw [sds, ih, sds, List.cons_append, Nat.add_right_comm, Nat.add_assoc i k 1]

theorem sds_size (i k : ℕ) : irSize (sds i k) = 3 * k := by
  induction k generalizing i with
  | zero => rfl
  | succ k ih =>
    have h3 : (lowering (sdAt i)).size = 3 := rfl
    rw [sds, irSize_cons, ih, h3]
    omega

theorem sds_addrCounts (i k : ℕ) : addrCounts (sds i k) = k := by
  induction k generalizing i with
  | zero => rfl
  | succ k ih =>
    have h1 : addrCounts (sdAt i :: sds (i + 1) k) = 1 + addrCounts (sds (i + 1) k) := rfl
    rw [sds, h1, ih, Nat.add_comm]

theorem sds_length {start : BitVec 64} {n k i c : ℕ} :
    (segments start n k (sds i c)).length = 4 * c := by
  induction c generalizing n k i with
  | zero => rfl
  | succ c ih =>
    have h4 : (segment start n k (lowering (sdAt i))).length = 4 := rfl
    rw [sds, segments_cons, List.length_append, ih, h4]
    omega

theorem stores_nop (n : ℕ) : decodeNext (storesReader n) 0#64 = .ok (nopAt 0) := by
  simp [decodeNext, storesReader, nopAt]
  rfl

section Reader
variable {n : ℕ} (hn : n < 2 ^ 40)
include hn

theorem stores_sd {i : ℕ} (hi : i < n) :
    decodeNext (storesReader n) (addrAt 0#64 (i + 1)) = .ok (sdAt (i + 1)) := by
  have hne : addrAt 0#64 (i + 1) ≠ 0 := by
    intro h
    have hnat := congrArg BitVec.toNat h
    rw [addrAt_zero_toNat (by omega)] at hnat
    simp at hnat
  have hw : storesReader n (addrAt 0#64 (i + 1)) = some 0x0010b023 := by
    rw [storesReader, if_neg hne, addrAt_zero_toNat (by omega), if_pos (by omega)]
  simp only [decodeNext, addrAt_aligned, hw]
  rfl

theorem stores_end : decodeNext (storesReader n) (addrAt 0#64 (n + 1)) = .error .OOBRead := by
  have hne : addrAt 0#64 (n + 1) ≠ 0 := by
    intro h
    have hnat := congrArg BitVec.toNat h
    rw [addrAt_zero_toNat (by omega)] at hnat
    simp at hnat
  have hw : storesReader n (addrAt 0#64 (n + 1)) = none := by
    rw [storesReader, if_neg hne, addrAt_zero_toNat (by omega), if_neg (by omega)]
  simp only [decodeNext, addrAt_aligned, hw]
  rfl

theorem stores_scan {known : BitVec 64 → Bool} (hk : ∀ a, a ≠ 0#64 → known a = false) {i k : ℕ}
    (h : i + k = n) (extra : ℕ) (insts : List DecodedInst) :
    scan (storesReader n) known 0#64 (extra + k + 1) (addrAt 0#64 (i + 1)) insts =
      some (.ok ⟨0#64, insts ++ sds (i + 1) k, .Trap, []⟩) := by
  have hcut : ∀ j, ¬ (addrAt 0#64 j ≠ 0#64 ∧ known (addrAt 0#64 j)) := by
    intro j hc
    rw [hk _ hc.1] at hc
    exact absurd hc.2 (by simp)
  induction k generalizing i insts with
  | zero =>
    obtain rfl : i = n := h
    simp only [scan, if_neg (hcut _), stores_end hn, sds, List.append_nil]
  | succ k ih =>
    have hx : RISCV.exitOf (sdAt (i + 1)) = .ok none := rfl
    rw [← Nat.add_assoc, scan, if_neg (hcut _), stores_sd hn (by omega)]
    simp only [hx, addrAt_add_four]
    rw [ih (by omega)]
    simp [sds]

theorem stores_builds : Builds (storesReader n) 0#64 (storesCFG n) := by
  have hk : ∀ a, a ≠ 0#64 → BuildState.known ⟨[], {0#64}, [], ∅⟩ a = false :=
    fun a ha => by simp [BuildState.known, ha]
  have hscan : scan (storesReader n) (BuildState.known ⟨[], {0#64}, [], ∅⟩) 0#64 (1 + n + 1 + 1)
      0#64 [] = some (.ok (storesBlock n)) := by
    have hx : RISCV.exitOf (nopAt 0) = .ok none := rfl
    have h4 : (0#64 : BitVec 64) + 4 = addrAt 0#64 (0 + 1) := rfl
    rw [scan, if_neg (fun hc => hc.1 rfl), stores_nop n]
    simp only [hx, h4]
    exact stores_scan hn hk (Nat.zero_add n) 1 _
  refine ⟨1 + n + 1 + 1, ?_⟩
  rw [build, BuildState.initial, buildLoop_block rfl (AList.notMem_empty _) hscan]
  rfl

end Reader

/-- The pipeline goes on to the end once registers are found. -/
theorem printedBody_of_allocate {mem : MemoryReader} {bb : BasicBlock} (h : WellBuilt mem bb)
    {o : ItemOrders} {asg : RegAssignment}
    (ha : allocate (o.order (pipelineBlock bb) (pipelineLive bb)) = .ok asg) :
    ∃ asm body, PrintedBody o bb asm asg body := by
  have hsel := select_lifted bb
  have hlive := analyze_pipeline bb
  have ht : translateBlock o bb = .ok (pipelineBlock bb, asg) := by
    simp only [translateBlock, h.lift_eq]
    change (select (lifted bb) >>= _) = _
    simp only [hsel, hlive, ha, bind, Except.bind]
    rfl
  exact ⟨_, _, _, ht, emitBlock_lines h ht, printBody_lines h ht⟩

theorem stores_insts (n : ℕ) : (storesBlock (n + 1)).insts =
    (nopAt 0 :: sds 1 n) ++ [sdAt (n + 1)] := by
  change nopAt 0 :: sds 1 (n + 1) = _
  rw [sds_snoc, Nat.add_comm 1 n]
  rfl

theorem stores_irSize (n : ℕ) : irSize (storesBlock n).insts = 3 * n + 3 := by
  have h3 : (lowering (nopAt 0)).size = 3 := rfl
  change irSize (nopAt 0 :: sds 1 n) = _
  rw [irSize_cons, sds_size, h3, Nat.add_comm]

/-- Registers are found for the block even if the temporary of its last store is number 0. -/
theorem stores_printed {n : ℕ} (hn : 4 * n + 8 ≤ 2 ^ 32) (o : ItemOrders) :
    ∃ asm asg body, PrintedBody o (storesBlock (n + 1)) asm asg body := by
  have hcfg := (stores_builds (n := n + 1) (by omega)).sound
  have hwell := hcfg.built (storesBlock (n + 1)) (by simp [storesCFG])
  have hcounts : addrCounts (nopAt 0 :: sds 1 n) = n := by
    have h0 : addrCounts (nopAt 0 :: sds 1 n) = 0 + addrCounts (sds 1 n) := rfl
    rw [h0, sds_addrCounts, Nat.zero_add]
  have hbody : irSize (nopAt 0 :: sds 1 n) = 3 * n + 3 := stores_irSize n
  have hinsts := stores_insts n
  have hsize := stores_irSize (n + 1)
  have hsame : pipelineBlock (storesBlock (n + 1)) =
      selectedBlock (lifted (storesBlock (n + 1))) := by
    have hok : SelectOk (lifted (storesBlock (n + 1))) := lifted_selectOk (by omega)
    have hsel := select_eq hok
    rw [select_lifted] at hsel
    exact Except.ok.inj hsel
  have hinstrs : (pipelineBlock (storesBlock (n + 1))).instrs =
      segments 0#64 0 (3 * n + 7) (nopAt 0 :: sds 1 n) ++
        segments 0#64 (3 * n + 3) (4 * n + 7) [sdAt (n + 1)] := by
    rw [hsame]
    change selectedAll 0#64 ((lifted (storesBlock (n + 1))).insts.length + 1)
      (emitted 0 (storesBlock (n + 1)).insts) = _
    have happ := segments_append 0#64 0 (3 * n + 7) (nopAt 0 :: sds 1 n) [sdAt (n + 1)]
    rw [hbody, hcounts, Nat.zero_add, ← hinsts, show 3 * n + 7 + n = 4 * n + 7 by omega] at happ
    rw [lifted_length, hsize, ← happ]
    rfl
  have hlen : (segments 0#64 0 (3 * n + 7) (nopAt 0 :: sds 1 n)).length = 4 * n + 3 := by
    have h3 : (segment 0#64 0 (3 * n + 7) (lowering (nopAt 0))).length = 3 := rfl
    rw [segments_cons, List.length_append, sds_length, h3, Nat.add_comm]
  have hlow : LowPressure (o.order (pipelineBlock (storesBlock (n + 1)))
      (pipelineLive (storesBlock (n + 1)))) := by
    refine split_pressure [valueReg (valueAt (3 * n + 3)), valueReg (valueAt (3 * n + 4)),
      addrReg (4 * n + 7)] rfl hinstrs (by omega) (by omega) (by omega) (by omega) (by simp) ?_ ?_
      (o.ordered _ _)
    · intro i hi v hv
      change i ∈ [_, _, _, _] at hi
      simp only [List.mem_cons, List.not_mem_nil, or_false] at hi ⊢
      rcases hi with rfl | rfl | rfl | rfl
      · change v ∈ [valueReg (valueAt (3 * n + 3))] at hv
        exact Or.inl (List.mem_singleton.mp hv)
      · change v ∈ [valueReg (valueAt (3 * n + 4))] at hv
        exact Or.inr (Or.inl (List.mem_singleton.mp hv))
      · change v ∈ [addrReg (4 * n + 7), valueReg (valueAt (3 * n + 3))] at hv
        rcases List.mem_cons.mp hv with rfl | hv
        · exact Or.inr (Or.inr rfl)
        · exact Or.inl (List.mem_singleton.mp hv)
      · change v ∈ [valueReg (valueAt (3 * n + 4))] ++
          ((if addrReg (4 * n + 7) = 0 then [] else [addrReg (4 * n + 7)]) ++ []) at hv
        rw [List.append_nil, List.singleton_append, List.mem_cons] at hv
        rcases hv with rfl | hv
        · exact Or.inr (Or.inl rfl)
        · split_ifs at hv
          · cases hv
          · exact Or.inr (Or.inr (List.mem_singleton.mp hv))
    · intro v hv
      cases hv
  obtain ⟨asg, ha⟩ := (o.ordered _ _).allocate_ok hlow
  obtain ⟨asm, body, hp⟩ := printedBody_of_allocate hwell ha
  exact ⟨asm, asg, body, hp⟩

/-- The last of the stores has a temporary with number 0 when the numbers wrap around there. -/
theorem stores_tempZero {n : ℕ} (hn : 4 * n + 8 = 2 ^ 32) : TempZero (storesBlock (n + 1)) 0 := by
  have hbody : irSize (nopAt 0 :: sds 1 n) = 3 * n + 3 := stores_irSize n
  have hcounts : addrCounts (nopAt 0 :: sds 1 n) = n := by
    have h0 : addrCounts (nopAt 0 :: sds 1 n) = 0 + addrCounts (sds 1 n) := rfl
    rw [h0, sds_addrCounts, Nat.zero_add]
  have hlen : (lifted (storesBlock (n + 1))).insts.length = 3 * n + 6 := by
    rw [lifted_length, stores_irSize]
    omega
  have hemit : (lifted (storesBlock (n + 1))).insts =
      (emitted 0 (nopAt 0 :: sds 1 n) ++ [⟨some (valueAt (3 * n + 3)), .ReadReg 1⟩,
        ⟨some (valueAt (3 * n + 4)), .ReadReg 1⟩]) ++
        ⟨none, .Store (valueAt (3 * n + 4)) (valueAt (3 * n + 3)) 0 .I64⟩ :: [] := by
    change emitted 0 (storesBlock (n + 1)).insts = _
    rw [stores_insts, emitted_append, emitted_length, hbody, Nat.zero_add, List.append_assoc]
    rfl
  refine ⟨_, _, [], _, _, _, hemit, rfl, ?_⟩
  have htemps : tempCount ([⟨some (valueAt (3 * n + 3)), .ReadReg 1⟩,
      ⟨some (valueAt (3 * n + 4)), .ReadReg 1⟩] : List IR.Instr) = 0 := rfl
  rw [tempCount_append, tempCount_emitted, hcounts, htemps, hlen, addrReg]
  have hsum : 3 * n + 6 + 1 + (n + 0) + 1 = 2 ^ 32 := by omega
  rw [hsum, Nat.mod_self]

theorem not_regOffset_zero : ¬ RegOffset 0 := by
  rintro ⟨r, h1, h2, h⟩
  have hnat := congrArg BitVec.toNat h
  rw [guestRegOffsetBytes, BitVec.toNat_ofNat, Nat.mod_eq_of_lt (by omega)] at hnat
  simp at hnat
  omega

/-- One store: everything is kept. -/
theorem store_reserved : (∃ asm asg body, PrintedBody default (storesBlock 1) asm asg body) ∧
    RespectsReserved default (storesCFG 1) :=
  ⟨stores_printed (n := 0) (by decide) default,
    reserved_where_apart (stores_builds (by decide)) default⟩

/-- With 2^30 - 1 stores the last one goes to the word of `x0`. -/
theorem last_store_not_reserved : ¬ ∀ mem entry cfg o, Builds mem entry cfg →
    ∀ bb ∈ cfg.blocks, ∀ asm asg body, PrintedBody o bb asm asg body →
      Reserved bb asg body := by
  intro h
  obtain ⟨n, hn⟩ : ∃ n, 4 * n + 8 = 2 ^ 32 := ⟨2 ^ 30 - 2, by decide⟩
  obtain ⟨asm, asg, body, hp⟩ := stores_printed hn.le default
  have hbuilds := stores_builds (n := n + 1) (by omega)
  have hbb : storesBlock (n + 1) ∈ (storesCFG (n + 1)).blocks := by simp [storesCFG]
  have hres := h _ _ _ _ hbuilds _ hbb asm asg body hp
  have htemps := (hp.reserved_iff (hbuilds.sound.built _ hbb)).mp hres
  exact not_regOffset_zero (htemps 0 (stores_tempZero hn))

end Stored

end Riscy.AArch64
