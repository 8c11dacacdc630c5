import Riscy.RISCVBlockRun
import Riscy.AArch64Lines

/-! The code selected for a lifted block, guest instruction by guest instruction. The
registers of one instruction's code are its values and its address temporary, so the code
of different instructions has no register in common. -/
namespace Riscy.AArch64
open IR (TypeKind BinOpKind ICmpCond Payload)
open RISCV

theorem selectedAll_append (start : BitVec 64) (k : ℕ) (is js : List IR.Instr) :
    selectedAll start k (is ++ js) =
      selectedAll start k is ++ selectedAll start (k + tempCount is) js := by
  induction is generalizing k with
  | nil => rfl
  | cons i is ih =>
    have hk : k + tempCount (i :: is) = k + temps i + tempCount is := by
      simp [tempCount, Nat.add_assoc]
    rw [List.cons_append, selectedAll, selectedAll, ih, List.append_assoc, hk]

section Registers

theorem vregs_regs (op : Op) (ids : List ℕ) (rest : List Operand) {v : VReg}
    (hv : v ∈ (⟨op, ids.map (fun id => .regV (valueReg id)) ++ rest⟩ : Instr).vregs) :
    (∃ id ∈ ids, v = valueReg id) ∨ ∃ o ∈ rest, v ∈ o.vregs := by
  unfold Instr.vregs at hv
  rw [List.flatMap_append, List.mem_append, List.flatMap_map] at hv
  rcases hv with hv | hv
  · obtain ⟨id, hid, hm⟩ := List.mem_flatMap.mp hv
    exact Or.inl ⟨id, hid, List.mem_singleton.mp hm⟩
  · exact Or.inr (List.mem_flatMap.mp hv)

theorem mem_vregs_mem {v base : VReg} {off : BitVec 32}
    (h : v ∈ (Operand.mem base off).vregs) : v = base := by
  simp only [Operand.vregs] at h
  split_ifs at h
  · cases h
  · exact List.mem_singleton.mp h

/-- Registers of selected code are registers of its values, or the temporary. -/
theorem selected_vregs {start : BitVec 64} {k : ℕ} {i : IR.Instr} {c : Instr} {v : VReg}
    (hc : c ∈ selected start k i) (hv : v ∈ c.vregs) :
    (∃ id ∈ valueIds i, v = valueReg id) ∨ temps i = 1 ∧ v = addrReg k := by
  have hregs : ∀ op (ids : List ℕ), c ∈ [⟨op, ids.map fun id => .regV (valueReg id)⟩] →
      (∀ id ∈ ids, id ∈ valueIds i) → ∃ id ∈ valueIds i, v = valueReg id := by
    intro op ids hm hids
    rw [List.mem_singleton.mp hm, ← List.append_nil (ids.map _)] at hv
    rcases vregs_regs op ids [] hv with ⟨id, hid, he⟩ | ⟨o, ho, -⟩
    · exact ⟨id, hids id hid, he⟩
    · cases ho
  -- Loads and stores: the address in front of the access through it.
  have haccess : ∀ (op : Op) (x b : ℕ) off, x ∈ valueIds i → b ∈ valueIds i → temps i = 1 →
      c ∈ [addrCode k b, ⟨op, [.regV (valueReg x), .mem (addrReg k) off]⟩] →
      (∃ id ∈ valueIds i, v = valueReg id) ∨ temps i = 1 ∧ v = addrReg k := by
    intro op x b off hx hb ht hm
    rcases List.mem_cons.mp hm with rfl | hm
    · simp [addrCode, Instr.vregs, Operand.vregs] at hv
      rcases hv with hv | hv
      · exact Or.inr ⟨ht, hv⟩
      · exact Or.inl ⟨b, hb, hv⟩
    · rw [List.mem_singleton.mp hm] at hv
      rcases vregs_regs op [x] [.mem (addrReg k) off] hv with ⟨id, hid, he⟩ | ⟨o, ho, hvo⟩
      · rw [List.mem_singleton.mp hid] at he
        exact Or.inl ⟨x, hx, he⟩
      · rw [List.mem_singleton.mp ho] at hvo
        exact Or.inr ⟨ht, mem_vregs_mem hvo⟩
  have hguest : ∀ op (x : ℕ) off, x ∈ valueIds i →
      c ∈ [(⟨op, [.regV (valueReg x), .mem 0 off]⟩ : Instr)] →
      ∃ id ∈ valueIds i, v = valueReg id := by
    intro op x off hx hm
    rw [List.mem_singleton.mp hm] at hv
    simp [Instr.vregs, Operand.vregs] at hv
    exact ⟨x, hx, hv⟩
  have hread : ∀ x ∈ payloadIds i.payload, x ∈ valueIds i :=
    fun x hx => List.mem_append_right _ hx
  have hdest : ∀ d, i.dest = some d → d ∈ valueIds i := fun d hd => by simp [valueIds, hd]
  obtain ⟨dest, payload⟩ := i
  cases payload with
  | Const ty x =>
    cases dest with
    | none => cases hc
    | some d =>
      rw [constCode_vregs hc] at hv
      exact Or.inl ⟨d, hdest d rfl, List.mem_singleton.mp hv⟩
  | ReadReg r =>
    cases dest with
    | none => cases hc
    | some d => exact Or.inl (hguest _ d _ (hdest d rfl) hc)
  | WriteReg r x => exact Or.inl (hguest _ x _ (hread x (by simp [payloadIds])) hc)
  | BinOp op l r ty =>
    cases dest with
    | none => cases hc
    | some d => exact Or.inl (hregs _ [d, l, r] hc (by simp [valueIds, payloadIds]))
  | ICmp o l r =>
    have hpair : ∀ id ∈ [l, r], id ∈ valueIds ⟨dest, .ICmp o l r⟩ := hread
    cases dest with
    | none => exact Or.inl (hregs _ [l, r] hc hpair)
    | some d =>
      rcases List.mem_cons.mp hc with hc | hc
      · exact Or.inl (hregs .Cmp [l, r] (List.mem_singleton.mpr hc) hpair)
      · exact Or.inl (hregs _ [d] hc (by simp [valueIds]))
  | ZExt src dst | SExt src dst | Trunc src dst =>
    cases dest with
    | none => cases hc
    | some d => exact Or.inl (hregs _ [d, src] hc (by simp [valueIds, payloadIds]))
  | Load b off ty =>
    cases dest with
    | none => cases hc
    | some d =>
      exact haccess _ d b _ (hdest d rfl) (hread b (by simp [payloadIds])) rfl hc
  | Store x b off ty =>
    exact haccess _ x b _ (hread x (by simp [payloadIds])) (hread b (by simp [payloadIds])) rfl hc
  | GetPC =>
    cases dest with
    | none => cases hc
    | some d =>
      rw [List.mem_singleton.mp hc] at hv
      simp [Instr.vregs, Operand.vregs] at hv
      exact Or.inl ⟨d, hdest d rfl, hv⟩

/-- Registers numbered from above `a` to `b`, or from above `k` to `k'`. -/
def Between (a b k k' : ℕ) (v : ℕ) : Prop := a < v ∧ v ≤ b ∨ k < v ∧ v ≤ k'

theorem selectedAll_vregs {start : BitVec 64} {a b k : ℕ} {is : List IR.Instr}
    (hids : ∀ i ∈ is, ∀ id ∈ valueIds i, a ≤ id ∧ id < b)
    (hk : 0 < tempCount is → k + tempCount is < 2 ^ 32)
    {c : Instr} {v : ℕ} (hc : c ∈ selectedAll start k is) (hv : v ∈ c.vregs) :
    Between a b k (k + tempCount is) v := by
  induction is generalizing k with
  | nil => cases hc
  | cons i is ih =>
    have hcount : tempCount (i :: is) = temps i + tempCount is := by simp [tempCount]
    rw [hcount] at hk ⊢
    rcases List.mem_append.mp hc with hc | hc
    · rcases selected_vregs hc hv with ⟨id, hid, he⟩ | ⟨ht, he⟩
      · have hb := hids i (by simp) id hid
        have hv' : v = id + 1 := he
        exact Or.inl ⟨by omega, by omega⟩
      · have hv' : v = (k + 1) % 2 ^ 32 := he
        exact Or.inr ⟨by omega, by omega⟩
    · rcases ih (fun j hj => hids j (by simp [hj])) (by omega) hc with h | ⟨h1, h2⟩
      · exact Or.inl h
      · exact Or.inr ⟨by omega, by omega⟩

end Registers

section Code

/-- Every operand is in `D` or the destination of an earlier instruction. -/
def Ssa (D : List ℕ) : List IR.Instr → Prop
  | [] => True
  | i :: is => (∀ id ∈ payloadIds i.payload, id ∈ D) ∧ Ssa (D ++ i.dest.toList) is

theorem code_ssa (D : List ℕ) (n : ℕ) (l : Lowering) : Ssa D (l.code n) := by
  have hwrite : ∀ (D : List ℕ) (rd v : ℕ), v ∈ D → Ssa D (unnumbered (writeBack rd v)) := by
    intro D rd v hv
    unfold writeBack
    split_ifs <;> simp [Ssa, unnumbered, payloadIds, hv]
  cases l with
  | alu k rd rs1 src =>
    cases src <;> simp [Lowering.code, Lowering.values, Lowering.writes, numbered, Ssa,
      payloadIds, Source.payload, hwrite]
  | addWord rd rs1 src =>
    cases src <;> simp [Lowering.code, Lowering.values, Lowering.writes, numbered, Ssa,
      payloadIds, Source.payload, hwrite]
  | loadWord signed rd base off =>
    cases signed <;> simp [Lowering.code, Lowering.values, Lowering.writes, numbered, Ssa,
      payloadIds, hwrite]
  | loadDouble rd base off =>
    simp [Lowering.code, Lowering.values, Lowering.writes, numbered, Ssa, payloadIds, hwrite]
  | store ty base rs off =>
    simp [Lowering.code, Lowering.values, Lowering.writes, numbered, unnumbered, Ssa, payloadIds]
  | compare c rs1 rs2 =>
    simp [Lowering.code, Lowering.values, Lowering.writes, numbered, unnumbered, Ssa, payloadIds]
  | auipc rd i =>
    simp [Lowering.code, Lowering.values, Lowering.writes, numbered, Ssa, payloadIds, hwrite]
  | link rd ra =>
    simp [Lowering.code, Lowering.values, Lowering.writes, numbered, Ssa, payloadIds, hwrite]
  | jumpReg rd base off ra =>
    simp [Lowering.code, Lowering.values, Lowering.writes, numbered, Ssa, payloadIds, hwrite]
  | nothing => trivial

theorem numbered_payloads (n : ℕ) (ps : List Payload) :
    (numbered n ps).map IR.Instr.payload = ps := by
  induction ps generalizing n with
  | nil => rfl
  | cons p ps ih => rw [numbered, List.map_cons, ih]

theorem numbered_dest {n : ℕ} {ps : List Payload} {i : IR.Instr} (hi : i ∈ numbered n ps) :
    ∃ j < ps.length, i.dest = some (valueAt (n + j)) := by
  induction ps generalizing n with
  | nil => cases hi
  | cons p ps ih =>
    rcases List.mem_cons.mp hi with rfl | hi
    · exact ⟨0, by simp, rfl⟩
    · obtain ⟨j, hj, hd⟩ := ih hi
      exact ⟨j + 1, by simpa using hj, by rw [hd, Nat.add_assoc, Nat.add_comm 1]⟩

theorem code_dest {n : ℕ} {l : Lowering} {i : IR.Instr} (hi : i ∈ l.code n) {id : ℕ}
    (hd : i.dest = some id) : ∃ j < (l.values n).length, id = valueAt (n + j) := by
  rcases List.mem_append.mp hi with hi | hi
  · obtain ⟨j, hj, hd'⟩ := numbered_dest hi
    exact ⟨j, hj, Option.some.inj (hd.symm.trans hd')⟩
  · obtain ⟨p, -, rfl⟩ := List.mem_map.mp hi
    cases hd

theorem Ssa.ids {D : List ℕ} {is : List IR.Instr} (h : Ssa D is) {i : IR.Instr} (hi : i ∈ is)
    {id : ℕ} (hid : id ∈ payloadIds i.payload) : id ∈ D ∨ ∃ j ∈ is, j.dest = some id := by
  induction is generalizing D with
  | nil => cases hi
  | cons j is ih =>
    rcases List.mem_cons.mp hi with rfl | hi
    · exact Or.inl (h.1 id hid)
    · rcases ih h.2 hi with hm | ⟨j', hj', hd⟩
      · rcases List.mem_append.mp hm with hm | hm
        · exact Or.inl hm
        · exact Or.inr ⟨j, by simp, by simpa using hm⟩
      · exact Or.inr ⟨j', List.mem_cons_of_mem _ hj', hd⟩

/-- Value numbers of an instruction's code are those of its positions. -/
theorem code_ids_at {n : ℕ} {l : Lowering} {i : IR.Instr} (hi : i ∈ l.code n) {id : ℕ}
    (hid : id ∈ valueIds i) : ∃ j < l.size, id = valueAt (n + j) := by
  have hdest : ∃ i' ∈ l.code n, i'.dest = some id := by
    rcases List.mem_append.mp hid with hd | hp
    · exact ⟨i, hi, by simpa using hd⟩
    · rcases (code_ssa [] n l).ids hi hp with hm | hd
      · cases hm
      · exact hd
  obtain ⟨i', hi', hd⟩ := hdest
  obtain ⟨j, hj, rfl⟩ := code_dest hi' hd
  refine ⟨j, ?_, rfl⟩
  rw [← code_length n l, Lowering.code, List.length_append, numbered_length]
  omega

theorem code_ids {n : ℕ} {l : Lowering} (hn : n + l.size < 2 ^ 32) {i : IR.Instr}
    (hi : i ∈ l.code n) {id : ℕ} (hid : id ∈ valueIds i) : n ≤ id ∧ id < n + l.size := by
  obtain ⟨j, hj, rfl⟩ := code_ids_at hi hid
  have hval : valueAt (n + j) = n + j := by
    have hlt : n + j < 2 ^ 32 := by omega
    exact Nat.mod_eq_of_lt hlt
  rw [hval]
  omega

theorem emitted_ids_lt {n : ℕ} {is : List DecodedInst} {i : IR.Instr} (hi : i ∈ emitted n is)
    {id : ℕ} (hid : id ∈ valueIds i) : id < n + irSize is := by
  induction is generalizing n with
  | nil => cases hi
  | cons inst is ih =>
    rw [irSize_cons]
    rw [emitted_cons] at hi
    rcases List.mem_append.mp hi with hi | hi
    · obtain ⟨j, hj, rfl⟩ := code_ids_at hi hid
      have hle : valueAt (n + j) ≤ n + j := Nat.mod_le _ _
      exact lt_of_le_of_lt hle (by omega)
    · have hb := ih hi
      omega

theorem emitted_ids {n : ℕ} {is : List DecodedInst} (hn : n + irSize is < 2 ^ 32)
    {i : IR.Instr} (hi : i ∈ emitted n is) {id : ℕ} (hid : id ∈ valueIds i) :
    n ≤ id ∧ id < n + irSize is := by
  induction is generalizing n with
  | nil => cases hi
  | cons inst is ih =>
    rw [irSize_cons] at hn ⊢
    rw [emitted_cons] at hi
    rcases List.mem_append.mp hi with hi | hi
    · have hb := code_ids (by omega) hi hid
      omega
    · have hb := ih (by omega) hi
      omega

end Code

section Segment

/-- Address temporaries of an instruction's code. -/
def addrCount : Lowering → ℕ
  | .loadWord .. | .loadDouble .. | .store .. => 1
  | _ => 0

theorem tempCount_code (n : ℕ) (l : Lowering) : tempCount (l.code n) = addrCount l := by
  have hwrite : ∀ rd v, ((unnumbered (writeBack rd v)).map temps).sum = 0 := by
    intro rd v
    unfold writeBack
    split_ifs <;> simp [unnumbered, temps]
  have hsum : tempCount (l.code n) =
      ((numbered n (l.values n)).map temps).sum + ((unnumbered (l.writes n)).map temps).sum := by
    rw [tempCount, Lowering.code, List.map_append, List.sum_append]
  rw [hsum]
  cases l with
  | alu k rd rs1 src => cases src <;> exact congrArg (0 + ·) (hwrite ..)
  | addWord rd rs1 src => cases src <;> exact congrArg (0 + ·) (hwrite ..)
  | loadWord signed rd base off => cases signed <;> exact congrArg (1 + ·) (hwrite ..)
  | loadDouble rd base off => exact congrArg (1 + ·) (hwrite ..)
  | store ty base rs off => rfl
  | compare c rs1 rs2 => rfl
  | auipc rd i => exact congrArg (0 + ·) (hwrite ..)
  | link rd ra => exact congrArg (0 + ·) (hwrite ..)
  | jumpReg rd base off ra => exact congrArg (0 + ·) (hwrite ..)
  | nothing => rfl

/-- No instruction has more than seven registers. -/
theorem size_add_addrCount_le (l : Lowering) : l.size + addrCount l ≤ 7 := by
  cases l <;> simp only [Lowering.size, Lowering.values, Lowering.writes, writeBack, addrCount] <;>
    try split_ifs
  all_goals simp

/-- The code of one guest instruction, whose first value has number `n`. -/
def segment (start : BitVec 64) (n k : ℕ) (l : Lowering) : List Instr :=
  selectedAll start k (l.code n)

/-- The code of consecutive guest instructions. -/
def segments (start : BitVec 64) (n k : ℕ) (is : List DecodedInst) : List Instr :=
  selectedAll start k (emitted n is)

def addrCounts (is : List DecodedInst) : ℕ := (is.map fun i => addrCount (lowering i)).sum

theorem segments_cons (start : BitVec 64) (n k : ℕ) (i : DecodedInst) (is : List DecodedInst) :
    segments start n k (i :: is) = segment start n k (lowering i) ++
      segments start (n + (lowering i).size) (k + addrCount (lowering i)) is := by
  rw [segments, emitted_cons, selectedAll_append, tempCount_code]
  rfl

theorem tempCount_emitted (n : ℕ) (is : List DecodedInst) :
    tempCount (emitted n is) = addrCounts is := by
  induction is generalizing n with
  | nil => rfl
  | cons i is ih =>
    rw [emitted_cons, tempCount, List.map_append, List.sum_append, addrCounts, List.map_cons,
      List.sum_cons]
    exact congrArg₂ (· + ·) (tempCount_code n _) (ih _)

theorem segment_vregs {start : BitVec 64} {n k : ℕ} {l : Lowering} (hn : n + l.size < 2 ^ 32)
    (hk : 0 < addrCount l → k + addrCount l < 2 ^ 32) {c : Instr} (hc : c ∈ segment start n k l)
    {v : ℕ} (hv : v ∈ c.vregs) : Between n (n + l.size) k (k + addrCount l) v := by
  have h := selectedAll_vregs (a := n) (b := n + l.size)
    (fun i hi id hid => code_ids hn hi hid) (by rw [tempCount_code]; exact hk) hc hv
  rwa [tempCount_code] at h

theorem segments_vregs {start : BitVec 64} {n k : ℕ} {is : List DecodedInst}
    (hn : n + irSize is < 2 ^ 32) (hk : 0 < addrCounts is → k + addrCounts is < 2 ^ 32)
    {c : Instr} (hc : c ∈ segments start n k is) {v : ℕ} (hv : v ∈ c.vregs) :
    Between n (n + irSize is) k (k + addrCounts is) v := by
  have h := selectedAll_vregs (a := n) (b := n + irSize is)
    (fun i hi id hid => emitted_ids hn hi hid) (by rw [tempCount_emitted]; exact hk) hc hv
  rwa [tempCount_emitted] at h

/-- `v` is mentioned at position `p` of code that starts at position `pos`. -/
def At (code : List Instr) (pos v p : ℕ) : Prop :=
  ∃ j i, code[j]? = some i ∧ v ∈ i.vregs ∧ p = pos + j

theorem At.append {A B : List Instr} {pos v p : ℕ} (h : At (A ++ B) pos v p) :
    At A pos v p ∧ p < pos + A.length ∨ At B (pos + A.length) v p := by
  obtain ⟨j, i, hj, hv, rfl⟩ := h
  rcases Nat.lt_or_ge j A.length with hlt | hge
  · rw [List.getElem?_append_left hlt] at hj
    exact Or.inl ⟨⟨j, i, hj, hv, rfl⟩, by omega⟩
  · rw [List.getElem?_append_right hge] at hj
    exact Or.inr ⟨j - A.length, i, hj, hv, by omega⟩

theorem At.lt {A : List Instr} {pos v p : ℕ} (h : At A pos v p) : pos ≤ p ∧ p < pos + A.length := by
  obtain ⟨j, i, hj, -, rfl⟩ := h
  have hlt := (List.getElem?_eq_some_iff.mp hj).1
  omega

theorem At.mem {A : List Instr} {pos v p : ℕ} (h : At A pos v p) : ∃ i ∈ A, v ∈ i.vregs := by
  obtain ⟨j, i, hj, hv, -⟩ := h
  exact ⟨i, List.mem_of_getElem? hj, hv⟩

/-- At any position at most seven of the registers are open whose ranges start and end
where they occur. -/
theorem open_local {start : BitVec 64} {is : List DecodedInst} {n k pos N c : ℕ}
    {first last : ℕ → ℕ} {Q : ℕ → Prop} (hn : n + irSize is ≤ N) (hN : N < k) (hN' : N < 2 ^ 32)
    (hk : 0 < addrCounts is → k + addrCounts is < 2 ^ 32)
    (hocc : ∀ v, Q v → At (segments start n k is) pos v (first v) ∧
      At (segments start n k is) pos v (last v)) :
    ∃ regs : List ℕ, regs.length ≤ 7 ∧ ∀ v, Q v → first v ≤ c → c < last v → v ∈ regs := by
  induction is generalizing n k pos Q with
  | nil =>
    refine ⟨[], by simp, fun v hv => ?_⟩
    obtain ⟨⟨j, i, hi, -⟩, -⟩ := hocc v hv
    cases hi
  | cons inst is ih =>
    obtain ⟨l, hl⟩ : ∃ l, l = lowering inst := ⟨_, rfl⟩
    have hsum : addrCounts (inst :: is) = addrCount l + addrCounts is := by rw [hl]; rfl
    rw [irSize_cons, ← hl] at hn
    rw [hsum] at hk
    rw [segments_cons, ← hl] at hocc
    obtain ⟨A, hA⟩ : ∃ A, A = segment start n k l := ⟨_, rfl⟩
    obtain ⟨B, hB⟩ : ∃ B, B = segments start (n + l.size) (k + addrCount l) is := ⟨_, rfl⟩
    rw [← hA, ← hB] at hocc
    have hbA : ∀ {v p}, At A pos v p → Between n (n + l.size) k (k + addrCount l) v := by
      intro v p h
      obtain ⟨i, hi, hv⟩ := h.mem
      exact segment_vregs (by omega) (by omega) (hA ▸ hi) hv
    have hbB : ∀ {v p}, At B (pos + A.length) v p → Between (n + l.size)
        (n + l.size + irSize is) (k + addrCount l) (k + addrCount l + addrCounts is) v := by
      intro v p h
      obtain ⟨i, hi, hv⟩ := h.mem
      exact segments_vregs (by omega) (by omega) (hB ▸ hi) hv
    -- The numbers keep the registers of `A` and of `B` apart.
    have hdis : ∀ {v p q}, At A pos v p → At B (pos + A.length) v q → False := by
      intro v p q hvA hvB
      have h1 := hbA hvA
      have h2 := hbB hvB
      simp only [Between] at h1 h2
      omega
    rcases Nat.lt_or_ge c (pos + A.length) with hc | hc
    · refine ⟨List.range' (n + 1) l.size ++ List.range' (k + 1) (addrCount l), ?_, ?_⟩
      · rw [List.length_append, List.length_range', List.length_range']
        exact size_add_addrCount_le l
      · intro v hv hfirst hlast
        rcases (hocc v hv).1.append with ⟨hvA, -⟩ | hvB
        · have hb := hbA hvA
          simp only [Between] at hb
          rw [List.mem_append, List.mem_range'_1, List.mem_range'_1]
          omega
        · have hge := hvB.lt.1
          omega
    · have hoccB : ∀ v, (Q v ∧ At B (pos + A.length) v (last v)) →
          At B (pos + A.length) v (first v) ∧ At B (pos + A.length) v (last v) := by
        rintro v ⟨hv, hlast⟩
        refine ⟨?_, hlast⟩
        rcases (hocc v hv).1.append with ⟨hvA, -⟩ | hvB
        · exact (hdis hvA hlast).elim
        · exact hvB
      rw [hB] at hoccB
      obtain ⟨regs, hlen, hregs⟩ := ih (by omega) (by omega) (by omega) hoccB
      refine ⟨regs, hlen, fun v hv hfirst hlast => ?_⟩
      rcases (hocc v hv).2.append with ⟨-, hlt⟩ | hvB
      · omega
      · exact hregs v ⟨hv, hB ▸ hvB⟩ hfirst hlast

end Segment

end Riscy.AArch64
