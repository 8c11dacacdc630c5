import Riscy.AArch64SelectCorrect

/-! The vector of `ISel::select` from values to virtual registers. Slot `i` is empty or holds
`i + 1` as a 32-bit number, for values as for the address temporaries behind them. So numbers
meet only where they wrap around. -/
namespace Riscy.AArch64
open IR (ValueId Payload)

/-- Values that `vreg_of` is asked for when an instruction is selected. -/
def numberedIds (i : IR.Instr) : List ValueId :=
  match i.payload, i.dest with
  | .WriteReg _ v, _ => [v]
  | .Store v b _ _, _ => [b, v]
  | .ICmp _ l r, dest => [l, r] ++ dest.toList
  | p, some d => d :: payloadIds p
  | _, none => []

/-- All values of a block that get a register. -/
def numberedValues (bb : IR.Block) : List ValueId :=
  bb.insts.flatMap numberedIds ++ termIds bb.term

/-- The vector after the first `k` instructions of a block. -/
def vmapAfter (bb : IR.Block) (k : ℕ) : Except Fault (List VReg) := do
  let (_, s) ← ((bb.insts.take k).forM (selectInst bb.start)).run
    ⟨List.replicate (bb.insts.length + 1) 0, []⟩
  return s.vmap

/-- The vector when the block has been selected. -/
def vmapOf (bb : IR.Block) : Except Fault (List VReg) := do
  let (_, s) ← (selectAll bb).run ⟨List.replicate (bb.insts.length + 1) 0, []⟩
  return s.vmap

/-- The slot holds the register of its position. -/
def Filled (vmap : List VReg) (i : ℕ) : Prop := vmap[i]? = some ((i + 1) % 2 ^ 32)

/-- From every state whose map has size `k`, `x` fills the slots of `ids` and those that it
adds up to size `k'`, and keeps what is filled. -/
def Fills {α : Type} (x : SelM α) (k : ℕ) (ids : List ValueId) (k' : ℕ) : Prop :=
  ∀ s, VmapOk s.vmap → s.vmap.length = k → ∃ a s', x.run s = .ok (a, s') ∧ VmapOk s'.vmap ∧
    s'.vmap.length = k' ∧
      ∀ i, Filled s.vmap i ∨ i ∈ ids ∨ k ≤ i ∧ i < k' → Filled s'.vmap i

section Fills
variable {α β : Type} {k k' k'' : ℕ} {ids ids' : List ValueId}

theorem Fills.pure (a : α) (k : ℕ) : Fills (pure a) k [] k := by
  intro s hok hlen
  refine ⟨a, s, rfl, hok, hlen, fun i hi => ?_⟩
  rcases hi with hi | hi | hi
  · exact hi
  · cases hi
  · omega

theorem Fills.bind {x : SelM α} {f : α → SelM β} (hx : Fills x k ids k')
    (hf : ∀ a, Fills (f a) k' ids' k'') : Fills (x >>= f) k (ids ++ ids') k'' := by
  intro s hok hlen
  obtain ⟨a, s₁, hr₁, hok₁, hlen₁, hi₁⟩ := hx s hok hlen
  obtain ⟨b, s₂, hr₂, hok₂, hlen₂, hi₂⟩ := hf a s₁ hok₁ hlen₁
  refine ⟨b, s₂, ?_, hok₂, hlen₂, fun i hi => hi₂ i ?_⟩
  · rw [StateT.run_bind, hr₁]
    exact hr₂
  · rw [List.mem_append] at hi
    rcases hi with hi | (hi | hi) | hi
    · exact Or.inl (hi₁ i (Or.inl hi))
    · exact Or.inl (hi₁ i (Or.inr (Or.inl hi)))
    · exact Or.inr (Or.inl hi)
    · rcases Nat.lt_or_ge i k' with hlt | hge
      · exact Or.inl (hi₁ i (Or.inr (Or.inr ⟨hi.1, hlt⟩)))
      · exact Or.inr (Or.inr ⟨hge, hi.2⟩)

theorem Fills.push (i : Instr) (k : ℕ) : Fills (pushBack i) k [] k := by
  intro s hok hlen
  refine ⟨(), { s with instrs := s.instrs ++ [i] }, rfl, hok, hlen, fun j hj => ?_⟩
  rcases hj with hj | hj | hj
  · exact hj
  · cases hj
  · omega

theorem Fills.pushAll (is : List Instr) (k : ℕ) : Fills (is.forM pushBack) k [] k := by
  induction is with
  | nil => exact Fills.pure () k
  | cons i is ih => exact (Fills.push i k).bind fun _ => ih

theorem Fills.vregOf {id : ℕ} (hk : id < k) : Fills (vregOf id) k [id] k := by
  intro s hok hlen
  obtain ⟨s', hr, hok', hlen', -⟩ := Emits.vregOf hk s hok hlen
  refine ⟨_, s', hr, hok', hlen', fun i hi => ?_⟩
  have hlt : id < s.vmap.length := by omega
  rw [vregOf_run hlt] at hr
  have hset : s'.vmap = s.vmap.set id ((id + 1) % 2 ^ 32) := by
    split_ifs at hr with h0
    · have hs : { s with vmap := s.vmap.set id ((id + 1) % 2 ^ 32) } = s' :=
        congrArg Prod.snd (Except.ok.inj hr)
      rw [← hs]
    · have hself : s.vmap[id] = (id + 1) % 2 ^ 32 :=
        (hok id _ (List.getElem?_eq_getElem hlt)).resolve_left h0
      have hs : s = s' := congrArg Prod.snd (Except.ok.inj hr)
      rw [← hs, ← hself, List.set_getElem_self]
  unfold Filled
  rw [hset]
  by_cases he : i = id
  · rw [he, List.getElem?_set_self hlt]
  · rw [List.getElem?_set_ne (Ne.symm he)]
    rcases hi with hi | hi | hi
    · exact hi
    · exact absurd (List.mem_singleton.mp hi) he
    · omega

theorem Fills.newAddr (k : ℕ) : Fills newAddr k [] (k + 1) := by
  intro s hok hlen
  obtain ⟨s', hr, hok', hlen', -⟩ := Emits.newAddr k s hok hlen
  refine ⟨_, s', hr, hok', hlen', fun i hi => ?_⟩
  have hvmap : s'.vmap = s.vmap ++ [(s.vmap.length + 1) % 2 ^ 32] := by
    have hs : { s with vmap := s.vmap ++ [(s.vmap.length + 1) % 2 ^ 32] } = s' :=
      congrArg Prod.snd (Except.ok.inj hr)
    rw [← hs]
  unfold Filled
  rw [hvmap]
  rcases hi with hi | hi | hi
  · rwa [List.getElem?_append_left (List.getElem?_eq_some_iff.mp hi).1]
  · cases hi
  · obtain rfl : i = s.vmap.length := by omega
    rw [List.getElem?_append_right le_rfl, Nat.sub_self]
    rfl

theorem selectInst_fills {start : BitVec 64} {i : IR.Instr} (h : ∀ v ∈ valueIds i, v < k) :
    Fills (selectInst start i) k (numberedIds i) (k + temps i) := by
  obtain ⟨dest, payload⟩ := i
  have hdest : ∀ d, dest = some d → Fills (vregOf d) k [d] k :=
    fun d hd => Fills.vregOf (h d (by simp [valueIds, hd]))
  have hread : ∀ v ∈ payloadIds payload, ∀ n, k ≤ n → Fills (vregOf v) n [v] n :=
    fun v hv n hn => Fills.vregOf ((h v (List.mem_append_right _ hv)).trans_le hn)
  cases payload with
  | Const ty v =>
    cases dest with
    | none => exact Fills.pure () k
    | some d => exact (hdest d rfl).bind fun _ => Fills.pushAll _ k
  | ReadReg r =>
    cases dest with
    | none => exact Fills.pure () k
    | some d => exact (hdest d rfl).bind fun _ => Fills.push _ k
  | WriteReg r v =>
    exact (hread v (by simp [payloadIds]) k le_rfl).bind fun _ => Fills.push _ k
  | BinOp op l r ty =>
    have hl := hread l (by simp [payloadIds]) k le_rfl
    have hr := hread r (by simp [payloadIds]) k le_rfl
    cases dest with
    | none => exact Fills.pure () k
    | some d =>
      exact (hdest d rfl).bind fun _ => hl.bind fun _ => hr.bind fun _ => Fills.push _ k
  | ICmp c l r =>
    have hl := hread l (by simp [payloadIds]) k le_rfl
    have hr := hread r (by simp [payloadIds]) k le_rfl
    cases dest with
    | none =>
      exact hl.bind fun _ => hr.bind fun _ => (Fills.push _ k).bind fun _ => Fills.pure () k
    | some d =>
      exact hl.bind fun _ => hr.bind fun _ => (Fills.push _ k).bind fun _ =>
        (hdest d rfl).bind fun _ => Fills.push _ k
  | ZExt src dst | SExt src dst | Trunc src dst =>
    have hsrc := hread src (by simp [payloadIds]) k le_rfl
    cases dest with
    | none => exact Fills.pure () k
    | some d => exact (hdest d rfl).bind fun _ => hsrc.bind fun _ => Fills.push _ k
  | Load b off ty =>
    have hb := hread b (by simp [payloadIds]) k le_rfl
    cases dest with
    | none => exact Fills.pure () k
    | some d =>
      exact (hdest d rfl).bind fun _ => hb.bind fun _ => (Fills.newAddr k).bind fun _ =>
        (Fills.push _ (k + 1)).bind fun _ => Fills.push _ (k + 1)
  | Store v b off ty =>
    have hb := hread b (by simp [payloadIds]) k le_rfl
    have hv := hread v (by simp [payloadIds]) (k + 1) (Nat.le_succ k)
    exact hb.bind fun _ => (Fills.newAddr k).bind fun _ => (Fills.push _ (k + 1)).bind fun _ =>
      hv.bind fun _ => Fills.push _ (k + 1)
  | GetPC =>
    cases dest with
    | none => exact Fills.pure () k
    | some d => exact (hdest d rfl).bind fun _ => Fills.push _ k

theorem selectInsts_fills {start : BitVec 64} {is : List IR.Instr}
    (h : ∀ i ∈ is, ∀ v ∈ valueIds i, v < k) :
    Fills (is.forM (selectInst start)) k (is.flatMap numberedIds) (k + tempCount is) := by
  induction is generalizing k with
  | nil => exact Fills.pure () k
  | cons i is ih =>
    have hi : Fills (selectInst start i) _ _ _ := selectInst_fills (h i (by simp))
    have his := ih (k := k + temps i) fun j hj v hv =>
      Nat.lt_add_right _ (h j (by simp [hj]) v hv)
    have hsum : k + temps i + tempCount is = k + tempCount (i :: is) := by
      simp [tempCount, Nat.add_assoc]
    rw [← hsum, List.flatMap_cons]
    exact hi.bind fun _ => his

theorem selectTerm_fills {t : IR.Terminator} (ht : TermOk t) (h : ∀ v ∈ termIds t, v < k) :
    Fills (selectTerm t) k (termIds t) k := by
  obtain ⟨kind, data⟩ := t
  cases kind <;> cases data <;> first
    | exact Fills.pure _ k
    | exact (Fills.vregOf (h _ (List.mem_singleton_self _))).bind fun _ => Fills.pure _ k
    | exact ht.elim

end Fills

section Block
variable {bb : IR.Block} {vmap : List VReg}

/-- All value numbers are 32-bit numbers below the number of instructions. -/
structure IdsBelow (bb : IR.Block) : Prop where
  insts : ∀ i ∈ bb.insts, ∀ v ∈ valueIds i, v < bb.insts.length ∧ v < 2 ^ 32
  term : ∀ v ∈ termIds bb.term, v < bb.insts.length ∧ v < 2 ^ 32

/-- Slot of the `t`-th address temporary. -/
def tempSlot (bb : IR.Block) (t : ℕ) : ℕ := bb.insts.length + 1 + t

/-- Values and address temporaries have registers of their own, none of them 0, and what is
numbered keeps its register. -/
structure NeverCollide (bb : IR.Block) (vmap : List VReg) : Prop where
  values : ∀ v ∈ numberedValues bb, ∃ r, vmap[v]? = some r ∧ r ≠ 0
  inj : ∀ v ∈ numberedValues bb, ∀ w ∈ numberedValues bb, vmap[v]? = vmap[w]? → v = w
  temps : ∀ t < tempCount bb.insts, ∃ r, vmap[tempSlot bb t]? = some r ∧ r ≠ 0
  apart : ∀ t < tempCount bb.insts, ∀ v ∈ numberedValues bb, vmap[tempSlot bb t]? ≠ vmap[v]?
  temps_inj : ∀ t < tempCount bb.insts, ∀ u < tempCount bb.insts,
    vmap[tempSlot bb t]? = vmap[tempSlot bb u]? → t = u
  stable : ∀ k, ∃ before : List VReg, vmapAfter bb k = .ok before ∧
    ∀ i r : ℕ, before[i]? = some r → r ≠ 0 → vmap[i]? = some r

/-- The register numbers of temporaries wrap around neither to 0 nor to that of a value, and
no value has the number that wraps to 0. -/
structure NumbersFit (bb : IR.Block) : Prop where
  term : TermOk bb.term
  values : ∀ v ∈ numberedValues bb, v + 1 ≠ 2 ^ 32
  temps : ∀ t < tempCount bb.insts, (bb.insts.length + 2 + t) % 2 ^ 32 ≠ 0 ∧
    ∀ v ∈ numberedValues bb, (bb.insts.length + 2 + t) % 2 ^ 32 ≠ v + 1

theorem vmapOk_initial (n : ℕ) : VmapOk (List.replicate n 0) := fun _ _ hv =>
  Or.inl (List.eq_of_mem_replicate (List.mem_of_getElem? hv))

theorem numberedIds_sub {i : IR.Instr} {v : ValueId} (h : v ∈ numberedIds i) : v ∈ valueIds i := by
  obtain ⟨dest, payload⟩ := i
  cases payload <;> cases dest <;> simp_all [numberedIds, valueIds, payloadIds] <;> tauto

theorem IdsBelow.numbered (h : IdsBelow bb) {v : ℕ} (hv : v ∈ numberedValues bb) :
    v < bb.insts.length ∧ v < 2 ^ 32 := by
  rcases List.mem_append.mp hv with hv | hv
  · obtain ⟨i, hi, hv⟩ := List.mem_flatMap.mp hv
    exact h.insts i hi v (numberedIds_sub hv)
  · exact h.term v hv

theorem IdsBelow.lt (h : IdsBelow bb) {i : IR.Instr} (hi : i ∈ bb.insts) {v : ValueId}
    (hv : v ∈ valueIds i) : v < bb.insts.length + 1 :=
  Nat.lt_succ_of_lt (h.insts i hi v hv).1

/-- Selection of a block from its instruction `k` on. -/
def selectFrom (bb : IR.Block) (k : ℕ) : SelM Terminator := do
  (bb.insts.drop k).forM (selectInst bb.start)
  selectTerm bb.term

theorem selectAll_split (bb : IR.Block) (k : ℕ) :
    selectAll bb = (bb.insts.take k).forM (selectInst bb.start) >>= fun _ => selectFrom bb k := by
  have hsplit : bb.insts.forM (selectInst bb.start) =
      (bb.insts.take k).forM (selectInst bb.start) >>= fun _ =>
        (bb.insts.drop k).forM (selectInst bb.start) := by
    conv_lhs => rw [← List.take_append_drop k bb.insts]
    exact List.forM_append
  unfold selectAll selectFrom
  rw [hsplit, bind_assoc]

theorem IdsBelow.first_fills (h : IdsBelow bb) (k : ℕ) :
    Fills ((bb.insts.take k).forM (selectInst bb.start)) (bb.insts.length + 1)
      ((bb.insts.take k).flatMap numberedIds)
      (bb.insts.length + 1 + tempCount (bb.insts.take k)) :=
  selectInsts_fills fun _ hi _ hv => h.lt (List.mem_of_mem_take hi) hv

theorem IdsBelow.rest_fills (h : IdsBelow bb) (ht : TermOk bb.term) (k : ℕ) :
    Fills (selectFrom bb k) (bb.insts.length + 1 + tempCount (bb.insts.take k))
      ((bb.insts.drop k).flatMap numberedIds ++ termIds bb.term)
      (bb.insts.length + 1 + tempCount bb.insts) := by
  have hcount : tempCount bb.insts =
      tempCount (bb.insts.take k) + tempCount (bb.insts.drop k) := by
    rw [← tempCount_append, List.take_append_drop]
  have hrest : Fills ((bb.insts.drop k).forM (selectInst bb.start))
      (bb.insts.length + 1 + tempCount (bb.insts.take k)) _ _ :=
    selectInsts_fills fun i hi v hv => Nat.lt_add_right _ (h.lt (List.mem_of_mem_drop hi) hv)
  have hterm : Fills (selectTerm bb.term) (bb.insts.length + 1 + tempCount bb.insts) _ _ :=
    selectTerm_fills ht fun v hv =>
      Nat.lt_add_right _ (Nat.lt_succ_of_lt (h.term v hv).1)
  rw [hcount, ← Nat.add_assoc] at hterm ⊢
  exact hrest.bind fun _ => hterm

/-- The vector of a block against the vector after its first instructions. -/
theorem IdsBelow.split (h : IdsBelow bb) (ht : TermOk bb.term) (k : ℕ) :
    ∃ before vmap, vmapAfter bb k = .ok before ∧ vmapOf bb = .ok vmap ∧ VmapOk before ∧
      ∀ i, Filled before i ∨ i ∈ (bb.insts.drop k).flatMap numberedIds ++ termIds bb.term ∨
        bb.insts.length + 1 + tempCount (bb.insts.take k) ≤ i ∧
          i < bb.insts.length + 1 + tempCount bb.insts → Filled vmap i := by
  obtain ⟨a, s, hr, hok, hlen, -⟩ :=
    h.first_fills k ⟨_, []⟩ (vmapOk_initial _) (List.length_replicate ..)
  obtain ⟨term, s', hr', -, -, hfill⟩ := h.rest_fills ht k s hok hlen
  refine ⟨s.vmap, s'.vmap, by rw [vmapAfter, hr]; rfl, ?_, hok, hfill⟩
  rw [vmapOf, selectAll_split bb k, StateT.run_bind, hr]
  change (do let (_, s) ← (selectFrom bb k).run s; return s.vmap) = _
  rw [hr']
  rfl

/-- The slots of all values and temporaries are filled at the end, and none is changed
after it was filled. -/
theorem IdsBelow.vmap_filled (h : IdsBelow bb) (ht : TermOk bb.term) :
    ∃ vmap, vmapOf bb = .ok vmap ∧ (∀ v ∈ numberedValues bb, Filled vmap v) ∧
      (∀ t < tempCount bb.insts, Filled vmap (tempSlot bb t)) ∧
      ∀ k, ∃ before : List VReg, vmapAfter bb k = .ok before ∧
        ∀ i r : ℕ, before[i]? = some r → r ≠ 0 → vmap[i]? = some r := by
  obtain ⟨_, vmap, _, hvmap, _, hfill⟩ := h.split ht 0
  refine ⟨vmap, hvmap, fun v hv => hfill v (Or.inr (Or.inl hv)), fun t ht => ?_, fun k => ?_⟩
  · exact hfill _ (Or.inr (Or.inr ⟨Nat.le_add_right .., Nat.add_lt_add_left ht _⟩))
  · obtain ⟨before, vmap', hbefore, hvmap', hok, hfill'⟩ := h.split ht k
    rw [hvmap] at hvmap'
    cases hvmap'
    refine ⟨before, hbefore, fun i r hr hr0 => ?_⟩
    obtain rfl := (hok i r hr).resolve_left hr0
    exact hfill' i (Or.inl hr)

theorem selectTerm_throws {t : IR.Terminator} (ht : ¬ TermOk t) (s : SelState) :
    ∃ fault, (selectTerm t).run s = .error fault := by
  obtain ⟨kind, data⟩ := t
  cases kind <;> cases data <;> first
    | exact absurd trivial ht
    | exact ⟨_, rfl⟩

theorem IdsBelow.termOk (h : IdsBelow bb) (hv : vmapOf bb = .ok vmap) : TermOk bb.term := by
  obtain ⟨a, s, hr, -⟩ :=
    h.first_fills bb.insts.length ⟨_, []⟩ (vmapOk_initial _) (List.length_replicate ..)
  by_contra ht
  obtain ⟨fault, hfault⟩ := selectTerm_throws ht s
  rw [vmapOf, selectAll_split bb bb.insts.length, StateT.run_bind, hr, selectFrom,
    List.drop_length] at hv
  change (do let (_, s) ← (selectTerm bb.term).run s; return s.vmap) = _ at hv
  rw [hfault] at hv
  cases hv

/-- Two temporaries of one number have one numbered 0 between them. -/
theorem temp_unique {n count t u : ℕ} (h : ∀ t < count, (n + 2 + t) % 2 ^ 32 ≠ 0)
    (ht : t < count) (hu : u < count) (he : (n + 2 + t) % 2 ^ 32 = (n + 2 + u) % 2 ^ 32) :
    t = u := by
  by_contra hne
  wlog hlt : t < u generalizing t u
  · exact this hu ht he.symm (Ne.symm hne) (by omega)
  have hzero := h ((n + 2 + u) / 2 ^ 32 * 2 ^ 32 - (n + 2)) (by omega)
  exact hzero (by omega)

/-- The registers of all slots are known, so the property is one of the numbers alone. -/
theorem NumbersFit.neverCollide (hfit : NumbersFit bb) (h : IdsBelow bb)
    (hvals : ∀ v ∈ numberedValues bb, Filled vmap v)
    (htemps : ∀ t < tempCount bb.insts, Filled vmap (tempSlot bb t))
    (hstable : ∀ k, ∃ before : List VReg, vmapAfter bb k = .ok before ∧
      ∀ i r : ℕ, before[i]? = some r → r ≠ 0 → vmap[i]? = some r) : NeverCollide bb vmap := by
  have hlt : ∀ v ∈ numberedValues bb, (v + 1) % 2 ^ 32 = v + 1 := fun v hv =>
    Nat.mod_eq_of_lt (lt_of_le_of_ne (Nat.succ_le_of_lt (h.numbered hv).2) (hfit.values v hv))
  have hslot : ∀ t, tempSlot bb t + 1 = bb.insts.length + 2 + t := fun t => by
    unfold tempSlot
    omega
  refine ⟨fun v hv => ?_, fun v hv w hw hvw => ?_, fun t ht => ?_, fun t ht v hv hvw => ?_,
    fun t ht u hu htu => ?_, hstable⟩
  · exact ⟨_, hvals v hv, by rw [hlt v hv]; exact Nat.succ_ne_zero v⟩
  · rw [hvals v hv, hvals w hw, hlt v hv, hlt w hw] at hvw
    exact Nat.succ.inj (Option.some.inj hvw)
  · exact ⟨_, htemps t ht, by rw [hslot]; exact (hfit.temps t ht).1⟩
  · rw [htemps t ht, hvals v hv, hlt v hv, hslot] at hvw
    exact (hfit.temps t ht).2 v hv (Option.some.inj hvw)
  · rw [htemps t ht, htemps u hu, hslot, hslot] at htu
    exact temp_unique (fun t ht => (hfit.temps t ht).1) ht hu (Option.some.inj htu)

theorem NeverCollide.numbersFit (hcollide : NeverCollide bb vmap) (h : IdsBelow bb)
    (hvmap : vmapOf bb = .ok vmap) : NumbersFit bb := by
  have hterm := h.termOk hvmap
  obtain ⟨vmap', hvmap', hvals, htemps, -⟩ := h.vmap_filled hterm
  obtain rfl : vmap' = vmap := Except.ok.inj (hvmap'.symm.trans hvmap)
  have hne : ∀ v ∈ numberedValues bb, v + 1 ≠ 2 ^ 32 := by
    intro v hv he
    obtain ⟨r, hr, hr0⟩ := hcollide.values v hv
    rw [hvals v hv, he, Nat.mod_self] at hr
    exact hr0 (Option.some.inj hr).symm
  have htemp : ∀ t < tempCount bb.insts,
      vmap'[tempSlot bb t]? = some ((bb.insts.length + 2 + t) % 2 ^ 32) := by
    intro t ht
    rw [htemps t ht, tempSlot]
    congr 2
    omega
  refine ⟨hterm, hne, fun t ht => ⟨fun h0 => ?_, fun v hv he => ?_⟩⟩
  · obtain ⟨r, hr, hr0⟩ := hcollide.temps t ht
    rw [htemp t ht, h0] at hr
    exact hr0 (Option.some.inj hr).symm
  · have hv32 : (v + 1) % 2 ^ 32 = v + 1 :=
      Nat.mod_eq_of_lt (lt_of_le_of_ne (Nat.succ_le_of_lt (h.numbered hv).2) (hne v hv))
    refine hcollide.apart t ht v hv ?_
    rw [htemp t ht, hvals v hv, hv32, he]

/-- Virtual registers never collide exactly where no number wraps around. -/
theorem never_collide_iff (h : IdsBelow bb) :
    (∃ vmap, vmapOf bb = .ok vmap ∧ NeverCollide bb vmap) ↔ NumbersFit bb := by
  constructor
  · rintro ⟨vmap, hvmap, hcollide⟩
    exact hcollide.numbersFit h hvmap
  · intro hfit
    obtain ⟨vmap, hvmap, hvals, htemps, hstable⟩ := h.vmap_filled hfit.term
    exact ⟨vmap, hvmap, hfit.neverCollide h hvals htemps hstable⟩

/-- In a block whose first temporary has a 32-bit number, only the last one can wrap. -/
theorem IdsBelow.numbersFit_iff (h : IdsBelow bb) (hlen : bb.insts.length + 2 ≤ 2 ^ 32) :
    NumbersFit bb ↔ TermOk bb.term ∧
      (tempCount bb.insts = 0 ∨ bb.insts.length + 1 + tempCount bb.insts < 2 ^ 32) := by
  constructor
  · intro hfit
    refine ⟨hfit.term, ?_⟩
    by_contra hwrap
    have hzero := (hfit.temps (2 ^ 32 - (bb.insts.length + 2)) (by omega)).1
    exact hzero (by rw [Nat.add_sub_cancel' hlen, Nat.mod_self])
  · rintro ⟨hterm, hcount⟩
    have hlt : ∀ v ∈ numberedValues bb, v + 1 < bb.insts.length + 1 := fun v hv =>
      Nat.succ_lt_succ (h.numbered hv).1
    refine ⟨hterm, fun v hv => ?_, fun t ht => ?_⟩
    · exact Nat.ne_of_lt (Nat.lt_of_lt_of_le (hlt v hv) (Nat.le_of_succ_le hlen))
    · have hmod : (bb.insts.length + 2 + t) % 2 ^ 32 = bb.insts.length + 2 + t :=
        Nat.mod_eq_of_lt (by omega)
      rw [hmod]
      have hpos : bb.insts.length + 1 < bb.insts.length + 2 + t := by omega
      exact ⟨by omega, fun v hv => Nat.ne_of_gt (Nat.lt_trans (hlt v hv) hpos)⟩

end Block

theorem copyWord_never_collide :
    ∃ vmap, vmapOf copyWord = .ok vmap ∧ NeverCollide copyWord vmap :=
  (never_collide_iff ⟨by decide, by decide⟩).2 ⟨trivial, by decide, by decide⟩

theorem storeAfter_idsBelow {m : ℕ} : IdsBelow (storeAfter m) := by
  refine ⟨fun i hi v hv => ?_, fun v hv => by cases hv⟩
  obtain rfl := storeAfter_valueIds hi hv
  exact ⟨Nat.succ_pos _, by decide⟩

theorem storeAfter_temps {m : ℕ} : tempCount (storeAfter m).insts = 1 := by
  simp [tempCount, storeAfter, temps]

/-- The temporary of the store has number 0. -/
theorem storeAfter_collides :
    IdsBelow (storeAfter (2 ^ 32 - 4)) ∧ ¬ ∃ vmap, vmapOf (storeAfter (2 ^ 32 - 4)) = .ok vmap ∧
      NeverCollide (storeAfter (2 ^ 32 - 4)) vmap := by
  have hm : 2 ^ 32 - 4 + 4 = 2 ^ 32 := by norm_num
  generalize 2 ^ 32 - 4 = m at hm
  refine ⟨storeAfter_idsBelow, ?_⟩
  rintro ⟨vmap, hvmap, hcollide⟩
  have hfit := hcollide.numbersFit storeAfter_idsBelow hvmap
  refine (hfit.temps 0 (by rw [storeAfter_temps]; exact Nat.one_pos)).1 ?_
  rw [storeAfter_length]
  omega

end Riscy.AArch64
