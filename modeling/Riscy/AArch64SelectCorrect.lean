import Riscy.AArch64Simulation

/-! Whole blocks: the lines of every well-typed block whose address temporaries have registers
of their own simulate it. In a long block a temporary is given the number of the state
pointer. -/
namespace Riscy.AArch64
open IR (TypeKind ICmpCond BinOpKind Payload Val evalBin evalCmp)
open ByteMemory

/-- Blocks whose value numbers and address temporaries are 32-bit numbers. -/
structure Fits (bb : IR.Block) : Prop where
  values : bb.insts.length < 2 ^ 32
  temps : ∀ t < tempCount bb.insts, bb.insts.length + 2 + t < 2 ^ 32

theorem Fits.fresh {bb : IR.Block} (h : Fits bb) {t p : ℕ} (ht : t < tempCount bb.insts)
    (hp : p < bb.insts.length) : FreshAddr (bb.insts.length + 1 + t) (Set.Iic p) := by
  have hlt := h.temps t ht
  have haddr : (bb.insts.length + 1 + t + 1) % 2 ^ 32 = bb.insts.length + 2 + t := by omega
  constructor
  · change (bb.insts.length + 1 + t + 1) % 2 ^ 32 ≠ 0
    omega
  · intro v hv
    have hle : v ≤ p := hv
    change (bb.insts.length + 1 + t + 1) % 2 ^ 32 ≠ v + 1
    omega

/-- No address temporary has the register of the state pointer or of a value that an earlier
instruction defines. -/
def AddrsApart (bb : IR.Block) : Prop :=
  ∀ p i, bb.insts[p]? = some i → temps i = 1 →
    FreshAddr (bb.insts.length + 1 + tempCount (bb.insts.take p)) (defined (bb.insts.take p))

theorem freshAddr_at {bb : IR.Block} (h : Fits bb) {p : ℕ} {i : IR.Instr}
    (hi : bb.insts[p]? = some i) (ht : temps i = 1) :
    FreshAddr (bb.insts.length + 1 + tempCount (bb.insts.take p)) (Set.Iic p) := by
  have happ := tempCount_append (bb.insts.take (p + 1)) (bb.insts.drop (p + 1))
  have hone := tempCount_append (bb.insts.take p) [i]
  have hsingle : tempCount [i] = temps i := rfl
  rw [List.take_append_drop, List.take_add_one, hi, Option.toList_some, hone] at happ
  exact h.fresh (by omega) (List.getElem?_eq_some_iff.mp hi).1

theorem Fits.apart {bb : IR.Block} (h : Fits bb) : AddrsApart bb := fun p i hi ht =>
  (freshAddr_at h hi ht).mono fun v hv => by
    have hlt := defined_lt hv
    rw [List.length_take] at hlt
    exact (show v ≤ p by omega)

/-- The rest of a block, from related states after its first part. -/
theorem run_simulates {bb : IR.Block} (hw : WellTyped bb) (hap : AddrsApart bb) {base : BitVec 64}
    {done rest : List IR.Instr} (hsplit : bb.insts = done ++ rest) {s : IR.State}
    {h : Host VName} (hR : Rel done base s h) :
    ∃ s' h', IR.run bb.start rest s = some s' ∧
      runLines (.phys 0) (linesAll bb.start (bb.insts.length + 1 + tempCount done) rest) h =
        some h' ∧ Rel bb.insts base s' h' := by
  induction rest generalizing done s h with
  | nil =>
    rw [List.append_nil] at hsplit
    exact ⟨s, h, rfl, rfl, hsplit ▸ hR⟩
  | cons i rest ih =>
    have hi : bb.insts[done.length]? = some i := by
      rw [hsplit, List.getElem?_append_right le_rfl, Nat.sub_self]
      rfl
    have htake : bb.insts.take done.length = done := by
      rw [hsplit, List.take_left]
    have hp := hw.payload _ _ hi
    rw [htake] at hp
    have hfresh := hap _ _ hi
    rw [htake] at hfresh
    have hstep : Steps done base bb.start _ i s h := hR.step (hw.dest _ _ hi) hp hfresh
    obtain ⟨s₁, h₁, hs₁, hh₁, hR₁⟩ := hstep
    obtain ⟨s', h', hs', hh', hR'⟩ := ih (by rw [hsplit, List.append_assoc]; rfl) hR₁
    have hk : tempCount (done ++ [i]) = tempCount done + temps i := by
      rw [tempCount_append]
      rfl
    refine ⟨s', h', ?_, ?_, hR'⟩
    · rw [IR.run_cons, hs₁]
      exact hs'
    · rw [linesAll, runLines_append, hh₁, Nat.add_assoc, ← hk]
      exact hh'

/-- How a terminator of the block leaves it on the host. -/
def Exit.ofIR : IR.Exit → Exit
  | .goto t => .goto (blockLabel t)
  | .indirect t => .indirect t
  | .ret => .ret
  | .trap => .trap

def TermKind.ofIR : IR.TermKind → TermKind
  | .None => .None
  | .Br => .Br
  | .CBr => .CBr
  | .BrIndirect => .BrIndirect
  | .Ret => .Ret
  | .Trap => .Trap

/-- The host at the entry of a block. -/
structure HostEntry (regs : ℕ → BitVec 64) (mem : Memory 64) (base : BitVec 64)
    (h : Host VName) : Prop where
  regs : ∀ r < 32, h.words r = regs r
  top : h.words 32 = base
  mem : ∀ a, h.mem (a + base) = mem a
  x0 : h.r (.phys 0) = h.addr

/-- From every entry, the selected block and the block itself run to their ends with the
same registers and memory, and leave by corresponding exits. -/
def Simulated (bb : IR.Block) : Prop :=
  ∀ regs mem base h, HostEntry regs mem base h →
    ∃ b asm s h', select bb = .ok b ∧ virtualBlock b = .ok asm ∧
      IR.run bb.start bb.insts ⟨regs, mem, fun _ => none⟩ = some s ∧
      runLines (.phys 0) asm.lines h = some h' ∧
      (∀ r < 32, h'.words r = s.regs r) ∧ (∀ a, h'.mem (a + base) = s.mem a) ∧
      b.term.kind = TermKind.ofIR bb.term.kind ∧
      exitOf (.phys 1) h' asm.jumps = (IR.exitOf bb.term s).map Exit.ofIR

theorem PayloadOk.ids {done : List IR.Instr} {i : IR.Instr} (h : PayloadOk done i.payload)
    {v : ℕ} (hv : v ∈ valueIds i) : v ∈ i.dest ∨ v ∈ defined done := by
  obtain ⟨dest, payload⟩ := i
  rw [valueIds, List.mem_append] at hv
  rcases hv with hv | hv
  · exact Or.inl (by simpa using hv)
  · right
    cases payload <;> simp only [payloadIds, List.mem_cons, List.not_mem_nil, or_false] at hv <;>
      simp only [PayloadOk] at h
    · rw [hv]
      exact h.2.defined
    · rcases hv with rfl | rfl
      · exact h.2.1.defined
      · exact h.2.2.defined
    · rcases hv with rfl | rfl
      · exact h.1.defined
      · exact h.2.defined
    · rw [hv]
      exact h.2.defined
    · rw [hv]
      exact h.2.defined
    · rw [hv]
      exact h.2.defined
    · rw [hv]
      exact h.2.1.defined
    · rcases hv with rfl | rfl
      · rcases h.1 with hk | hk <;> exact hk.1.defined
      · exact h.2.1.defined

theorem TermTyped.ok {done : List IR.Instr} {t : IR.Terminator} (h : TermTyped done t) :
    TermOk t := by
  obtain ⟨kind, data⟩ := t
  cases kind <;> cases data <;> trivial

theorem TermTyped.ids {done : List IR.Instr} {t : IR.Terminator} (h : TermTyped done t) {v : ℕ}
    (hv : v ∈ termIds t) : v ∈ defined done := by
  obtain ⟨kind, data⟩ := t
  cases kind <;> cases data <;>
    simp only [termIds, List.not_mem_nil, List.mem_singleton] at hv
  · rw [hv]
    exact HasKind.defined h
  · rw [hv]
    exact HasKind.defined h

theorem defined_take {is : List IR.Instr} {p v : ℕ} (h : v ∈ defined (is.take p)) :
    v ∈ defined is := by
  obtain ⟨i, hi, hd⟩ := h
  rw [List.getElem?_take] at hi
  split_ifs at hi
  exact ⟨i, hi, hd⟩

/-- The values that a block mentions are values that it defines. -/
theorem WellTyped.ids {bb : IR.Block} (hw : WellTyped bb) {i : IR.Instr} (hi : i ∈ bb.insts)
    {v : ℕ} (hv : v ∈ valueIds i) : v ∈ defined bb.insts := by
  obtain ⟨p, hp⟩ := List.mem_iff_getElem?.mp hi
  rcases (hw.payload p i hp).ids hv with hd | hdef
  · rcases hw.dest p i hp with hno | hsome
    · rw [hno] at hd
      cases hd
    · obtain rfl : p = v := Option.some.inj (hsome.symm.trans hd)
      exact ⟨i, hp, hsome⟩
  · exact defined_take hdef

theorem WellTyped.mapped {bb : IR.Block} (hw : WellTyped bb) : Mapped bb :=
  ⟨fun _ hi _ hv => Nat.lt_succ_of_lt (defined_lt (hw.ids hi hv)), hw.term.ok,
    fun _ hv => Nat.lt_succ_of_lt (defined_lt (hw.term.ids hv))⟩

/-- Blocks in which every value that is used has been defined. -/
theorem selectOk_of_ids {bb : IR.Block} (hlen : bb.insts.length < 2 ^ 32)
    (hins : ∀ p i, bb.insts[p]? = some i → ∀ v ∈ valueIds i, v ≤ p) (ht : TermOk bb.term)
    (hterm : ∀ v ∈ termIds bb.term, v < bb.insts.length) : SelectOk bb := by
  refine ⟨fun i hi v hv => ?_, ht, fun v hv => ?_⟩
  · obtain ⟨p, hp, rfl⟩ := List.getElem_of_mem hi
    have hle := hins p _ (List.getElem?_eq_getElem hp) v hv
    exact ⟨by omega, by omega⟩
  · have hlt := hterm v hv
    exact ⟨by omega, by omega⟩

/-- A branch on a comparison goes where the comparison says. -/
theorem Rel.exit_cbr {done : List IR.Instr} {base : BitVec 64} {s : IR.State} {h : Host VName}
    (hR : Rel done base s h) {cond : ℕ} (hc : HasKind done cond .flag) (tt ff : BitVec 64) :
    exitOf (.phys 1) { h with flags := compare (h.r (valueName cond)) 0 }
        [.bne (blockLabel tt), .b (blockLabel ff)] =
      (IR.exitOf ⟨.CBr, .cbr cond tt ff⟩ s).map Exit.ofIR := by
  obtain ⟨x, hx, c, rfl, hreg⟩ := hR.vals cond .flag hc
  rw [hreg]
  cases c <;> simp [exitOf, IR.exitOf, hx, compare, Flags.holds, Exit.ofIR]

theorem Rel.exit {done : List IR.Instr} {base : BitVec 64} {s : IR.State} {h : Host VName}
    (hR : Rel done base s h) {t : IR.Terminator} (ht : TermTyped done t) :
    ∃ h', runLines (.phys 0) (termLines (selectedTerm t)) h = some h' ∧
      h'.words = h.words ∧ h'.mem = h.mem ∧
      exitOf (.phys 1) h' (termJumps (selectedTerm t)) = (IR.exitOf t s).map Exit.ofIR := by
  obtain ⟨kind, data⟩ := t
  cases kind with
  | CBr =>
    cases data <;> try exact ht.elim
    exact ⟨_, rfl, rfl, rfl, hR.exit_cbr ht _ _⟩
  | BrIndirect =>
    cases data <;> try exact ht.elim
    refine ⟨_, rfl, rfl, rfl, ?_⟩
    have hget := hR.get ht
    simp [exitOf, IR.exitOf, selectedTerm, termJumps, IR.State.get, hget, Exit.ofIR]
  | Br =>
    cases data <;> try exact ht.elim
    exact ⟨h, rfl, rfl, rfl, rfl⟩
  | _ => exact ⟨h, rfl, rfl, rfl, rfl⟩

theorem HostEntry.rel {regs : ℕ → BitVec 64} {mem : Memory 64} {base : BitVec 64}
    {h : Host VName} (he : HostEntry regs mem base h) :
    Rel [] base ⟨regs, mem, fun _ => none⟩ (h.set (.phys 21) base) where
  regs := he.regs
  top := he.top
  mem := he.mem
  x0 := (Host.set_ne h _ base (by simp)).trans he.x0
  x21 := Host.set_self ..
  vals := fun v k hv => absurd hv.lt (Nat.not_lt_zero v)

theorem selectedTerm_kind {t : IR.Terminator} (ht : TermOk t) :
    (selectedTerm t).kind = TermKind.ofIR t.kind := by
  obtain ⟨kind, data⟩ := t
  cases kind <;> cases data <;> trivial

theorem HostEntry.prologue {regs : ℕ → BitVec 64} {mem : Memory 64} {base : BitVec 64}
    {h : Host VName} (he : HostEntry regs mem base h) :
    (Line.ldr .x (VName.phys 21) (.phys 0) 256).exec (.phys 0) h =
      some (h.set (.phys 21) base) := by
  rw [Line.exec, if_pos rfl, if_pos ⟨he.x0, rfl⟩, ← he.top]
  rfl

/-- The lines of a block do what the block does. -/
theorem blockLines_simulate {bb : IR.Block} (hw : WellTyped bb) (hap : AddrsApart bb)
    {regs : ℕ → BitVec 64} {mem : Memory 64} {base : BitVec 64} {h : Host VName}
    (he : HostEntry regs mem base h) :
    ∃ s h', IR.run bb.start bb.insts ⟨regs, mem, fun _ => none⟩ = some s ∧
      runLines (.phys 0) (blockLines bb) h = some h' ∧ (∀ r < 32, h'.words r = s.regs r) ∧
      h'.words 32 = base ∧ (∀ a, h'.mem (a + base) = s.mem a) ∧
      exitOf (.phys 1) h' (termJumps (selectedTerm bb.term)) =
        (IR.exitOf bb.term s).map Exit.ofIR := by
  have hnil : bb.insts = [] ++ bb.insts := rfl
  obtain ⟨s, h₁, hs, hh, hR⟩ := run_simulates hw hap hnil he.rel
  obtain ⟨h', hterm, hwords, hmem, hexit⟩ := hR.exit hw.term
  refine ⟨s, h', hs, ?_, ?_, ?_, ?_, hexit⟩
  · change (Line.exec _ _ _).bind (runLines _ (linesAll _ _ _ ++ _)) = _
    rw [he.prologue, Option.bind_some, runLines_append]
    change ((runLines _ (linesAll bb.start (bb.insts.length + 1 + tempCount []) _) _).bind _) = _
    rw [hh]
    exact hterm
  · rw [hwords]
    exact hR.regs
  · rw [hwords]
    exact hR.top
  · rw [hmem]
    exact hR.mem

/-- A block that copies a word of memory into a register. -/
def copyWord : IR.Block :=
  ⟨0, [⟨some 0, .ReadReg 1⟩, ⟨some 1, .Load 0 8 .I64⟩, ⟨none, .WriteReg 2 1⟩],
    ⟨.Ret, .monostate⟩⟩

/-- A constant, `m` writes of it to a register, and a store. -/
def storeAfter (m : ℕ) : IR.Block :=
  ⟨0, ⟨some 0, .Const .I64 1⟩ :: (List.replicate m ⟨none, .WriteReg 5 0⟩ ++
    [⟨none, .Store 0 0 0 .I64⟩]), ⟨.Ret, .monostate⟩⟩

section StoreAfter
variable {m : ℕ}

theorem storeAfter_length : (storeAfter m).insts.length = m + 2 := by
  simp [storeAfter]

theorem storeAfter_get {p : ℕ} {i : IR.Instr} (h : (storeAfter m).insts[p]? = some i) :
    p = 0 ∧ i = ⟨some 0, .Const .I64 1⟩ ∨
      0 < p ∧ (i = ⟨none, .WriteReg 5 0⟩ ∨ i = ⟨none, .Store 0 0 0 .I64⟩) := by
  cases p with
  | zero => exact Or.inl ⟨rfl, (Option.some.inj h).symm⟩
  | succ p =>
    have hm := List.mem_of_getElem? (show (List.replicate m (⟨none, .WriteReg 5 0⟩ : IR.Instr) ++
      [⟨none, .Store 0 0 0 .I64⟩])[p]? = some i from h)
    rcases List.mem_append.mp hm with hm | hm
    · exact Or.inr ⟨Nat.succ_pos p, Or.inl (List.eq_of_mem_replicate hm)⟩
    · exact Or.inr ⟨Nat.succ_pos p, Or.inr (List.mem_singleton.mp hm)⟩

theorem storeAfter_typed : WellTyped (storeAfter m) := by
  have hzero : ∀ p > 0, HasKind ((storeAfter m).insts.take p) 0 .i64 := by
    intro p hp
    obtain ⟨q, rfl⟩ := Nat.exists_eq_succ_of_ne_zero hp.ne'
    exact ⟨_, rfl, rfl, rfl⟩
  refine ⟨?_, ?_, trivial⟩
  · intro p i hi
    rcases storeAfter_get hi with ⟨rfl, rfl⟩ | ⟨-, rfl | rfl⟩
    · exact Or.inr rfl
    · exact Or.inl rfl
    · exact Or.inl rfl
  · intro p i hi
    rcases storeAfter_get hi with ⟨rfl, rfl⟩ | ⟨hp, rfl | rfl⟩
    · trivial
    · exact ⟨by decide, hzero p hp⟩
    · exact ⟨Or.inl ⟨hzero p hp, Or.inl rfl⟩, hzero p hp, rfl⟩

theorem storeAfter_valueIds {i : IR.Instr} (hi : i ∈ (storeAfter m).insts) {v : ℕ}
    (hv : v ∈ valueIds i) : v = 0 := by
  obtain ⟨p, hp, rfl⟩ := List.getElem_of_mem hi
  rcases storeAfter_get (List.getElem?_eq_getElem hp) with ⟨-, hi⟩ | ⟨-, hi | hi⟩ <;>
    rw [hi] at hv <;> simpa [valueIds, payloadIds] using hv

theorem storeAfter_selectOk : SelectOk (storeAfter m) := by
  refine ⟨fun i hi v hv => ?_, trivial, fun v hv => by cases hv⟩
  obtain rfl := storeAfter_valueIds hi hv
  exact ⟨Nat.succ_pos _, by decide⟩

theorem linesAll_writes (start : BitVec 64) (k r v : ℕ) (rest : List IR.Instr) :
    linesAll start k (List.replicate m ⟨none, .WriteReg r v⟩ ++ rest) =
      List.replicate m (.str .x (valueName v) (.phys 0) (guestRegOffsetBytes r)) ++
        linesAll start k rest := by
  induction m with
  | zero => rfl
  | succ m ih =>
    rw [List.replicate_succ, List.cons_append, linesAll, List.replicate_succ, List.cons_append]
    exact congrArg _ ih

theorem run_writes {h : Host VName} (hx0 : h.r (.phys 0) = h.addr) {r v : ℕ} (hr : r < 32) :
    ∃ h', runLines (.phys 0)
      (List.replicate m (.str .x (valueName v) (.phys 0) (guestRegOffsetBytes r))) h = some h' ∧
      h'.r = h.r ∧ h'.addr = h.addr := by
  induction m generalizing h with
  | zero => exact ⟨h, rfl, rfl, rfl⟩
  | succ m ih =>
    obtain ⟨h', hrun, hr', ha'⟩ :=
      ih (h := { h with words := Function.update h.words r (h.r (valueName v)) }) hx0
    refine ⟨h', ?_, hr', ha'⟩
    rw [List.replicate_succ, runLines_cons, Line.exec, if_pos rfl, if_pos ⟨hx0, rfl⟩,
      structWord_guestReg hr]
    exact hrun

theorem exec_regs {start : BitVec 64} {s s' : IR.State} {i : IR.Instr} {r : ℕ}
    (hi : ∀ v, i.payload ≠ .WriteReg r v) (h : IR.exec start s i = some s') :
    s'.regs r = s.regs r := by
  obtain ⟨dest, payload⟩ := i
  cases payload with
  | WriteReg q v =>
    obtain ⟨x, -, hs⟩ := Option.bind_eq_some_iff.mp h
    cases hs
    have hne : r ≠ q := fun he => hi v (by rw [he])
    exact Function.update_of_ne hne ..
  | Store v b off ty =>
    obtain ⟨a, -, h⟩ := Option.bind_eq_some_iff.mp h
    obtain ⟨x, -, h⟩ := Option.bind_eq_some_iff.mp h
    split_ifs at h
    cases h
    rfl
  | _ =>
    simp only [IR.exec] at h
    obtain ⟨x, -, rfl⟩ := Option.map_eq_some_iff.mp h
    cases dest <;> rfl

/-- A register that no instruction writes keeps its value. -/
theorem run_regs {start : BitVec 64} {is : List IR.Instr} {s s' : IR.State} {r : ℕ}
    (hi : ∀ i ∈ is, ∀ v, i.payload ≠ .WriteReg r v) (h : IR.run start is s = some s') :
    s'.regs r = s.regs r := by
  induction is generalizing s with
  | nil =>
    cases h
    rfl
  | cons i is ih =>
    obtain ⟨s₁, h₁, h⟩ := Option.bind_eq_some_iff.mp h
    rw [ih (fun j hj => hi j (List.mem_cons_of_mem _ hj)) h,
      exec_regs (hi i (List.mem_cons_self ..)) h₁]

def zeroHost : Host VName :=
  ⟨fun _ => 0, ⟨false, false, false, false⟩, 0, fun _ => 0, fun _ => 0⟩

theorem storeAfter_lines (hm : m + 4 = 2 ^ 32) :
    blockLines (storeAfter m) = .ldr .x (.phys 21) (.phys 0) 256 ::
      .movImm (valueName 0) 1 ::
        (List.replicate m (.str .x (valueName 0) (.phys 0) (guestRegOffsetBytes 5)) ++
          [addrLine (m + 2 + 1) 0, .str .x (valueName 0) (.phys 0) 0]) := by
  have haddr : baseName (addrReg (m + 2 + 1)) = .phys 0 := by
    have hz : (m + 2 + 1 + 1) % 2 ^ 32 = 0 := by omega
    exact if_pos hz
  have hstore : selectedLines 0 (m + 2 + 1) ⟨none, .Store 0 0 0 .I64⟩ =
      [addrLine (m + 2 + 1) 0, .str .x (valueName 0) (baseName (addrReg (m + 2 + 1))) 0] := rfl
  rw [haddr] at hstore
  have hall := linesAll_writes (m := m) 0 (m + 2 + 1) 5 0 [⟨none, .Store 0 0 0 .I64⟩]
  have hlast : linesAll 0 (m + 2 + 1) [⟨none, .Store 0 0 0 .I64⟩] =
      [addrLine (m + 2 + 1) 0, .str .x (valueName 0) (.phys 0) 0] := by
    rw [linesAll, hstore]
    rfl
  rw [hlast] at hall
  rw [blockLines, storeAfter_length, ← hall]
  change _ ++ [] = _
  rw [List.append_nil]
  rfl

/-- The address temporary of the store is register 0, which names the state struct. -/
theorem storeAfter_run (hm : m + 4 = 2 ^ 32) : ∃ h',
    runLines (.phys 0) (blockLines (storeAfter m)) zeroHost = some h' ∧ h'.words 0 = 1 := by
  obtain ⟨h', hrun, hr, ha⟩ := run_writes (m := m) (r := 5) (v := 0)
    (h := (zeroHost.set (.phys 21) 0).set (valueName 0) 1) rfl (by decide)
  have hx0 : h'.r (.phys 0) = h'.addr := by
    rw [hr, ha]
    rfl
  have hv0 : h'.r (valueName 0) = 1 := by
    rw [hr]
    rfl
  have hne : valueName 0 ≠ VName.virt (addrReg (m + 2 + 1)) := by
    intro he
    have hn : 0 + 1 = (m + 2 + 1 + 1) % 2 ^ 32 := VName.virt.inj he
    omega
  obtain ⟨g, hg⟩ : ∃ g, g = h'.set (.virt (addrReg (m + 2 + 1)))
    (h'.r (valueName 0) + h'.r (.phys 21)) := ⟨_, rfl⟩
  have hgx0 : g.r (.phys 0) = g.addr := by
    rw [hg, Host.set_ne _ _ _ (by simp)]
    exact hx0
  have hgv : g.r (valueName 0) = 1 := by
    rw [hg, Host.set_ne _ _ _ hne, hv0]
  have hlast : runLines (.phys 0)
      [addrLine (m + 2 + 1) 0, .str .x (valueName 0) (.phys 0) 0] h' =
      some { g with words := Function.update g.words 0 1 } := by
    rw [addrLine, runLines_cons, Line.exec, Alu.eval, Option.bind_some, ← hg, runLines_cons,
      Line.exec, if_pos rfl, if_pos ⟨hgx0, rfl⟩, hgv]
    rfl
  refine ⟨{ g with words := Function.update g.words 0 1 }, ?_, Function.update_self 0 1 g.words⟩
  rw [storeAfter_lines hm]
  change runLines _ (List.replicate m _ ++ _) ((zeroHost.set (.phys 21) 0).set (valueName 0) 1) = _
  rw [runLines_append, hrun]
  exact hlast

end StoreAfter

/-- The number of the temporary wraps around to that of the state pointer. -/
theorem storeAfter_not_simulated :
    WellTyped (storeAfter (2 ^ 32 - 4)) ∧ ¬ Simulated (storeAfter (2 ^ 32 - 4)) := by
  refine ⟨storeAfter_typed, fun hsim => ?_⟩
  have hm : 2 ^ 32 - 4 + 4 = 2 ^ 32 := by norm_num
  generalize 2 ^ 32 - 4 = m at hm hsim
  obtain ⟨b, asm, s, h', hsel, hasm, hs, hh, hregs, -⟩ :=
    hsim (fun _ => 0) (fun _ => 0) 0 zeroHost ⟨fun _ _ => rfl, rfl, fun _ => rfl, rfl⟩
  obtain ⟨h₁, hrun, hword⟩ := storeAfter_run hm
  rw [select_eq storeAfter_selectOk] at hsel
  cases hsel
  rw [virtualBlock_eq storeAfter_selectOk.term] at hasm
  cases hasm
  rw [hrun] at hh
  cases hh
  have hzero : s.regs 0 = 0 := by
    refine run_regs (r := 0) (fun i hi v => ?_) hs
    obtain ⟨p, hp, rfl⟩ := List.getElem_of_mem hi
    rcases storeAfter_get (List.getElem?_eq_getElem hp) with ⟨-, hi⟩ | ⟨-, hi | hi⟩ <;>
      rw [hi] <;> simp
  have h0 := hregs 0 (by decide)
  rw [hword, hzero] at h0
  exact absurd h0 (by decide)

end Riscy.AArch64
