import Riscy.AArch64Runtime
import Riscy.AArch64StateBytes
import Riscy.RISCVAccess

/-! A printed block on the host. It is followed from the block of the guest through the selected
lines, which have the state struct beside the memory, and the lines with the struct in memory, to
the lines in the registers of the allocation. -/
namespace Riscy.AArch64
open IR (Payload Allows)
open RISCV ByteMemory Runs

section Selected
variable {done rest : List IR.Instr} {base start : BitVec 64} {s : IR.State} {h h' : Host VName}
  {i : IR.Instr} {k : ℕ} {bb : IR.Block}

/-- The guest accesses miss the state struct, wherever the memory of the guest starts. -/
def Misses (a base : BitVec 64) (x : BitVec 64) (n : ℕ) : Prop := Apart a structSize (x + base) n

theorem clear_of_base {ls : List (Line VName)}
    (hl : ∀ l ∈ ls, l.base = none ∨ l.base = some (.phys 0)) :
    Along (Line.exec (.phys 0)) (Line.Clear (.phys 0)) ls h := by
  refine along_of_forall fun l hm s a n ha => ?_
  rcases hl l hm with hb | hb <;> cases l <;> simp [Line.base, Line.access] at hb ha
  all_goals exact absurd hb ha.1

theorem constLines_base {d : VName} {v : BitVec 64} {l : Line VName} (hl : l ∈ constLines d v) :
    l.base = none := by
  have hk : ∀ part lsl, l ∈ movkLine d part lsl → l.base = none := by
    intro part lsl hm
    unfold movkLine at hm
    split_ifs at hm
    · rw [List.mem_singleton.mp hm]
      rfl
    · cases hm
  unfold constLines at hl
  split_ifs at hl
  · rw [List.mem_singleton.mp hl]
    rfl
  · simp only [List.append_assoc, List.mem_append, List.mem_singleton] at hl
    rcases hl with rfl | hl | hl | hl
    · rfl
    · exact hk _ _ hl
    · exact hk _ _ hl
    · exact hk _ _ hl

/-- An access through the sum of a value and the memory base. -/
theorem Rel.clear_at (hR : Rel done base s h) {b n : ℕ} {off : BitVec 64} (hoff : FitsInt32 off)
    {l : Line VName} (hl : ∀ t, l.access (.phys 0) t =
      some (t.r (.virt (addrReg k)) + (off.setWidth 32).signExtend 64, n))
    (ha : Misses h.addr base (h.r (valueName b) + off) n) :
    Along (Line.exec (.phys 0)) (Line.Clear (.phys 0)) [addrLine k b, l] h := by
  refine ⟨fun a m hm => (by cases hm), fun t ht => ⟨fun a m hm => ?_, fun _ _ => trivial⟩⟩
  cases ht
  rw [hl] at hm
  cases hm
  have haddr : (atAddr k b (h.r (.phys 21)) h).r (.virt (addrReg k)) =
      h.r (valueName b) + h.r (.phys 21) := Host.set_self ..
  have heq := hR.accessAddr_eq hoff b
  rw [accessAddr, ← haddr] at heq
  change Apart h.addr structSize ((atAddr k b (h.r (.phys 21)) h).r (.virt (addrReg k)) + _) n
  rw [heq]
  exact ha

/-- The lines of an instruction miss the struct if its access does. -/
theorem Rel.clear (hR : Rel done base s h) (hp : PayloadOk done i.payload)
    (hf : temps i = 1 → FreshAddr k (defined done)) (ha : Allows (Misses h.addr base) s i) :
    Along (Line.exec (.phys 0)) (Line.Clear (.phys 0)) (selectedLines start k i) h := by
  obtain ⟨dest, payload⟩ := i
  cases payload with
  | Load b off ty =>
    cases dest with
    | none => trivial
    | some d =>
      obtain ⟨hty, hb, hoff⟩ := hp
      have hsize : (sizeOf ty).bytes = ty.bytes := by rcases hty with rfl | rfl <;> rfl
      refine hR.clear_at (b := b) (n := ty.bytes) hoff (fun t => ?_) (ha _ _ ?_)
      · rw [baseName_addr (hf rfl), Line.access, if_neg (by simp), hsize]
      · simp [IR.access, IR.State.get, hR.get hb]
  | Store v b off ty =>
    obtain ⟨hv, hb, hoff⟩ := hp
    have hsize : (sizeOf ty).bytes = ty.bytes := by
      have hty : ty = .I64 ∨ ty = .I32 := hv.elim (fun h => h.2) fun h => Or.inr h.2
      rcases hty with rfl | rfl <;> rfl
    refine hR.clear_at (b := b) (n := ty.bytes) hoff (fun t => ?_) (ha _ _ ?_)
    · rw [baseName_addr (hf rfl), Line.access, if_neg (by simp), hsize]
    · simp [IR.access, IR.State.get, hR.get hb]
  | Const ty v =>
    refine clear_of_base fun l hl => Or.inl ?_
    cases dest with
    | none => cases hl
    | some d => exact constLines_base hl
  | ZExt src dst | SExt src dst =>
    refine clear_of_base fun l hl => Or.inl ?_
    cases dest with
    | none => cases hl
    | some d =>
      rw [List.mem_singleton.mp hl, extLine]
      split_ifs <;> rfl
  | ICmp c a b =>
    refine clear_of_base fun l hl => Or.inl ?_
    cases dest <;> simp only [selectedLines, List.mem_cons, List.not_mem_nil, or_false] at hl
    · rw [hl]
      rfl
    · rcases hl with rfl | rfl <;> rfl
  | WriteReg r v =>
    refine clear_of_base fun l hl => Or.inr ?_
    rw [List.mem_singleton.mp hl]
    rfl
  | ReadReg r | BinOp op a b ty | Trunc src dst | GetPC =>
    refine clear_of_base fun l hl => ?_
    cases dest with
    | none => cases hl
    | some d =>
      rw [List.mem_singleton.mp hl]
      simp [Line.base]

/-- The lines of a block miss the struct if its accesses do. -/
theorem run_clear (hw : WellTyped bb) (hap : AddrsApart bb) (hsplit : bb.insts = done ++ rest)
    (hR : Rel done base s h)
    (ha : Along (IR.exec bb.start) (Allows (Misses h.addr base)) rest s) :
    Along (Line.exec (.phys 0)) (Line.Clear (.phys 0))
      (linesAll bb.start (bb.insts.length + 1 + tempCount done) rest) h := by
  induction rest generalizing done s h with
  | nil => trivial
  | cons i rest ih =>
    have hi : bb.insts[done.length]? = some i := by
      rw [hsplit, List.getElem?_append_right le_rfl, Nat.sub_self]
      rfl
    have htake : bb.insts.take done.length = done := by
      rw [hsplit, List.take_left]
    have hp := hw.payload _ _ hi
    have hfresh := hap _ _ hi
    rw [htake] at hp hfresh
    have hstep : Steps done base bb.start (bb.insts.length + 1 + tempCount done) i s h :=
      hR.step (hw.dest _ _ hi) hp hfresh
    obtain ⟨s₁, h₁, hs₁, hh₁, hR₁⟩ := hstep
    refine along_append.mpr ⟨hR.clear hp hfresh ha.1, fun t ht => ?_⟩
    obtain rfl : h₁ = t := Option.some.inj (hh₁.symm.trans ht)
    have hk : tempCount (done ++ [i]) = tempCount done + temps i := by
      rw [tempCount_append]
      rfl
    rw [Nat.add_assoc, ← hk]
    refine ih (by rw [hsplit, List.append_assoc]; rfl) hR₁ ?_
    rw [runLines_addr hh₁]
    exact ha.2 s₁ hs₁

end Selected

section Virtual
variable {bb : IR.Block} {regs : ℕ → BitVec 64} {mem : Memory 64} {base : BitVec 64}
  {h t : Host VName} {s : IR.State} {e : IR.Exit}

theorem blockLines_names {l : Line VName} (hl : l ∈ blockLines bb) :
    l.base ≠ some (.phys noReg) ∧ l.dest ≠ some (.phys 0) := by
  have hne : (noReg : PReg) ≠ 0 ∧ (noReg : PReg) ≠ 21 := by decide
  rw [blockLines, List.cons_append, List.mem_cons, List.mem_append] at hl
  rcases hl with rfl | hl | hl
  · simp [Line.base, Line.dest, hne.1.symm]
  · obtain ⟨c, -, hm⟩ := forall₂_mem_right matches_selectedAll hl
    refine ⟨fun hb => ?_, hm.dest 0⟩
    rcases hm.reads _ (Line.base_reads hb) with h0 | h0
    · exact hne.1 h0
    · exact hne.2 h0
  · have hocc := termLines_occurs hl
    refine ⟨fun hb => hocc.2.1 _ (Line.base_reads hb), fun hd => ?_⟩
    cases hocc.2.2 _ hd

theorem termLines_base {t : Terminator} {l : Line VName} (hl : l ∈ termLines t) :
    l.base = none := by
  unfold termLines at hl
  split at hl
  · rw [List.mem_singleton.mp hl]
    rfl
  · rw [List.mem_singleton.mp hl]
    rfl
  · cases hl

/-- With the state struct in memory, selected lines take the host where the block takes the
guest. -/
theorem block_inMemory (hw : WellTyped bb) (hfit : Fits bb) (he : HostEntry regs mem base h)
    (ha : Along (IR.exec bb.start) (Allows (Misses h.addr base)) bb.insts (entryState regs mem))
    (hrun : bb.run regs mem = some (s, e)) (hin : InMemory h t) :
    ∃ h' t', runLines (.phys noReg) (blockLines bb) t = some t' ∧ InMemory h' t' ∧
      h'.addr = h.addr ∧ (∀ r < 32, h'.words r = s.regs r) ∧ h'.words 32 = base ∧
      (∀ a, h'.mem (a + base) = s.mem a) ∧
      exitOf (.phys 1) t' (termJumps (selectedTerm bb.term)) = some (Exit.ofIR e) := by
  obtain ⟨s', hs, hrun⟩ := Option.bind_eq_some_iff.mp hrun
  obtain ⟨e', hexit, hse⟩ := Option.bind_eq_some_iff.mp hrun
  cases hse
  have hnil : bb.insts = [] ++ bb.insts := rfl
  obtain ⟨s₁, h', hs₁, hlines, hwords, htop, hmem, hleave⟩ := blockLines_simulate hw hfit.apart he
  obtain rfl : s = s₁ := Option.some.inj (hs.symm.trans hs₁)
  have hclear : Along (Line.exec (.phys 0)) (Line.Clear (.phys 0)) (blockLines bb) h := by
    refine ⟨fun a n hc => (by cases hc), fun u hu => along_append.mpr ⟨?_, fun u' _ => ?_⟩⟩
    · obtain rfl := Option.some.inj (he.prologue.symm.trans hu)
      exact run_clear hw hfit.apart hnil he.rel ha
    · exact clear_of_base fun l hl => Or.inl (termLines_base hl)
  obtain ⟨t', ht, hin'⟩ := hin.run he.x0 (fun l hl => (blockLines_names hl).1)
    (fun l hl => (blockLines_names hl).2) hclear hlines
  refine ⟨h', t', ht, hin', runLines_addr hlines, hwords, htop, hmem, ?_⟩
  rw [exitOf_congr hin'.flags fun _ => congrFun hin'.r _, hleave, hexit]
  rfl

end Virtual

section Allocated
variable {reader : MemoryReader} {entry : BitVec 64} {cfg : CFG} {o : ItemOrders} {bb : BasicBlock}
  {asm : AsmBlock PReg}

/-- No other register gets the place of the first one before its last use. -/
def KeepsFirst (o : ItemOrders) (bb : BasicBlock) : Prop :=
  ∀ blk asg, translateBlock o bb = .ok (blk, asg) → ∀ v lv l₁, v ≠ 1 →
    (pipelineLive bb).lookup v = some lv → (pipelineLive bb).lookup 1 = some l₁ →
      asg v = asg 1 → l₁.last ≤ lv.start

theorem pipeline_short (hb : WellBuilt reader bb) (hs : Short bb) :
    pipelineBlock bb = selectedBlock (lifted bb) ∧ pipelineLive bb = liveMap bb := by
  have hblock : pipelineBlock bb = selectedBlock (lifted bb) :=
    Except.ok.inj ((select_lifted bb).symm.trans (hs.passes hb).select)
  refine ⟨hblock, ?_⟩
  rw [pipelineLive, hblock]
  rfl

/-- A block is allocated in the order that its items are given. -/
theorem translateBlock_short (hb : WellBuilt reader bb) (hs : Short bb) {blk : Block}
    {asg : RegAssignment} (ht : translateBlock o bb = .ok (blk, asg)) :
    blk = selectedBlock (lifted bb) ∧
      ∃ items, ItemOrder (liveMap bb) items ∧ allocate items = .ok asg := by
  obtain ⟨hblock, hlive⟩ := pipeline_short hb hs
  obtain ⟨rfl, ha⟩ := translateBlock_inv hb ht
  exact ⟨hblock, _, hlive ▸ o.ordered _ _, ha⟩

theorem KeepsFirst.mergedBy (hk : KeepsFirst o bb) (hb : WellBuilt reader bb) (hs : Short bb)
    {blk : Block} {asg : RegAssignment} (ht : translateBlock o bb = .ok (blk, asg)) :
    ∃ M, MergedBy (liveMap bb) asg [1] M := by
  have hkeep := hk blk asg ht
  rw [(pipeline_short hb hs).2] at hkeep
  refine ⟨((liveMap bb).lookup 1).elim 0 LiveRange.last, List.mem_singleton_self 1, ?_, ?_, ?_⟩
  · intro u hu
    rw [List.mem_singleton.mp hu]
  · intro u hu lr hl
    rw [List.mem_singleton.mp hu] at hl
    rw [hl]
    exact le_rfl
  · intro w lr hw hl hasg
    cases h1 : (liveMap bb).lookup 1 with
    | none => exact Nat.zero_le _
    | some l₁ => exact hkeep w lr l₁ (fun h => hw (List.mem_singleton.mpr h)) hl h1 hasg

/-- Code that does not start on two operands keeps its first register, whatever the order. -/
theorem keepsFirst_of_merges (hcfg : cfg.Sound reader entry) (hbb : bb ∈ cfg.blocks)
    (hs : Short bb) (hno : merges (firstLowering bb.insts) = []) : KeepsFirst o bb := by
  intro blk asg ht v lv l₁ hv hl h1 hasg
  have hb := hcfg.built bb hbb
  obtain ⟨-, items, ho, ha⟩ := translateBlock_short hb hs ht
  rw [(pipeline_short hb hs).2] at hl h1
  obtain ⟨M, hm⟩ := merged_own hb (WellBuilt.blockExit hcfg hbb) hs hno ho ha
  exact (hm.last 1 hm.one _ h1).trans
    (hm.apart v lv (fun h => hv (List.mem_singleton.mp h)) hl hasg)

/-- Lines in the registers of an allocation follow the lines, with the struct in memory. -/
theorem MergedBy.follows {b : Block} {ls : List (Line VName)} {asg : RegAssignment} {M : ℕ}
    {items : List Item} (h : Lines b ls) (hm : MergedBy (touchAll ∅ (touches b)) asg [1] M)
    (ho : ItemOrder (touchAll ∅ (touches b)) items) (ha : allocate items = .ok asg)
    (hbase : ∀ l ∈ ls ++ termLines b.term, ∀ n, l.base = some n → names asg n ≠ noReg)
    {q : PReg → BitVec 64} {r : VName → BitVec 64} {u : Rest} (h0 : r (.phys 0) = q 0)
    (h21 : r (.phys 21) = q 21) {t' : Host VName}
    (hrun : runLines (.phys noReg) (ls ++ termLines b.term) (u.host r) = some t') :
    ∃ h', runLines noReg ((ls ++ termLines b.term).map (Line.map (names asg))) (u.host q) =
      some h' ∧ h'.rest = t'.rest := by
  have hone : (ls ++ termLines b.term).map (Line.map (merged [1])) = ls ++ termLines b.term :=
    congrArg AsmBlock.lines (mergedBlock_one ⟨"", _, []⟩)
  have hid : (ls ++ termLines b.term).map (Line.map (id : VName → VName)) =
      ls ++ termLines b.term := by
    rw [funext Line.map_id]
    exact List.map_id _
  have hsame : Renaming.SameNames (mergedInstrs [1] (ls ++ termLines b.term))
      ((ls ++ termLines b.term).map (Line.toInstr (.phys noReg))) := by
    rw [Renaming.SameNames, mergedInstrs, hone, List.map_map, List.map_map]
    rfl
  have hrel := Renaming.run_rel ((hm.allocation h ho ha).ofNames hsame) (r := r) (q := q) ?_ u
  · have hphys := runLines_map (.phys noReg) (names asg) (ls ++ termLines b.term)
      (fun l hl n hn he => absurd he (hbase l hl n hn)) q u
    have hvirt := runLines_map (.phys noReg) (id : VName → VName) (ls ++ termLines b.term)
      (fun _ _ _ _ he => he) r u
    rw [hid, show id (VName.phys noReg) = .phys noReg from rfl, hrun] at hvirt
    obtain ⟨c, hc, rfl⟩ := Option.map_eq_some_iff.mp hvirt.symm
    rw [hc] at hrel
    generalize Renaming.run (names asg) ((ls ++ termLines b.term).map (Line.toInstr (.phys noReg)))
      (q, u) = y at hrel hphys
    cases hrel with
    | @some _ c' hcc =>
      refine ⟨c'.2.host c'.1, hphys, ?_⟩
      rw [← hcc.1]
      rfl
  · rintro g (rfl | rfl)
    · exact h0.symm
    · exact h21.symm

/-- The printed lines do in the registers of the allocation what the selected lines do in
registers of their own. -/
theorem PrintedAs.follows (hcfg : cfg.Sound reader entry) (hbb : bb ∈ cfg.blocks)
    (hs : Short bb) (hk : KeepsFirst o bb) (hp : PrintedAs o bb asm) {q : PReg → BitVec 64}
    {r : VName → BitVec 64} {u : Rest} (hr : r (.phys 0) = q 0) {t' : Host VName}
    (hrun : runLines (.phys noReg) (blockLines (lifted bb)) (u.host r) = some t') :
    ∃ h', runLines noReg asm.lines (u.host q) = some h' ∧ h'.rest = t'.rest := by
  have hb := hcfg.built bb hbb
  have hexit := WellBuilt.blockExit hcfg hbb
  have hbase := hp.base hb
  obtain ⟨blk, asg, ht, ha⟩ := hp
  obtain ⟨rfl, items, ho, hal⟩ := translateBlock_short hb hs ht
  obtain ⟨M, hm⟩ := hk.mergedBy hb hs ht
  have has := assigned_of_allocate ho hal
  rw [emitBlock_eq (liftTerm_ok ..) has.instrs has.term] at ha
  cases ha
  -- The prologue loads the same word on both sides.
  obtain ⟨v, hv⟩ : ∃ v, v = Size.x.extend (read u.mem (q 0 + (256 : BitVec 32).signExtend 64) 8) :=
    ⟨_, rfl⟩
  have hphys : (prologue (id : PReg → PReg)).exec noReg (u.host q) =
      some (u.host (Function.update q 21 v)) := by
    rw [hv, prologue, Line.exec, if_neg (by decide)]
    rfl
  have hvirt : (prologue VName.phys).exec (.phys noReg) (u.host r) =
      some (u.host (Function.update r (.phys 21) v)) := by
    rw [hv, ← hr, prologue, Line.exec, if_neg (by decide)]
    rfl
  change ((prologue VName.phys).exec (.phys noReg) (u.host r)).bind
    (runLines (.phys noReg) (linesAll bb.start ((lifted bb).insts.length + 1) (lifted bb).insts ++
      termLines (selectedBlock (lifted bb)).term)) = _ at hrun
  rw [hvirt, Option.bind_some] at hrun
  have hnames : ∀ l ∈ linesAll bb.start ((lifted bb).insts.length + 1) (lifted bb).insts ++
      termLines (selectedBlock (lifted bb)).term, ∀ n, l.base = some n → names asg n ≠ noReg := by
    intro l hl n hn he
    refine hbase (l.map (names asg)) (List.mem_cons_of_mem _ (List.mem_map_of_mem hl)) ?_
    rw [Line.base_map, hn, ← he]
    rfl
  have h0 : Function.update r (.phys 21) v (.phys 0) = Function.update q 21 v 0 := by
    rw [Function.update_of_ne (by simp), Function.update_of_ne (by decide), hr]
  have h21 : Function.update r (.phys 21) v (.phys 21) = Function.update q 21 v 21 := by
    rw [Function.update_self, Function.update_self]
  obtain ⟨h', hh, hrest⟩ := hm.follows (lifted_lines hexit hs) ho hal hnames h0 h21 hrun
  refine ⟨h', ?_, hrest⟩
  change ((prologue (id : PReg → PReg)).exec noReg (u.host q)).bind
    (runLines noReg ((linesAll bb.start ((lifted bb).insts.length + 1) (lifted bb).insts ++
      termLines (selectedBlock (lifted bb)).term).map (Line.map (names asg)))) = _
  rw [hphys]
  exact hh

end Allocated

section Guest
variable {reader : MemoryReader} {pc : BitVec 64} {cfg : CFG} {o : ItemOrders} {bb : BasicBlock}
  {asm : AsmBlock PReg} {a base : BitVec 64} {b : Machine} {e : IR.Exit} {regs : ℕ → BitVec 64}
  {mem : Memory 64} {h : Host PReg}

/-- The guest in the memory of the host: its registers and memory base in the struct at `a`, and
its memory from the base on, where the struct leaves room for it. -/
structure GuestAt (a base : BitVec 64) (regs : ℕ → BitVec 64) (mem hostMem : Memory 64) :
    Prop where
  regs : ∀ r < 32, BitVec.ofNat 64 (wordAt hostMem a r) = regs r
  top : BitVec.ofNat 64 (wordAt hostMem a 32) = base
  mem : ∀ x, Outside a (x + base) → hostMem (x + base) = mem x

/-- The host of the selected lines that has the guest of `h`. -/
def GuestAt.host (a base : BitVec 64) (mem : Memory 64) (h : Host PReg) : Host VName :=
  ⟨fun _ => a, h.flags, a, fun k => BitVec.ofNat 64 (wordAt h.mem a k), fun x => mem (x - base)⟩

theorem GuestAt.entry (hg : GuestAt a base regs mem h.mem) :
    HostEntry regs mem base (GuestAt.host a base mem h) where
  regs := hg.regs
  top := hg.top
  mem x := congrArg mem (BitVec.add_sub_cancel x base)
  x0 := rfl

theorem GuestAt.inMemory (hg : GuestAt a base regs mem h.mem) :
    InMemory (GuestAt.host a base mem h) (h.rest.host fun _ => a) where
  r := rfl
  flags := rfl
  words _ _ := rfl
  mem x hx := by
    have hback : x - base + base = x := BitVec.sub_add_cancel x base
    have hmem := hg.mem (x - base)
    rw [hback] at hmem
    exact hmem hx

theorem bl_indirect (hbl : .bl ∈ termJumps (selectedTerm (lifted bb).term)) :
    bb.term = .IndirectJump := by
  change .bl ∈ termJumps (selectedTerm (liftTerm bb (emitted 0 bb.insts))) at hbl
  unfold liftTerm at hbl
  split at hbl <;> first
    | assumption
    | simp [selectedTerm, termJumps] at hbl

/-- A block of the guest that touches nothing of the state struct is what its printed block does on
the host. -/
theorem PrintedAs.block_run (hcfg : cfg.Sound reader pc) (hbb : bb ∈ cfg.blocks)
    (hs : Short bb) (hsize : irSize bb.insts < 2 ^ 31) (hk : KeepsFirst o bb)
    (hp : PrintedAs o bb asm) (hout : RunsOut cfg (Misses a base) b bb e regs mem)
    (hne : ∀ t, e ≠ .indirect t) (h0 : h.r 0 = a) (hg : GuestAt a base b.regs.x b.mem h.mem) :
    ∃ h', asm.run noReg 1 h = some (h', Exit.ofIR e) ∧ GuestAt a base regs mem h'.mem ∧
      ∀ n, Untouched n → h'.r n = h.r n := by
  have hb := hcfg.built bb hbb
  obtain ⟨irb, s, hl, hrun, rfl, rfl⟩ := hout.ends
  obtain ⟨-, hstart⟩ := (hcfg.blockAt_iff b.pc bb).mp hout.block
  have hirb : irb = lifted bb := by
    rw [hcfg.lifted_eq hout.block] at hl
    cases hl
    rw [lifted, hstart]
  subst hirb
  have halong : Along (IR.exec (lifted bb).start) (Allows (Misses a base)) (lifted bb).insts
      (entryState b.regs.x b.mem) := by
    have halong := hout.along
    rw [← hstart] at halong
    exact halong
  obtain ⟨hv, t', ht, hin, haddr, hregs, htop, hmem, hexit⟩ :=
    block_inMemory (lifted_typed hb hsize hout.plain) hs.fits hg.entry halong hrun hg.inMemory
  obtain ⟨h', hh', hrest⟩ := hp.follows hcfg hbb hs hk (q := h.r) h0.symm ht
  obtain ⟨t, e', hasm, hlines, -, hkeep⟩ := hp.run hcfg hbb h
  obtain rfl : h' = t := Option.some.inj (hh'.symm.trans hlines)
  have hmem' : h'.mem = t'.mem := congrArg Rest.mem hrest
  have hexit' : exitOf 1 h' asm.jumps = some (Exit.ofIR e) := by
    rw [hp.jumps hb, ← hexit]
    refine exitOf_congr (congrArg Rest.flags hrest) fun hbl => ?_
    exfalso
    have hterm := bl_indirect hbl
    obtain ⟨_, -, hrun⟩ := Option.bind_eq_some_iff.mp hrun
    obtain ⟨e', he, hse⟩ := Option.bind_eq_some_iff.mp hrun
    cases hse
    simp only [lifted, liftTerm, hterm, IR.exitOf] at he
    obtain ⟨x, -, rfl⟩ := Option.map_eq_some_iff.mp he
    exact hne x rfl
  refine ⟨h', ?_, ⟨?_, ?_, ?_⟩, hkeep⟩
  · rw [AsmBlock.run, hlines]
    exact congrArg (Option.bind · _) hexit'
  · intro r hr
    have hw := hin.words r (by omega)
    rw [haddr] at hw
    rw [hmem', ← hregs r hr]
    exact hw
  · have hw := hin.words 32 (by omega)
    rw [haddr] at hw
    rw [hmem', ← htop]
    exact hw
  · intro x hx
    rw [hmem', ← hmem x]
    refine hin.mem _ ?_
    rw [haddr]
    exact hx

end Guest

end Riscy.AArch64
