import Riscy.AArch64Emitter
import Riscy.AArch64Lifted
import Riscy.RISCVSimulation

/-! The whole pipeline on a CFG: the blocks in address order are lifted, selected,
analysed, allocated and emitted. No step of it faults on a CFG that `build` returns. -/
namespace Riscy
open RISCV AArch64

/-- The orders in which allocation meets the registers of each block. -/
structure ItemOrders where
  order : AArch64.Block → LivenessMap → List Item
  ordered : ∀ b live, ItemOrder live (order b live)

/-- The registers of the map in its own order, sorted by the start of their ranges. -/
def sortedItems (live : LivenessMap) : List Item :=
  (live.entries.map fun e => ⟨e.1, e.2⟩).mergeSort fun a b => a.lr.start ≤ b.lr.start

theorem sortedItems_order (live : LivenessMap) : ItemOrder live (sortedItems live) where
  perm := List.mergeSort_perm _ _
  starts := by
    have h := @List.pairwise_mergeSort _ (fun a b : Item => a.lr.start ≤ b.lr.start)
      (fun a b c hab hbc => by
        simp only [decide_eq_true_eq] at hab hbc ⊢
        exact hab.trans hbc)
      (fun a b => by
        simp only [Bool.or_eq_true, decide_eq_true_eq]
        exact le_total _ _)
      (live.entries.map fun e => (⟨e.1, e.2⟩ : Item))
    exact h.imp of_decide_eq_true

instance : Inhabited ItemOrders := ⟨⟨fun _ => sortedItems, fun _ => sortedItems_order⟩⟩

def translateBlock (o : ItemOrders) (bb : BasicBlock) :
    Except Fault (AArch64.Block × RegAssignment) := do
  let irbb ← lift bb
  let blk ← select irbb
  let live ← analyze blk
  let asg ← allocate (o.order blk live)
  return (blk, asg)

/-- Block addresses in ascending order. -/
def addresses (cfg : CFG) : List (BitVec 64) :=
  cfg.indexByAddr.keys.mergeSort fun a b => a.toNat ≤ b.toNat

def translateAt (o : ItemOrders) (cfg : CFG) (a : BitVec 64) :
    Except Fault (AArch64.Block × RegAssignment) :=
  match cfg.blockAt a with
  | some bb => translateBlock o bb
  | none => .error .operandOutOfRange

def translate (o : ItemOrders) (cfg : CFG) : Except Fault ModuleAsm := do
  let pairs ← (addresses cfg).mapM (translateAt o cfg)
  emit (pairs.map Prod.fst) (pairs.map Prod.snd) cfg.entry

section Build
variable {mem : MemoryReader}

theorem scan_ok {known : BitVec 64 → Bool} {start : BitVec 64} {fuel : ℕ} {pc : BitVec 64}
    {insts : List DecodedInst} {r : Except Fault BasicBlock}
    (h : scan mem known start fuel pc insts = some r) : ∃ bb, r = .ok bb := by
  induction fuel generalizing pc insts with
  | zero => simp [scan] at h
  | succ fuel ih =>
    unfold scan at h
    split_ifs at h with hk
    · cases h
      exact ⟨_, rfl⟩
    · cases hd : decodeNext mem pc with
      | error e =>
        simp only [hd] at h
        cases h
        exact ⟨_, rfl⟩
      | ok inst =>
        obtain ⟨e, he⟩ := (decodeNext_shaped hd).exits
        simp only [hd, he] at h
        cases e with
        | none => exact ih h
        | some e =>
          cases h
          exact ⟨_, rfl⟩

theorem buildLoop_ok {entry : BitVec 64} {fuel : ℕ} {s : BuildState} {r : Except Fault CFG}
    (h : buildLoop mem entry fuel s = some r) : ∃ cfg, r = .ok cfg := by
  induction fuel generalizing s with
  | zero => simp [buildLoop] at h
  | succ fuel ih =>
    unfold buildLoop at h
    split at h
    · cases h
      exact ⟨_, rfl⟩
    · dsimp only at h
      split_ifs at h with hb
      · exact ih h
      · split at h
        · cases h
        next e hscan =>
          obtain ⟨bb, hbb⟩ := scan_ok hscan
          cases hbb
        · exact ih h

/-- A CFG builder that terminates returns a CFG. -/
theorem build_ok {entry : BitVec 64} {fuel : ℕ} {r : Except Fault CFG}
    (h : build fuel mem entry = some r) : ∃ cfg, r = .ok cfg ∧ Builds mem entry cfg := by
  obtain ⟨cfg, rfl⟩ := buildLoop_ok h
  exact ⟨cfg, rfl, fuel, h⟩

end Build

section Total
variable {mem : MemoryReader} {bb : BasicBlock}

/-- The liveness map of a block. -/
def liveMap (bb : BasicBlock) : LivenessMap := touchAll ∅ (touches (selectedBlock (lifted bb)))

/-- What the passes leave for the emitter: the selected block, and an assignment in which
no register of it is missing. -/
structure Assigned (bb : BasicBlock) (asg : RegAssignment) : Prop where
  instrs : ∀ c ∈ (selectedBlock (lifted bb)).instrs, ∀ v ∈ c.vregs, ∃ p, asg v = some p
  term : ∀ v ∈ (selectedBlock (lifted bb)).term.vregs, ∃ p, asg v = some p

theorem assigned_of_allocate {items : List Item} (ho : ItemOrder (liveMap bb) items)
    {asg : RegAssignment} (ha : allocate items = .ok asg) : Assigned bb asg := by
  have htouched : ∀ v p, (v, p) ∈ touches (selectedBlock (lifted bb)) → ∃ p, asg v = some p := by
    intro v p hp
    cases hl : (liveMap bb).lookup v with
    | none => exact absurd hp ((lookup_touchAll _ v).2 hl p)
    | some lr =>
      obtain ⟨q, -, hq⟩ := (ho.allocated ha).1 v lr hl
      exact ⟨q, hq⟩
  constructor
  · intro c hc v hv
    obtain ⟨j, hj⟩ := List.mem_iff_getElem?.mp hc
    exact htouched v _ (List.mem_append_left _ (mem_touchesFrom.mpr ⟨j, c, hj, hv, rfl⟩))
  · intro v hv
    exact htouched v _ (List.mem_append_right _ (List.mem_map_of_mem hv))

theorem translateBlock_ok (h : WellBuilt mem bb) (hsize : irSize bb.insts < 2 ^ 31)
    (o : ItemOrders) :
    ∃ asg, translateBlock o bb = .ok (selectedBlock (lifted bb), asg) ∧ Assigned bb asg := by
  have hsel : select (lifted bb) = .ok (selectedBlock (lifted bb)) :=
    select_eq (lifted_selectOk (by omega))
  have hlive : analyze (selectedBlock (lifted bb)) = .ok (liveMap bb) :=
    analyze_eq (selectedTerm_complete _)
  have ho := o.ordered (selectedBlock (lifted bb)) (liveMap bb)
  obtain ⟨asg, hasg⟩ := ho.allocate_ok (lifted_pressure h hsize ho)
  refine ⟨asg, ?_, assigned_of_allocate ho hasg⟩
  simp only [translateBlock, h.lift_eq]
  change (select (lifted bb) >>= _) = _
  simp only [hsel, hlive, hasg, bind, Except.bind]
  rfl

/-- The block is emitted, every instruction of it as one line. -/
theorem Assigned.emitted {asg : RegAssignment} (h : Assigned bb asg) :
    ∃ asm body rest, emitBlock (selectedBlock (lifted bb)) asg = .ok asm ∧
      asm.lines = prologue id :: body ++ rest ∧
      Prints id (mapV asg) (selectedBlock (lifted bb)).instrs body := by
  have hnamed : ∀ c ∈ (selectedBlock (lifted bb)).instrs, Named (mapV asg) (names asg) c := by
    intro c hc v hv
    obtain ⟨p, hp⟩ := h.instrs c hc v hv
    exact mapV_eq hp
  have hphys : ∀ p, names asg (.phys p) = id p := fun _ => rfl
  refine ⟨_, _, (termLines (selectedTerm (lifted bb).term)).map (Line.map (names asg)),
    emitBlock_eq (liftTerm_ok ..) h.instrs h.term, ?_, prints_selectedAll hphys hnamed⟩
  rw [blockLines, List.map_append]
  rfl

end Total

section Module

theorem mapM_ok {α β : Type} {f : α → Except Fault β} {l : List α}
    (h : ∀ a ∈ l, ∃ b, f a = .ok b) :
    ∃ bs, l.mapM f = .ok bs ∧ List.Forall₂ (fun a b => f a = .ok b) l bs := by
  induction l with
  | nil => exact ⟨[], rfl, .nil⟩
  | cons a l ih =>
    obtain ⟨b, hb⟩ := h a (by simp)
    obtain ⟨bs, hbs, hall⟩ := ih fun x hx => h x (List.mem_cons_of_mem _ hx)
    refine ⟨b :: bs, ?_, .cons hb hall⟩
    rw [List.mapM_cons, hb, hbs]
    rfl

theorem emitBlocks_ok {pairs : List (AArch64.Block × RegAssignment)}
    (h : ∀ p ∈ pairs, ∃ asm, emitBlock p.1 p.2 = .ok asm) :
    ∃ asms, emitBlocks (pairs.map Prod.fst) (pairs.map Prod.snd) = .ok asms ∧
      List.Forall₂ (fun p asm => emitBlock p.1 p.2 = .ok asm) pairs asms := by
  induction pairs with
  | nil => exact ⟨[], rfl, .nil⟩
  | cons p pairs ih =>
    obtain ⟨asm, hasm⟩ := h p (by simp)
    obtain ⟨asms, hasms, hall⟩ := ih fun x hx => h x (List.mem_cons_of_mem _ hx)
    refine ⟨asm :: asms, ?_, .cons hasm hall⟩
    simp only [List.map_cons, emitBlocks, hasm, hasms, bind, Except.bind]
    rfl

theorem forall₂_mem {α β : Type} {R : α → β → Prop} {l : List α} {m : List β}
    (h : List.Forall₂ R l m) {a : α} (ha : a ∈ l) : ∃ b ∈ m, R a b := by
  induction h with
  | nil => cases ha
  | @cons x y l m hxy _ ih =>
    rcases List.mem_cons.mp ha with rfl | ha
    · exact ⟨y, by simp, hxy⟩
    · obtain ⟨b, hb, hab⟩ := ih ha
      exact ⟨b, List.mem_cons_of_mem _ hb, hab⟩

theorem forall₂_mem_right {α β : Type} {R : α → β → Prop} {l : List α} {m : List β}
    (h : List.Forall₂ R l m) {b : β} (hb : b ∈ m) : ∃ a ∈ l, R a b :=
  forall₂_mem h.flip hb

theorem mem_addresses {cfg : CFG} {a : BitVec 64} :
    a ∈ addresses cfg ↔ a ∈ cfg.indexByAddr := by
  rw [addresses, List.mem_mergeSort]
  exact AList.mem_keys.symm

/-- The translation of a block, printed line by line into the module. -/
def PrintedIn (m : ModuleAsm) (o : ItemOrders) (bb : BasicBlock) : Prop :=
  ∃ blk asg asm body rest, translateBlock o bb = .ok (blk, asg) ∧
    emitBlock blk asg = .ok asm ∧ asm ∈ m.blocks ∧
    asm.lines = prologue id :: body ++ rest ∧ Prints id (mapV asg) blk.instrs body

/-- Blocks that are short enough are translated into a module, which prints every
selected instruction. -/
theorem translates_short {mem : MemoryReader} {entry : BitVec 64} {cfg : CFG}
    (hsound : cfg.Sound mem entry) (hsize : ∀ bb ∈ cfg.blocks, irSize bb.insts < 2 ^ 31)
    (o : ItemOrders) :
    ∃ m, translate o cfg = .ok m ∧ ∀ bb ∈ cfg.blocks, PrintedIn m o bb := by
  have hat : ∀ a ∈ addresses cfg, ∃ bb ∈ cfg.blocks, cfg.blockAt a = some bb := by
    intro a ha
    obtain ⟨bb, hbb⟩ := hsound.blockAt_of_mem (mem_addresses.mp ha)
    exact ⟨bb, ((hsound.blockAt_iff a bb).mp hbb).1, hbb⟩
  have hstep : ∀ a ∈ addresses cfg, ∃ p, translateAt o cfg a = .ok p := by
    intro a ha
    obtain ⟨bb, hmem, hbb⟩ := hat a ha
    obtain ⟨asg, hasg, -⟩ := translateBlock_ok (hsound.built bb hmem) (hsize bb hmem) o
    exact ⟨_, by rw [translateAt, hbb]; exact hasg⟩
  obtain ⟨pairs, hpairs, hall⟩ := mapM_ok hstep
  have hpair : ∀ p ∈ pairs, ∃ bb ∈ cfg.blocks, translateBlock o bb = .ok p := by
    intro p hp
    obtain ⟨a, ha, hap⟩ := forall₂_mem_right hall hp
    obtain ⟨bb, hmem, hbb⟩ := hat a ha
    rw [translateAt, hbb] at hap
    exact ⟨bb, hmem, hap⟩
  have hemit : ∀ bb ∈ cfg.blocks, ∀ p, translateBlock o bb = .ok p → ∃ asm body rest,
      emitBlock p.1 p.2 = .ok asm ∧ asm.lines = prologue id :: body ++ rest ∧
        Prints id (mapV p.2) p.1.instrs body := by
    intro bb hmem p hp
    obtain ⟨asg, hasg, has⟩ := translateBlock_ok (hsound.built bb hmem) (hsize bb hmem) o
    rw [hasg] at hp
    cases hp
    exact has.emitted
  have hasm : ∀ p ∈ pairs, ∃ asm, emitBlock p.1 p.2 = .ok asm := by
    intro p hp
    obtain ⟨bb, hmem, hbb⟩ := hpair p hp
    obtain ⟨asm, -, -, hasm, -⟩ := hemit bb hmem p hbb
    exact ⟨asm, hasm⟩
  obtain ⟨asms, hasms, hprint⟩ := emitBlocks_ok hasm
  refine ⟨_, by simp only [translate, hpairs, emit, hasms, bind, Except.bind]; rfl, ?_⟩
  intro bb hmem
  have haddr : bb.start ∈ addresses cfg := mem_addresses.mpr (hsound.start_key hmem)
  obtain ⟨p, hp, hpa⟩ := forall₂_mem hall haddr
  have hbb : cfg.blockAt bb.start = some bb := (hsound.blockAt_iff _ _).mpr ⟨hmem, rfl⟩
  rw [translateAt, hbb] at hpa
  obtain ⟨asm, hin, hasm⟩ := forall₂_mem hprint hp
  obtain ⟨asm', body, rest, hasm', hlines, hprints⟩ := hemit bb hmem p hpa
  rw [hasm] at hasm'
  cases hasm'
  exact ⟨p.1, p.2, asm, body, rest, hpa, hasm, hin, hlines, hprints⟩

/-- Whenever the builder terminates, the pipeline runs to its end without a fault, and
prints every selected instruction. -/
theorem translate_ok {mem : MemoryReader} {entry : BitVec 64} {fuel : ℕ}
    {r : Except Fault CFG} (hb : build fuel mem entry = some r)
    (hlift : ∀ cfg, r = .ok cfg → ∀ bb ∈ cfg.blocks, ∀ ir, lift bb = .ok ir →
      ir.insts.length < 2 ^ 31) (o : ItemOrders) :
    ∃ cfg m, r = .ok cfg ∧ translate o cfg = .ok m ∧ ∀ bb ∈ cfg.blocks, PrintedIn m o bb := by
  obtain ⟨cfg, rfl, hbuilds⟩ := build_ok hb
  have hsound := hbuilds.sound
  have hsize : ∀ bb ∈ cfg.blocks, irSize bb.insts < 2 ^ 31 := by
    intro bb hbb
    rw [← lifted_length]
    exact hlift cfg rfl bb hbb _ (hsound.built bb hbb).lift_eq
  obtain ⟨m, hm, hall⟩ := translates_short hsound hsize o
  exact ⟨cfg, m, rfl, hm, hall⟩

/-- `addi x0, x0, 0` and a taken branch: three blocks are translated. -/
theorem short_branch_translated : ∃ m, translate default (longCFG 1) = .ok m ∧
    ∀ bb ∈ (longCFG 1).blocks, PrintedIn m default bb := by
  have hn : 1 < 2 ^ 40 := by omega
  obtain ⟨fuel, hf⟩ := long_builds hn
  have hlift : ∀ cfg, (.ok (longCFG 1) : Except Fault CFG) = .ok cfg → ∀ bb ∈ cfg.blocks, ∀ ir,
      lift bb = .ok ir → ir.insts.length < 2 ^ 31 := by
    intro cfg hc bb hbb ir hir
    cases hc
    rw [((long_builds hn).sound.built bb hbb).lift_eq] at hir
    cases hir
    change (lifted bb).insts.length < 2 ^ 31
    rw [lifted_length]
    simp only [longCFG, List.mem_cons, List.not_mem_nil, or_false] at hbb
    rcases hbb with rfl | rfl | rfl
    · rw [irSize_append, nops_size]
      change 3 * 1 + 3 < 2 ^ 31
      omega
    · change 0 < 2 ^ 31
      omega
    · change 0 < 2 ^ 31
      omega
  obtain ⟨cfg, m, hc, hm, hall⟩ := translate_ok hf hlift default
  cases hc
  exact ⟨m, hm, hall⟩

end Module

end Riscy
