import Riscy.AArch64PcRelative
import Riscy.AArch64AllocSound

/-! Selection of blocks of any length. Virtual registers are 32-bit numbers; as long as no
address temporary gets in the way, a register that wraps around is still one of its own. -/
namespace Riscy.AArch64
open IR (TypeKind)
open ByteMemory

/-- Names that wrap to names of their own. -/
def Wraps : VName → Prop
  | .virt v => 0 < v ∧ v ≤ 2 ^ 32
  | .phys _ => True

theorem wrap_inj {v w : ℕ} (hv : 0 < v) (hv' : v ≤ 2 ^ 32) (hw : 0 < w) (hw' : w ≤ 2 ^ 32)
    (h : v % 2 ^ 32 = w % 2 ^ 32) : v = w := by
  omega

theorem wrapName_injOn : Set.InjOn wrapName {n | Wraps n} := by
  intro n hn m hm h
  cases n with
  | phys p =>
    cases m with
    | phys q => exact h
    | virt w => cases h
  | virt v =>
    cases m with
    | phys q => cases h
    | virt w => rw [wrap_inj hn.1 hn.2 hm.1 hm.2 (VName.virt.inj h)]

section Names
variable {start : BitVec 64} {k : ℕ} {bb : IR.Block}

/-- Code of a block is the code of one of its instructions. -/
theorem mem_selectedAll {is : List IR.Instr} {c : Instr} (hc : c ∈ selectedAll start k is) :
    ∃ p i, is[p]? = some i ∧ c ∈ selected start (k + tempCount (is.take p)) i := by
  induction is generalizing k with
  | nil => cases hc
  | cons i is ih =>
    rcases List.mem_append.mp hc with hc | hc
    · exact ⟨0, i, rfl, hc⟩
    · obtain ⟨p, j, hj, hc⟩ := ih hc
      refine ⟨p + 1, j, hj, ?_⟩
      rwa [Nat.add_assoc] at hc

variable (hw : WellTyped bb) (hid : ∀ v ∈ defined bb.insts, v < 2 ^ 32) (hap : AddrsApart bb)
include hw hid hap

/-- Every name in the lines of a block has a number of its own. -/
theorem blockLines_wraps {l : Line VName} (hl : l ∈ blockLines bb) {n : VName}
    (hn : l.Occurs n) : Wraps n := by
  cases n with
  | phys p => trivial
  | virt v =>
    have hvalue : ∀ w ∈ defined bb.insts, Wraps (valueName w) := fun w hw =>
      ⟨Nat.succ_pos w, hid w hw⟩
    rw [blockLines, List.cons_append, List.mem_cons, List.mem_append] at hl
    rcases hl with rfl | hl | hl
    · simp [Line.Occurs, Line.reads, Line.dest] at hn
    · obtain ⟨c, hc, hm⟩ := forall₂_mem_right matches_selectedAll hl
      obtain ⟨p, i, hi, hc⟩ := mem_selectedAll hc
      rcases selected_vregs hc ((hm.vregs v).mp hn) with ⟨w, hw', rfl⟩ | ⟨ht, rfl⟩
      · exact hvalue w (hw.ids (List.mem_of_getElem? hi) hw')
      · have hpos := (hap p i hi ht).pos
        have hlt : addrReg (bb.insts.length + 1 + tempCount (bb.insts.take p)) < 2 ^ 32 :=
          Nat.mod_lt _ (by norm_num)
        exact ⟨Nat.pos_of_ne_zero hpos, hlt.le⟩
    · have hv := ((termLines_occurs hl).1 v).mp hn
      rw [selectedTerm_vregs] at hv
      obtain ⟨w, hw', rfl⟩ := List.mem_map.mp hv
      exact hvalue w (hw.term.ids hw')

/-- The lines of a block run under the wrapped names as they run under their own. -/
theorem run_wrapped {h h' : Host VName}
    (hrun : runLines (.phys 0) (blockLines bb) { h with r := h.r ∘ wrapName } = some h') :
    ∃ g, runLines (.phys 0) ((blockLines bb).map (Line.map wrapName)) h = some g ∧
      g.rest = h'.rest ∧ ∀ p, g.r (.phys p) = h'.r (.phys p) := by
  have hbase : ∀ l ∈ blockLines bb, ∀ b, l.base = some b → wrapName b = wrapName (.phys 0) →
      b = .phys 0 := by
    intro l _ b _ hb
    cases b with
    | virt v => cases hb
    | phys p => exact hb
  have hself : ∀ l ∈ blockLines bb, ∀ b, l.base = some b → id b = id (.phys 0) → b = .phys 0 :=
    fun _ _ _ _ hb => hb
  have hown := runLines_map (.phys 0) id (blockLines bb) hself (h.r ∘ wrapName) h.rest
  have hwrap := runLines_map (.phys 0) wrapName (blockLines bb) hbase h.r h.rest
  have hmap : (Line.map id : Line VName → Line VName) = id := funext Line.map_id
  rw [hmap, List.map_id] at hown
  have hnames : ∀ i ∈ (blockLines bb).map (Line.toInstr (.phys 0)), ∀ n, i.Occurs n →
      n ∈ {n | Wraps n} := by
    intro i hi n hn
    obtain ⟨l, hl, rfl⟩ := List.mem_map.mp hi
    exact blockLines_wraps hw hid hap hl hn
  have hregs : ∀ n ∈ {n | Wraps n}, h.r (wrapName n) = (h.r ∘ wrapName) n := fun _ _ => rfl
  have hrel := Renaming.run_injOn wrapName_injOn hnames hregs h.rest
  obtain ⟨c, hc, hch⟩ := Option.map_eq_some_iff.mp (hown.symm.trans hrun)
  rw [hc] at hrel
  cases hf : Renaming.run wrapName ((blockLines bb).map (Line.toInstr (.phys 0))) (h.r, h.rest) with
  | none =>
    rw [hf] at hrel
    cases hrel
  | some c' =>
    rw [hf] at hrel hwrap
    cases hrel with
    | some hrel =>
      refine ⟨c'.2.host c'.1, hwrap, ?_, fun p => ?_⟩
      · rw [← hch]
        exact hrel.1.symm
      · rw [← hch]
        exact hrel.2 (.phys p) trivial

end Names

/-- A block of any length is printed over virtual registers under their wrapped names. -/
theorem virtualBlock_wrap {bb : IR.Block} (ht : TermOk bb.term) :
    virtualBlock (selectedBlock bb).wrap = .ok ⟨blockLabel bb.start,
      (blockLines bb).map (Line.map wrapName), termJumps (selectedTerm bb.term)⟩ := by
  rw [virtualBlock, printBlock_wrap fun i hi => selectedAll_based hi]
  exact printBlock_eq (f := wrapName) (fun p => rfl) ht (fun c _ v _ => rfl) fun v _ => rfl

theorem Terminator.wrap_kind (t : Terminator) : t.wrap.kind = t.kind := by
  obtain ⟨kind, data⟩ := t
  cases data <;> rfl

/-- Selection simulates every well-typed block in which no address temporary gets in the
way, whatever its length. -/
theorem select_simulates {bb : IR.Block} (hw : WellTyped bb)
    (hid : ∀ v ∈ defined bb.insts, v < 2 ^ 32) (hap : AddrsApart bb) : Simulated bb := by
  intro regs mem base h he
  have he' : HostEntry regs mem base { h with r := h.r ∘ wrapName } :=
    ⟨he.regs, he.top, he.mem, he.x0⟩
  obtain ⟨s, h', hs, hrun, hregs, -, hmem, hexit⟩ := blockLines_simulate hw hap he'
  obtain ⟨g, hg, hrest, hphys⟩ := run_wrapped hw hid hap hrun
  have hwords : g.words = h'.words := congrArg Rest.words hrest
  have hsame : g.mem = h'.mem := congrArg Rest.mem hrest
  have hflags : g.flags = h'.flags := congrArg Rest.flags hrest
  refine ⟨_, _, s, g, select_wraps hw.mapped, virtualBlock_wrap hw.term.ok, hs, hg, ?_, ?_, ?_, ?_⟩
  · rw [hwords]
    exact hregs
  · rw [hsame]
    exact hmem
  · rw [← selectedTerm_kind hw.term.ok]
    exact Terminator.wrap_kind _
  · rw [exitOf_congr hflags fun _ => hphys 1]
    exact hexit

theorem copyWord_simulated : Simulated copyWord := by
  have hw : WellTyped copyWord := by
    refine ⟨?_, ?_, trivial⟩
    · rintro (_ | _ | _ | p) i hi <;> simp [copyWord] at hi <;> subst hi <;> simp
    · rintro (_ | _ | _ | p) i hi <;> simp [copyWord] at hi <;> subst hi
      · exact (by decide : 1 < 32)
      · exact ⟨Or.inl rfl, ⟨_, rfl, rfl, rfl⟩, rfl⟩
      · exact ⟨by decide, ⟨_, rfl, rfl, rfl⟩⟩
  have hfit : Fits copyWord := ⟨by decide, by decide⟩
  exact select_simulates hw (fun v hv => (defined_lt hv).trans hfit.values) hfit.apart

end Riscy.AArch64
