import Riscy.IRTyping
import Riscy.AArch64SelectCorrect

/-! Extensions of bytes and halfwords. Selection looks only at the type of the result: to
64 bits it extends the low word, to less it moves. So the result is right where the bits
between the narrow type and the word already are those of the extension. -/
namespace Riscy.AArch64
open IR (TypeKind Payload HasTy)
open ByteMemory

/-- The bits that an extension has above its source. -/
def extend {n : ℕ} (signed : Bool) (x : BitVec n) (m : ℕ) : BitVec m :=
  if signed then x.signExtend m else x.setWidth m

def extPayload (signed : Bool) (src : ℕ) (dst : TypeKind) : Payload :=
  if signed then .SExt src dst else .ZExt src dst

/-- An extension of a block whose source is a byte or halfword from a load or truncation. -/
structure NarrowExt (bb : IR.Block) where
  pos : ℕ
  signed : Bool
  src : ℕ
  ty : TypeKind
  dst : TypeKind
  producer : Payload
  ext : bb.insts[pos]? = some ⟨some pos, extPayload signed src dst⟩
  source : bb.insts[src]? = some ⟨some src, producer⟩
  narrow : ty = .I8 ∨ ty = .I16
  made : (∃ b off, producer = .Load b off ty) ∨ ∃ x, producer = .Trunc x ty

/-- Bits `w` to `m - 1` are those of an extension from `w` bits. -/
def UpperBits (signed : Bool) (w m : ℕ) (x : BitVec 64) : Prop :=
  ∀ i, w ≤ i → i < m → x.getLsbD i = (signed && x.getLsbD (w - 1))

/-- What the line of an extension computes. -/
def extended (signed : Bool) (dst : TypeKind) (x : BitVec 64) : BitVec 64 :=
  if dst = .I64 then extend signed (x.setWidth 32) 64 else x

section Bits
variable {signed : Bool} {w m : ℕ} (x : BitVec 64)

theorem getLsbD_extend (hw : 0 < w) (i : ℕ) :
    (extend signed (x.setWidth w) m).getLsbD i =
      (decide (i < m) && if i < w then x.getLsbD i else signed && x.getLsbD (w - 1)) := by
  cases signed
  · simp only [extend, Bool.false_eq_true, if_false, BitVec.getLsbD_setWidth, Bool.false_and]
    by_cases hi : i < w <;> simp [hi]
  · simp only [extend, if_true, BitVec.getLsbD_signExtend, BitVec.getLsbD_setWidth,
      BitVec.msb_setWidth, Bool.true_and]
    by_cases hi : i < w <;> simp [hi, hw]

theorem getLsbD_extended {dst : TypeKind} {i : ℕ} (hi : i < dst.width) :
    (extended signed dst x).getLsbD i =
      if i < 32 then x.getLsbD i else signed && x.getLsbD 31 := by
  unfold extended
  split_ifs with hdst h32 h32
  · subst hdst
    rw [getLsbD_extend x (by omega), if_pos h32, decide_eq_true hi, Bool.true_and]
  · subst hdst
    rw [getLsbD_extend x (by omega), if_neg h32, decide_eq_true hi, Bool.true_and]
  · rfl
  · cases dst <;> first | exact absurd rfl hdst | exact absurd (lt_of_lt_of_le hi (by decide)) h32

/-- The bits below the narrow type are kept, and those from the word on copy bit 31. -/
theorem extended_right_iff {dst : TypeKind} (hw : 0 < w) (hw32 : w < 32) :
    (extended signed dst x).setWidth dst.width = extend signed (x.setWidth w) dst.width ↔
      UpperBits signed w (min 32 dst.width) x := by
  have hbit : ∀ i < dst.width, ((extended signed dst x).setWidth dst.width).getLsbD i =
      if i < 32 then x.getLsbD i else signed && x.getLsbD 31 := by
    intro i hi
    rw [BitVec.getLsbD_setWidth, decide_eq_true hi, Bool.true_and, getLsbD_extended x hi]
  constructor
  · intro h i hwi him
    have hi := hbit i (by omega)
    rw [h, getLsbD_extend x hw, if_neg (by omega), decide_eq_true (by omega), Bool.true_and,
      if_pos (by omega)] at hi
    exact hi.symm
  · intro h
    apply BitVec.eq_of_getLsbD_eq
    intro i hi
    rw [hbit i hi, getLsbD_extend x hw, decide_eq_true hi, Bool.true_and]
    by_cases hiw : i < w
    · rw [if_pos hiw, if_pos (by omega)]
    · rw [if_neg hiw]
      split_ifs with h32
      · exact h i (by omega) (by omega)
      · have h31 := h 31 (by omega) (by omega)
        rw [h31]
        cases signed <;> rfl

/-- What a narrow load leaves is zero above its type. -/
theorem upperBits_ofNat {v : ℕ} (hv : v < 2 ^ w) (hw : 0 < w) (hwm : w < m) (hm : m ≤ 64) :
    UpperBits signed w m (BitVec.ofNat 64 v) ↔ signed = false ∨ v.testBit (w - 1) = false := by
  have hbit : ∀ i, w ≤ i → (BitVec.ofNat 64 v).getLsbD i = false := by
    intro i hi
    rw [BitVec.getLsbD_ofNat, Nat.testBit_lt_two_pow
      (hv.trans_le (Nat.pow_le_pow_right (by omega) hi)), Bool.and_false]
  have hlast : (BitVec.ofNat 64 v).getLsbD (w - 1) = v.testBit (w - 1) := by
    rw [BitVec.getLsbD_ofNat, decide_eq_true (by omega), Bool.true_and]
  constructor
  · intro h
    have hw' := h w le_rfl hwm
    rw [hbit w le_rfl, hlast] at hw'
    cases signed
    · exact Or.inl rfl
    · exact Or.inr hw'.symm
  · intro h i hwi him
    rw [hbit i hwi, hlast]
    rcases h with rfl | h
    · rfl
    · rw [h, Bool.and_false]

end Bits

/-- Parts of the host that an instruction at position `n` or behind it leaves as they are. -/
structure Later (n : ℕ) (h h' : Host VName) : Prop where
  addr : h'.addr = h.addr
  phys : ∀ p, h'.r (.phys p) = h.r (.phys p)
  vals : ∀ v < n, h'.r (valueName v) = h.r (valueName v)

theorem Keeps.later {n : ℕ} {h h' : Host VName} (g : Keeps (Set.Iio n) h h') : Later n h h' :=
  ⟨g.addr, g.phys, g.vals⟩

theorem Later.refl (n : ℕ) (h : Host VName) : Later n h h := (Keeps.refl _ h).later

theorem Later.trans {n m : ℕ} {h h' h'' : Host VName} (g : Later n h h') (g' : Later m h' h'')
    (hnm : n ≤ m) : Later n h h'' where
  addr := g'.addr.trans g.addr
  phys p := (g'.phys p).trans (g.phys p)
  vals v hv := (g'.vals v (by omega)).trans (g.vals v hv)

section Step
variable {n k : ℕ} {start : BitVec 64} {h : Host VName}

theorem run_ext (signed : Bool) (src : ℕ) (dst : TypeKind) :
    runLines (.phys 0) (selectedLines start k ⟨some n, extPayload signed src dst⟩) h =
      some (h.set (valueName n) (extended signed dst (h.r (valueName src)))) := by
  cases signed <;> cases dst <;> rfl

/-- An instruction at its position runs and leaves the values before it. -/
theorem step_later {done : List IR.Instr} {i : IR.Instr} (hi : i.TypedAfter done)
    (hx0 : h.r (.phys 0) = h.addr) (hf : temps i = 1 → FreshAddr k (Set.Iio done.length)) :
    ∃ h', runLines (.phys 0) (selectedLines start k i) h = some h' ∧ Later done.length h h' := by
  obtain ⟨dest, payload⟩ := i
  have hp := hi.payload
  cases dest with
  | none =>
    cases payload with
    | WriteReg r v => exact ⟨_, run_writeReg hx0 hp.1 v, rfl, fun _ => rfl, fun _ _ => rfl⟩
    | ICmp c l r => exact ⟨_, rfl, rfl, fun _ => rfl, fun _ _ => rfl⟩
    | Store v b off ty =>
      have hfresh := hf rfl
      obtain ⟨-, _, hv, -⟩ := hp
      have hkeep := keeps_atAddr hfresh b (h.r (.phys 21)) h
      exact ⟨_, run_store hfresh hv.lt b off ty, hkeep.addr, hkeep.phys, hkeep.vals⟩
    | _ => exact ⟨h, rfl, Later.refl _ h⟩
  | some d =>
    obtain rfl : d = done.length := hi.dest d rfl
    have hvalue : ∀ (g : Host VName) x,
        Later done.length g (g.set (valueName done.length) x) := fun g x =>
      (@Keeps.value g (Set.Iio done.length) _ Set.self_notMem_Iio x).later
    cases payload with
    | Const ty v => exact ⟨_, run_constLines h _ _ v, hvalue h v⟩
    | ReadReg r => exact ⟨_, run_readReg hx0 hp, hvalue h _⟩
    | ICmp c l r =>
      have hflags : Later done.length h
          { h with flags := compare (h.r (valueName l)) (h.r (valueName r)) } :=
        ⟨rfl, fun _ => rfl, fun _ _ => rfl⟩
      exact ⟨_, rfl, hflags.trans (hvalue _ _) le_rfl⟩
    | ZExt src dst => exact ⟨_, run_ext false src dst, hvalue h _⟩
    | SExt src dst => exact ⟨_, run_ext true src dst, hvalue h _⟩
    | Load b off ty =>
      have hfresh := hf rfl
      exact ⟨_, run_load hfresh b off ty,
        (keeps_atAddr hfresh b _ h).later.trans (hvalue _ _) le_rfl⟩
    | WriteReg | Store => exact absurd (hi.effect rfl) (Option.some_ne_none _)
    | _ => exact ⟨_, rfl, hvalue h _⟩

end Step

section Block
variable {bb : IR.Block} {start : BitVec 64} {h : Host VName}

theorem typedAfter_ids {done : List IR.Instr} {i : IR.Instr} (hi : i.TypedAfter done) {v : ℕ}
    (hv : v ∈ valueIds i) : v ≤ done.length := by
  have hp := hi.payload
  have hdest : v ∈ i.dest → v ≤ done.length := fun hd => (hi.dest v hd).le
  obtain ⟨dest, payload⟩ := i
  rw [valueIds, List.mem_append, Option.mem_toList] at hv
  rcases hv with hv | hv
  · exact hdest hv
  · cases payload <;>
      simp only [payloadIds, List.mem_cons, List.not_mem_nil, or_false] at hv
    case WriteReg => exact hv ▸ hp.2.lt.le
    case BinOp =>
      rcases hv with rfl | rfl
      · exact hp.1.lt.le
      · exact hp.2.lt.le
    case ICmp =>
      obtain ⟨_, hl, hr⟩ := hp
      rcases hv with rfl | rfl
      · exact hl.lt.le
      · exact hr.lt.le
    case Load => exact hv ▸ hp.lt.le
    case Store =>
      obtain ⟨hb, _, ht, -⟩ := hp
      rcases hv with rfl | rfl
      · exact ht.lt.le
      · exact hb.lt.le
    all_goals
      obtain ⟨_, ht, -⟩ := hp
      exact hv ▸ ht.lt.le

theorem typed_term_ok {t : IR.Terminator} (ht : t.Typed bb.insts) : TermOk t := by
  obtain ⟨kind, data⟩ := t
  cases kind <;> cases data <;> trivial

theorem typed_term_ids {t : IR.Terminator} (ht : t.Typed bb.insts) {v : ℕ}
    (hv : v ∈ termIds t) : v < bb.insts.length := by
  obtain ⟨kind, data⟩ := t
  cases kind <;> cases data <;>
    simp only [termIds, List.not_mem_nil, List.mem_singleton] at hv
  · obtain ⟨_, hc⟩ := ht
    exact hv ▸ hc.lt
  · have hc : IR.HasTy _ _ _ := ht
    exact hv ▸ hc.lt

theorem typed_selectOk (hw : bb.WellTyped) (hfit : Fits bb) : SelectOk bb := by
  refine selectOk_of_ids hfit.values (fun p i hi v hv => ?_) (typed_term_ok hw.term)
    fun v hv => typed_term_ids hw.term hv
  have hlt := typedAfter_ids (hw.at hi) hv
  rwa [List.length_take_of_le (List.getElem?_eq_some_iff.mp hi).1.le] at hlt

/-- The host before the code of instruction `p`. -/
def stateAt (bb : IR.Block) (h : Host VName) (p : ℕ) : Option (Host VName) :=
  runLines (.phys 0) (.ldr .x (.phys 21) (.phys 0) 256 ::
    linesAll bb.start (bb.insts.length + 1) (bb.insts.take p)) h

theorem stateAt_zero (hx0 : h.r (.phys 0) = h.addr) :
    stateAt bb h 0 = some (h.set (.phys 21) (h.words 32)) := by
  unfold stateAt
  rw [List.take_zero, linesAll, runLines_cons, Line.exec, if_pos rfl, if_pos ⟨hx0, rfl⟩]
  rfl

theorem stateAt_succ {p : ℕ} {i : IR.Instr} (hi : bb.insts[p]? = some i) :
    stateAt bb h (p + 1) = (stateAt bb h p).bind (runLines (.phys 0) (selectedLines bb.start
      (bb.insts.length + 1 + tempCount (bb.insts.take p)) i)) := by
  unfold stateAt
  rw [List.take_add_one, hi, Option.toList_some, linesAll_append, ← List.cons_append,
    runLines_append, linesAll, linesAll, List.append_nil]

theorem Later.pointer {n : ℕ} {h h' : Host VName} (g : Later n h h')
    (hx0 : h.r (.phys 0) = h.addr) : h'.r (.phys 0) = h'.addr := by
  rw [g.phys, g.addr, hx0]

theorem stateAt_step (hw : bb.WellTyped) (hfit : Fits bb) {p : ℕ} {i : IR.Instr}
    (hi : bb.insts[p]? = some i) {g : Host VName} (hg : stateAt bb h p = some g)
    (hx0 : g.r (.phys 0) = g.addr) :
    ∃ g', stateAt bb h (p + 1) = some g' ∧ Later p g g' := by
  have hlt := (List.getElem?_eq_some_iff.mp hi).1
  have hlen : (bb.insts.take p).length = p := List.length_take_of_le hlt.le
  have hfresh : temps i = 1 → FreshAddr (bb.insts.length + 1 + tempCount (bb.insts.take p))
      (Set.Iio (bb.insts.take p).length) := by
    rw [hlen]
    exact fun ht => (freshAddr_at hfit hi ht).mono Set.Iio_subset_Iic_self
  obtain ⟨g', hrun, hl⟩ := @step_later _ bb.start _ _ _ (hw.at hi) hx0 hfresh
  rw [hlen] at hl
  exact ⟨g', by rw [stateAt_succ hi, hg]; exact hrun, hl⟩

/-- Once an instruction is reached, so are those behind it, with the values before it. -/
theorem stateAt_run (hw : bb.WellTyped) (hfit : Fits bb) {p q : ℕ} (hpq : p ≤ q)
    (hq : q ≤ bb.insts.length) {g : Host VName} (hg : stateAt bb h p = some g)
    (hx0 : g.r (.phys 0) = g.addr) :
    ∃ g', stateAt bb h q = some g' ∧ Later p g g' := by
  induction q, hpq using Nat.le_induction with
  | base => exact ⟨g, hg, Later.refl p g⟩
  | succ q hpq ih =>
    obtain ⟨g', hg', hl⟩ := ih (by omega)
    obtain ⟨g'', hg'', hl'⟩ := stateAt_step hw hfit (List.getElem?_eq_getElem hq) hg'
      (hl.pointer hx0)
    exact ⟨g'', hg'', hl.trans hl' hpq⟩

theorem stateAt_reached (hw : bb.WellTyped) (hfit : Fits bb) (hx0 : h.r (.phys 0) = h.addr)
    {p : ℕ} (hp : p ≤ bb.insts.length) :
    ∃ g, stateAt bb h p = some g ∧ g.r (.phys 0) = g.addr := by
  have hzero : (h.set (.phys 21) (h.words 32)).r (.phys 0) = h.addr :=
    (Host.set_ne h _ _ (by simp)).trans hx0
  obtain ⟨g, hg, hl⟩ := stateAt_run hw hfit (Nat.zero_le p) hp (stateAt_zero hx0) hzero
  exact ⟨g, hg, hl.pointer hzero⟩

/-- The lines before the jumps leave every value. -/
theorem termLines_later {t : IR.Terminator} (ht : t.Typed bb.insts) (g : Host VName) :
    ∃ h', runLines (.phys 0) (termLines (selectedTerm t)) g = some h' ∧
      ∀ v, h'.r (valueName v) = g.r (valueName v) := by
  obtain ⟨kind, data⟩ := t
  cases kind with
  | CBr =>
    cases data <;> try exact ht.elim
    exact ⟨_, rfl, fun _ => rfl⟩
  | BrIndirect =>
    cases data <;> try exact ht.elim
    exact ⟨_, rfl, fun v => Host.set_ne g _ _ (by simp)⟩
  | Br =>
    cases data <;> try exact ht.elim
    exact ⟨g, rfl, fun _ => rfl⟩
  | _ => exact ⟨g, rfl, fun _ => rfl⟩

/-- A block runs through all its states to its end. -/
theorem block_run (hw : bb.WellTyped) (hfit : Fits bb) (hx0 : h.r (.phys 0) = h.addr) :
    ∃ h', runLines (.phys 0) (blockLines bb) h = some h' ∧
      ∀ p ≤ bb.insts.length, ∃ g, stateAt bb h p = some g ∧
        ∀ v < p, h'.r (valueName v) = g.r (valueName v) := by
  obtain ⟨g, hg, -⟩ := stateAt_reached hw hfit hx0 le_rfl
  obtain ⟨h', hrun, hkeep⟩ := termLines_later hw.term g
  refine ⟨h', ?_, fun p hp => ?_⟩
  · unfold stateAt at hg
    rw [List.take_length] at hg
    rw [blockLines, runLines_append, hg]
    exact hrun
  · obtain ⟨gp, hgp, hx0p⟩ := stateAt_reached hw hfit hx0 hp
    obtain ⟨g', hg', hl⟩ := stateAt_run hw hfit hp le_rfl hgp hx0p
    obtain rfl : g = g' := Option.some.inj (hg.symm.trans hg')
    exact ⟨gp, hgp, fun v hv => (hkeep v).trans (hl.vals v hv)⟩

end Block

namespace NarrowExt
variable {bb : IR.Block} (e : NarrowExt bb)

/-- The extension is right in the host where the block ends. -/
def Right (h : Host VName) : Prop :=
  (h.r (valueName e.pos)).setWidth e.dst.width =
    extend e.signed ((h.r (valueName e.src)).setWidth e.ty.width) e.dst.width

/-- In the host before the source is made, what it is made of has the bits of the extension
above the narrow type: a load clears them, a truncation leaves them. -/
def Holds (h : Host VName) : Prop :=
  match e.producer with
  | .Load b off ty => e.signed = false ∨
      (read h.mem (accessAddr h b off) (sizeOf ty).bytes).testBit (ty.width - 1) = false
  | .Trunc x ty => UpperBits e.signed ty.width (min 32 e.dst.width) (h.r (valueName x))
  | _ => True

theorem width_pos : 0 < e.ty.width := by
  rcases e.narrow with h | h <;> rw [h] <;> decide

theorem width_lt : e.ty.width < 32 := by
  rcases e.narrow with h | h <;> rw [h] <;> decide

theorem src_lt (hw : bb.WellTyped) : e.src < e.pos ∧ e.ty.width < e.dst.width := by
  have hlt := (List.getElem?_eq_some_iff.mp e.ext).1
  have hp : ∃ ty, HasTy (bb.insts.take e.pos) e.src ty ∧ ty.width < e.dst.width := by
    have h := (hw.at e.ext).payload
    unfold extPayload at h
    split_ifs at h <;> exact h
  obtain ⟨ty, hty, hwidth⟩ := hp
  have hsrc : HasTy bb.insts e.src e.ty := by
    refine ⟨_, e.source, rfl, ?_⟩
    rcases e.made with ⟨b, off, h⟩ | ⟨x, h⟩ <;> rw [h] <;> rfl
  rw [HasTy.unique hty.of_take hsrc] at hwidth
  refine ⟨?_, hwidth⟩
  have h := hty.lt
  rwa [List.length_take_of_le hlt.le] at h

/-- What the producer leaves has the bits of the extension where `Holds` says so. -/
theorem produced (hw : bb.WellTyped) (hfit : Fits bb) {h g g' : Host VName}
    (hg : stateAt bb h e.src = some g) (hg' : stateAt bb h (e.src + 1) = some g') :
    UpperBits e.signed e.ty.width (min 32 e.dst.width) (g'.r (valueName e.src)) ↔
      e.Holds g := by
  have hpos := e.width_pos
  have hlt := e.width_lt
  have hdst := (e.src_lt hw).2
  rw [stateAt_succ e.source, hg, Option.bind_some] at hg'
  unfold Holds
  rcases e.made with ⟨b, off, hp⟩ | ⟨x, hp⟩
  · have hfresh := freshAddr_at hfit e.source (by rw [hp]; rfl)
    rw [hp, run_load hfresh] at hg'
    cases hg'
    rw [hp, Host.set_self]
    have hread : read g.mem (accessAddr g b off) (sizeOf e.ty).bytes < 2 ^ e.ty.width := by
      have hr := read_lt g.mem (accessAddr g b off) (sizeOf e.ty).bytes
      rcases e.narrow with hn | hn <;> rw [hn] at hr ⊢ <;> exact hr
    have hext : (sizeOf e.ty).extend (read g.mem (accessAddr g b off) (sizeOf e.ty).bytes) =
        BitVec.ofNat 64 (read g.mem (accessAddr g b off) (sizeOf e.ty).bytes) := by
      rcases e.narrow with hn | hn <;> rw [hn] <;> rfl
    rw [hext]
    exact upperBits_ofNat hread hpos (by omega) (by omega)
  · rw [hp] at hg' ⊢
    cases hg'
    rw [Host.set_self]

/-- An extension is right at the end of its block where `Holds` says so before its source. -/
theorem right_iff (hw : bb.WellTyped) (hfit : Fits bb) {h h' : Host VName}
    (hrun : ∀ p ≤ bb.insts.length, ∃ g, stateAt bb h p = some g ∧
      ∀ v < p, h'.r (valueName v) = g.r (valueName v)) :
    e.Right h' ↔ ∃ g, stateAt bb h e.src = some g ∧ e.Holds g := by
  have hsrc := (e.src_lt hw).1
  have hpos := (List.getElem?_eq_some_iff.mp e.ext).1
  obtain ⟨g, hg, -⟩ := hrun e.src (by omega)
  obtain ⟨g₁, hg₁, hk₁⟩ := hrun (e.src + 1) (by omega)
  obtain ⟨k, hk, hkv⟩ := hrun e.pos hpos.le
  obtain ⟨k₁, hk₁', hkv₁⟩ := hrun (e.pos + 1) hpos
  have hvalue : h'.r (valueName e.pos) = extended e.signed e.dst (h'.r (valueName e.src)) := by
    rw [stateAt_succ e.ext, hk, Option.bind_some, run_ext] at hk₁'
    cases hk₁'
    rw [hkv₁ e.pos (Nat.lt_succ_self _), Host.set_self, hkv e.src hsrc]
  have hex : (∃ g, stateAt bb h e.src = some g ∧ e.Holds g) ↔ e.Holds g := by
    rw [hg]
    simp
  rw [hex, ← e.produced hw hfit hg hg₁, ← hk₁ e.src (Nat.lt_succ_self _), Right, hvalue]
  exact extended_right_iff _ e.width_pos e.width_lt

end NarrowExt

/-- The block is selected and printed, and runs to its end with all its extensions right. -/
def ExtsRight (bb : IR.Block) (h : Host VName) : Prop :=
  ∃ b asm h', select bb = .ok b ∧ virtualBlock b = .ok asm ∧
    runLines (.phys 0) asm.lines h = some h' ∧ ∀ e : NarrowExt bb, e.Right h'

/-- The extensions are right from those entries where every truncation they read finds the
bits of the extension in place, and no byte or halfword loaded to be sign-extended is
negative. -/
theorem narrow_exts_iff {bb : IR.Block} (hw : bb.WellTyped) (hfit : Fits bb) {h : Host VName}
    (hx0 : h.r (.phys 0) = h.addr) :
    ExtsRight bb h ↔ ∀ e : NarrowExt bb, ∃ g, stateAt bb h e.src = some g ∧ e.Holds g := by
  have hok := typed_selectOk hw hfit
  obtain ⟨h', hrun, hstates⟩ := block_run hw hfit hx0
  constructor
  · rintro ⟨b, asm, h₁, hsel, hasm, hh, hright⟩ e
    rw [select_eq hok] at hsel
    cases hsel
    rw [virtualBlock_eq hok.term] at hasm
    cases hasm
    obtain rfl : h' = h₁ := Option.some.inj (hrun.symm.trans hh)
    exact (e.right_iff hw hfit hstates).mp (hright e)
  · intro hall
    exact ⟨_, _, h', select_eq hok, virtualBlock_eq hok.term, hrun,
      fun e => (e.right_iff hw hfit hstates).mpr (hall e)⟩

/-- A register is made an `I8` value of, and that is extended into another register. -/
def narrowed (p : Payload) : IR.Block :=
  ⟨0, [⟨some 0, .ReadReg 1⟩, ⟨some 1, p⟩, ⟨some 2, .ZExt 1 .I64⟩, ⟨none, .WriteReg 2 2⟩],
    ⟨.Ret, .monostate⟩⟩

theorem narrowed_typed {p : Payload} (hty : p.ty = some .I8)
    (hp : p.TypedAfter [⟨some 0, .ReadReg 1⟩]) : (narrowed p).WellTyped := by
  refine ⟨?_, trivial⟩
  rintro (_ | _ | _ | _ | q) i hi
  · cases hi
    exact ⟨fun d hd => (Option.some.inj hd).symm, nofun, (by decide : 1 < 32)⟩
  · cases hi
    refine ⟨fun d hd => (Option.some.inj hd).symm, fun h => ?_, hp⟩
    rw [hty] at h
    cases h
  · cases hi
    exact ⟨fun d hd => (Option.some.inj hd).symm, nofun, .I8, ⟨_, rfl, rfl, hty⟩, by decide⟩
  · cases hi
    exact ⟨nofun, fun _ => rfl, by decide, ⟨_, rfl, rfl, rfl⟩⟩
  · cases hi

theorem loadedByte_right : ExtsRight (narrowed (.Load 0 8 .I8)) zeroHost := by
  have hw : (narrowed (.Load 0 8 .I8)).WellTyped :=
    narrowed_typed rfl (show HasTy _ 0 .I64 from ⟨_, rfl, rfl, rfl⟩)
  refine (narrow_exts_iff hw ⟨by decide, by decide⟩ rfl).mpr ?_
  rintro ⟨_ | _ | _ | _ | q, signed, src, ty, dst, producer, hext, hsource, -, -⟩ <;>
    cases signed <;> cases hext
  cases hsource
  exact ⟨_, rfl, Or.inl rfl⟩

/-- A truncation keeps the bit that the extension should clear. -/
theorem truncated_not_right :
    (narrowed (.Trunc 0 .I8)).WellTyped ∧ Fits (narrowed (.Trunc 0 .I8)) ∧
      ¬ ExtsRight (narrowed (.Trunc 0 .I8)) { zeroHost with words := fun _ => 0x100 } := by
  have hw : (narrowed (.Trunc 0 .I8)).WellTyped :=
    narrowed_typed rfl ⟨.I64, ⟨_, rfl, rfl, rfl⟩, by decide⟩
  have hfit : Fits (narrowed (.Trunc 0 .I8)) := ⟨by decide, by decide⟩
  have hok := typed_selectOk hw hfit
  refine ⟨hw, hfit, ?_⟩
  rintro ⟨b, asm, h', hsel, hasm, hrun, hright⟩
  rw [select_eq hok] at hsel
  cases hsel
  rw [virtualBlock_eq hok.term] at hasm
  cases hasm
  cases hrun
  have hbad : (0x100 : BitVec 64) = 0 := hright ⟨2, false, 1, .I8, .I64, .Trunc 0 .I8, rfl, rfl,
    Or.inl rfl, Or.inr ⟨0, rfl⟩⟩
  exact absurd hbad (by decide)

end Riscy.AArch64
