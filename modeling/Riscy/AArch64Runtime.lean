import Riscy.AArch64Dispatch
import Riscy.AArch64Reserved

/-! The linked program at work: `_riscy_entry`, the blocks as they stand in the text, and
`riscy_indirect_jump`, which calls them. Return addresses pass through `x30`. What C code
leaves behind in the registers that it need not restore is given step by step. -/
namespace Riscy.AArch64
open RISCV

/-- Where control can be. Behind the `bl` at the end of block `i` stands block `i + 1`. -/
inductive Place
  | caller
  | entry
  | stub
  | block (i : ℕ)
  | resume
  | trapped
  deriving DecidableEq, Repr

/-- The places that the linker gives an address; the last one is the end of the text. -/
def Place.Linked (m : ModuleAsm) : Place → Prop
  | .block i => i ≤ m.blocks.length
  | .trapped => False
  | _ => True

/-- The addresses of a linked module. -/
structure Layout (m : ModuleAsm) where
  address : Place → BitVec 64
  place : BitVec 64 → Option Place
  place_address : ∀ p, p.Linked m → place (address p) = some p

/-- A layout with one address for each place. -/
def Layout.linear (m : ModuleAsm) (h : m.blocks.length + 4 < 2 ^ 64) : Layout m where
  address
    | .caller | .trapped => 0
    | .entry => 1
    | .stub => 2
    | .resume => 3
    | .block i => BitVec.ofNat 64 (i + 4)
  place a := match a.toNat with
    | 0 => some .caller
    | 1 => some .entry
    | 2 => some .stub
    | 3 => some .resume
    | i + 4 => some (.block i)
  place_address p hp := by
    cases p with
    | block i =>
      have hi : i ≤ m.blocks.length := hp
      have hn : (BitVec.ofNat 64 (i + 4)).toNat = i + 4 := by
        rw [BitVec.toNat_ofNat]
        omega
      simp only [hn]
    | trapped => exact hp.elim
    | _ => rfl

/-- A call of `riscy_indirect_jump` that has not returned: what its prologue saves. -/
structure Frame where
  link : BitVec 64
  sp : BitVec 64

structure Config where
  place : Place
  host : Host PReg
  sp : BitVec 64
  frames : List Frame

/-- What C code leaves in the registers that it need not restore, and its stack pointer. -/
structure Leftover where
  r : PReg → BitVec 64
  flags : Flags
  sp : BitVec 64

/-- The registers that a C function restores. -/
def isSaved (n : PReg) : Bool := 19 ≤ n ∧ n ≤ 29

/-- The host after some C code. -/
def Host.afterC (s : Host PReg) (left : Leftover) : Host PReg :=
  { s with r := fun n => if isSaved n then s.r n else left.r n, flags := left.flags }

def ModuleAsm.find (m : ModuleAsm) (label : String) : Option ℕ :=
  m.blocks.findIdx? fun b => b.label = label

section Machine
variable {m : ModuleAsm} (L : Layout m) (left : Leftover)

/-- `riscy_indirect_jump(x0, x1)`, called with the return address in `x30`, up to the start of
the block that it calls. -/
def dispatch (c : Config) (h : Host PReg) : Option Config :=
  match findBlock m (h.r 1) with
  | .negSucc _ => some { c with place := .trapped, host := h }
  | .ofNat i => do
    let j ← (m.ptrs[i]?).bind m.find
    return ⟨.block j, ((h.afterC left).set 0 (h.r 0)).set 30 (L.address .resume), left.sp,
      ⟨h.r 30, c.sp⟩ :: c.frames⟩

def jumpTo (c : Config) (h : Host PReg) (a : BitVec 64) : Option Config :=
  (L.place a).map fun p => { c with place := p, host := h }

/-- The end of block `i`. -/
def leave (c : Config) (i : ℕ) (h : Host PReg) (e : Exit) : Option Config :=
  match e with
  | .goto t => (m.find t).map fun j => { c with place := .block j, host := h }
  | .indirect _ => dispatch L left c (h.set 30 (L.address (.block (i + 1))))
  | .ret => jumpTo L c h (h.r 30)
  | .trap => some { c with place := .trapped, host := h }

/-- One step: the entry stub, a block up to its end, or the rest of a call. -/
def step (c : Config) : Option Config :=
  match c.place with
  | .entry =>
    dispatch L left c ((c.host.set 19 (c.host.r 30)).set 30 (L.address .stub))
  | .stub => jumpTo L c c.host (c.host.r 19)
  | .resume => match c.frames with
    | [] => none
    | f :: fs =>
      jumpTo L { c with frames := fs, sp := f.sp } ((c.host.afterC left).set 30 f.link) f.link
  | .block i => do
    let b ← m.blocks[i]?
    let (h, e) ← b.run noReg 1 c.host
    leave L left c i h e
  | .caller | .trapped => none

/-- A step, whatever C code leaves behind. -/
def Step (c c' : Config) : Prop := ∃ left, step L left c = some c'

/-- `_riscy_entry` is called from C. -/
structure Entered (c : Config) : Prop where
  place : c.place = .entry
  frames : c.frames = []
  link : c.host.r 30 = L.address .caller

end Machine

section Blocks
variable {mem : MemoryReader} {entry : BitVec 64} {cfg : CFG} {o : ItemOrders} {m : ModuleAsm}
  {bb : BasicBlock} {asm : AsmBlock PReg}

theorem Line.exec_total {l : Line PReg} (hl : l.base ≠ some noReg) (s : Host PReg) :
    ∃ t, l.exec noReg s = some t := by
  cases l with
  | ldr size d base off =>
    have hb : base ≠ noReg := fun h => hl (congrArg some h)
    exact ⟨_, if_neg hb⟩
  | str size v base off =>
    have hb : base ≠ noReg := fun h => hl (congrArg some h)
    exact ⟨_, if_neg hb⟩
  | _ => exact ⟨_, rfl⟩

theorem runLines_total {ls : List (Line PReg)} (h : ∀ l ∈ ls, l.base ≠ some noReg)
    (s : Host PReg) : ∃ t, runLines noReg ls s = some t := by
  induction ls generalizing s with
  | nil => exact ⟨s, rfl⟩
  | cons l ls ih =>
    obtain ⟨u, hu⟩ := l.exec_total (h l (by simp)) s
    obtain ⟨t, ht⟩ := ih (fun l' hl' => h l' (List.mem_cons_of_mem _ hl')) u
    exact ⟨t, by rw [runLines_cons, hu]; exact ht⟩

/-- Bases of accesses are `x0` or registers of the pool. -/
theorem PrintedAs.base (h : WellBuilt mem bb) (hp : PrintedAs o bb asm) :
    ∀ l ∈ asm.lines, l.base ≠ some noReg := by
  intro l hl hb
  obtain ⟨asg, body, ends, hbody, hlines, hends⟩ := hp.lines h
  have hpool : ∀ q ∈ initialPool, q ≠ noReg := by decide
  rw [hlines, List.cons_append, List.mem_cons, List.mem_append] at hl
  rcases hl with rfl | hl | hl
  · cases hb
  · rw [hbody.lines h] at hl
    obtain ⟨l', hl', rfl⟩ := List.mem_map.mp hl
    rw [Line.base_map] at hb
    obtain ⟨n, hn, hq⟩ := Option.map_eq_some_iff.mp hb
    have hread := Line.base_reads hn
    cases n with
    | virt v =>
      obtain ⟨q, hq', hv⟩ := hbody.assigned h hl' (Or.inl hread)
      rw [wrapNames_virt hv] at hq
      exact hpool q hq' hq
    | phys p =>
      obtain ⟨c, -, hm⟩ := forall₂_mem_right matches_selectedAll hl'
      have hp0 : p = noReg := hq
      rcases hm.reads p hread with rfl | rfl
      · cases hp0
      · cases hp0
  · rw [(hends l hl).1] at hb
    cases hb

/-- Registers that no line of a block writes. -/
def Untouched (n : PReg) : Prop := n ∉ initialPool ∧ n ≠ 21 ∧ n ≠ 1

instance : DecidablePred Untouched :=
  fun n => inferInstanceAs (Decidable (n ∉ initialPool ∧ n ≠ 21 ∧ n ≠ 1))

theorem PrintedAs.untouched (h : WellBuilt mem bb) (hp : PrintedAs o bb asm) {n : PReg}
    (hn : Untouched n) : ∀ l ∈ asm.lines, l.dest ≠ some n := by
  intro l hl hd
  obtain ⟨asg, body, ends, hbody, hlines, hends⟩ := hp.lines h
  rw [hlines, List.cons_append, List.mem_cons, List.mem_append] at hl
  rcases hl with rfl | hl | hl
  · cases hd
    exact hn.2.1 rfl
  · exact hn.1 (hbody.writes h l hl n hd)
  · exact hn.2.2 ((hends l hl).2 n hd)

/-- How a block is left. -/
inductive Leaves (bb : BasicBlock) (s : Host PReg) : Exit → Prop
  | goto {a} (hs : a ∈ bb.succs) (ht : bb.term ≠ .Return) : Leaves bb s (.goto (blockLabel a))
  | indirect (ht : bb.term = .IndirectJump) : Leaves bb s (.indirect (s.r 1))
  | ret (ht : bb.term = .Return) : Leaves bb s .ret
  | trap (ht : bb.term = .Trap) : Leaves bb s .trap

theorem Leaves.of_return {s : Host PReg} {e : Exit} (h : Leaves bb s e) (ht : bb.term = .Return) :
    e = .ret := by
  cases h with
  | goto _ hn => exact absurd ht hn
  | ret _ => rfl
  | indirect hn | trap hn =>
    rw [ht] at hn
    cases hn

theorem leaves_exit (h : BlockExit mem cfg bb) (s : Host PReg) :
    ∃ e, exitOf 1 s (termJumps (selectedTerm (lifted bb).term)) = some e ∧ Leaves bb s e := by
  obtain ⟨start, insts, term, succs⟩ := bb
  cases h with
  | branch hl hop ho hk hs =>
    dsimp only at hk hs
    subst hk hs
    cases hz : s.flags.holds .ne with
    | true => exact ⟨_, if_pos hz, .goto (by simp) nofun⟩
    | false => exact ⟨_, if_neg (by simp [hz]), .goto (by simp) nofun⟩
  | jump hl hop ho hk hs =>
    dsimp only at hk hs
    subst hk hs
    exact ⟨_, rfl, .goto (by simp) nofun⟩
  | fallthrough hi hne hk hs hb =>
    dsimp only at hk hs
    subst hk hs
    exact ⟨_, rfl, .goto (by simp) nofun⟩
  | indirect hl hop ho hn hk hs =>
    dsimp only at hk hs
    subst hk hs
    exact ⟨_, rfl, .indirect rfl⟩
  | ret hl hop ho hk hs =>
    dsimp only at hk hs
    subst hk hs
    exact ⟨_, rfl, .ret rfl⟩
  | trap hl hop hk hs | undecoded hi hd hk hs =>
    dsimp only at hk hs
    subst hk hs
    exact ⟨_, rfl, .trap rfl⟩

/-- A block runs to its end, and keeps what no line of it writes. -/
theorem PrintedAs.run (hcfg : cfg.Sound mem entry) (hbb : bb ∈ cfg.blocks)
    (hp : PrintedAs o bb asm) (s : Host PReg) :
    ∃ t e, asm.run noReg 1 s = some (t, e) ∧ runLines noReg asm.lines s = some t ∧
      Leaves bb t e ∧ ∀ n, Untouched n → t.r n = s.r n := by
  have h := hcfg.built bb hbb
  obtain ⟨t, ht⟩ := runLines_total (hp.base h) s
  obtain ⟨e, he, hleaves⟩ := leaves_exit (WellBuilt.blockExit hcfg hbb) t
  refine ⟨t, e, ?_, ht, hleaves, fun n hn => runLines_frame (hp.untouched h hn) ht⟩
  rw [AsmBlock.run, ht, hp.jumps h]
  exact congrArg (Option.bind · _) he

end Blocks

section Steps
variable {mem : MemoryReader} {entry : BitVec 64} {cfg : CFG} {o : ItemOrders} {m : ModuleAsm}
  {L : Layout m} {left : Leftover} {c c' : Config}

/-- Block `j` of the text is the translation of the block at `a`. -/
def BlockAt (o : ItemOrders) (cfg : CFG) (m : ModuleAsm) (j : ℕ) (a : BitVec 64) : Prop :=
  ∃ bb ∈ cfg.blocks, bb.start = a ∧ ∃ asm, m.blocks[j]? = some asm ∧ PrintedAs o bb asm

/-- The label of a block of the CFG leads to its translation. -/
theorem ModuleOf.find (h : ModuleOf o cfg m) (hcfg : cfg.Sound mem entry) {a : BitVec 64}
    (ha : a ∈ cfg.indexByAddr) : ∃ j, m.find (blockLabel a) = some j ∧ BlockAt o cfg m j a := by
  have hex : ∃ asm ∈ m.blocks, asm.label = blockLabel a := by
    have hm : blockLabel a ∈ m.blocks.map AsmBlock.label := by
      rw [h.labels hcfg]
      exact List.mem_map_of_mem (mem_addresses.mpr ha)
    exact List.mem_map.mp hm
  cases hf : m.find (blockLabel a) with
  | none =>
    obtain ⟨asm, hasm, hl⟩ := hex
    rw [ModuleAsm.find, List.findIdx?_eq_none_iff] at hf
    exact absurd hl (by simpa using hf asm hasm)
  | some j =>
    obtain ⟨hj, hl, -⟩ := List.findIdx?_eq_some_iff_getElem.mp hf
    obtain ⟨bb, hbb, hp⟩ := h.printed (List.getElem_mem hj)
    have hlabel : blockLabel bb.start = blockLabel a := by
      rw [← hp.label (hcfg.built bb hbb)]
      exact of_decide_eq_true hl
    exact ⟨j, rfl, bb, hbb, blockLabel_inj hlabel, _, List.getElem?_eq_getElem hj, hp⟩

theorem ModuleOf.layout (h : ModuleOf o cfg m) (hcfg : cfg.Sound mem entry)
    (hlen : cfg.blocks.length < 2 ^ 32) : Nonempty (Layout m) := by
  have hle : m.blocks.length ≤ cfg.blocks.length := h.numBlocks_le hcfg
  exact ⟨Layout.linear m (by omega)⟩

/-- A step from a block: it runs to its end and is left. -/
theorem step_block (h : ModuleOf o cfg m) (hcfg : cfg.Sound mem entry) {i : ℕ}
    (hc : c.place = .block i) (hi : i < m.blocks.length) :
    ∃ bb ∈ cfg.blocks, ∃ asm t e, m.blocks[i]? = some asm ∧ PrintedAs o bb asm ∧
      asm.run noReg 1 c.host = some (t, e) ∧ Leaves bb t e ∧
      (∀ n, Untouched n → t.r n = c.host.r n) ∧ ∀ left, step L left c = leave L left c i t e := by
  obtain ⟨bb, hbb, hp⟩ := h.printed (List.getElem_mem hi)
  obtain ⟨t, e, hrun, -, hleaves, hkeep⟩ := hp.run hcfg hbb c.host
  refine ⟨bb, hbb, _, t, e, List.getElem?_eq_getElem hi, hp, hrun, hleaves, hkeep, fun left => ?_⟩
  simp only [step, hc, List.getElem?_eq_getElem hi, hrun, Option.bind_eq_bind, Option.bind_some]

/-- A dispatch traps or calls a block with the state pointer in `x0`. -/
theorem dispatch_cases {h : Host PReg} (hd : dispatch L left c h = some c') :
    (c'.place = .trapped ∧ c'.frames = c.frames ∧ c'.host = h) ∨
      ∃ j, c' = ⟨.block j, ((h.afterC left).set 0 (h.r 0)).set 30 (L.address .resume), left.sp,
        ⟨h.r 30, c.sp⟩ :: c.frames⟩ := by
  unfold dispatch at hd
  split at hd
  · cases hd
    exact Or.inl ⟨rfl, rfl, rfl⟩
  · obtain ⟨j, -, hj⟩ := Option.bind_eq_some_iff.mp hd
    cases hj
    exact Or.inr ⟨j, rfl⟩

theorem jumpTo_address {h : Host PReg} {p : Place} (hp : p.Linked m) :
    jumpTo L c h (L.address p) = some { c with place := p, host := h } := by
  rw [jumpTo, L.place_address p hp]
  rfl

end Steps

end Riscy.AArch64
