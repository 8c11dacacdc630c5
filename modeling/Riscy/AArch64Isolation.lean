import Riscy.AArch64EndToEnd

/-! What translated code leaves alone and what it cannot see: bytes of the host that no access of
the guest touches keep their values, and have no influence on where a call ends and what it
computes. -/
namespace Riscy.RISCV
open ByteMemory
open Relation (ReflTransGen)

section Reference
variable {reader : MemoryReader} {P : BitVec 64 → ℕ → Prop} {m m' k g : Machine}
  {inst : DecodedInst}

/-- The bytes that accesses of `P` touch. -/
def Bytes (P : BitVec 64 → ℕ → Prop) : Set (BitVec 64) :=
  {x | ∃ a n, P a n ∧ ∃ i < n, x = a + BitVec.ofNat 64 i}

/-- Machines that differ at most in bytes outside `S`. -/
structure Alike (S : Set (BitVec 64)) (m k : Machine) : Prop where
  pc : k.pc = m.pc
  regs : k.regs = m.regs
  mem : Set.EqOn k.mem m.mem S

theorem loaded_congr {mem mem' : Memory 64} {a : BitVec 64} {op : Opcode}
    (h : ∀ n, loadBytes op = some n → read mem' a n = read mem a n) :
    loaded mem' a op = loaded mem a op := by
  cases op with
  | LB | LH | LW | LD | LBU | LHU | LWU => simp only [loaded, h _ rfl]
  | _ => rfl

theorem bytes_read {mem mem' : Memory 64} {a : BitVec 64} {n : ℕ}
    (hmem : Set.EqOn mem' mem (Bytes P)) (hP : P a n) : read mem' a n = read mem a n :=
  read_congr fun i hi => hmem ⟨a, n, hP, i, hi, rfl⟩

/-- What a step does with memory: it loads, it stores, or it is the same in every memory. -/
inductive Effect (inst : DecodedInst) (m m' : Machine) : Prop
  | load {rd base off v} (ho : inst.operands = [.reg rd, .mem base off])
    (hop : inst.opcode ≠ .JALR) (hv : loaded m.mem (m.regs.x base + off) inst.opcode = some v)
    (h : m' = m.put rd v)
  | store {base off rs n} (ho : inst.operands = [.mem base off, .reg rs])
    (hn : storeBytes inst.opcode = some n)
    (h : m' = ⟨m.pc + 4, m.regs, write m.mem (m.regs.x base + off) (m.regs.x rs).toNat n⟩)
  | plain {pc' regs'} (h : m' = ⟨pc', regs', m.mem⟩)
    (hall : ∀ mem, execute inst ⟨m.pc, m.regs, mem⟩ = some ⟨pc', regs', mem⟩)

theorem execute_effect (he : execute inst m = some m') : Effect inst m m' := by
  obtain ⟨pc, regs, mem⟩ := m
  unfold execute at he
  dsimp only at he
  split at he
  next rd i ho =>
    split at he
    next hop => cases he; exact .plain rfl fun mem => by simp only [execute, ho, hop]; rfl
    next hop => cases he; exact .plain rfl fun mem => by simp only [execute, ho, hop]; rfl
    next hop => cases he; exact .plain rfl fun mem => by simp only [execute, ho, hop]
    next => cases he
  next rd base off ho =>
    split_ifs at he with hop
    · cases he
      exact .plain rfl fun mem => by simp only [execute, ho, hop, if_true]
    · obtain ⟨v, hv, rfl⟩ := Option.map_eq_some_iff.mp he
      exact .load ho hop hv rfl
  next base off rs ho =>
    obtain ⟨n, hn, rfl⟩ := Option.map_eq_some_iff.mp he
    exact .store ho hn rfl
  next r s i ho =>
    split at he
    next f hf =>
      cases he
      exact .plain rfl fun mem => by simp only [execute, ho, hf]
    next hf =>
      obtain ⟨f, halu, rfl⟩ := Option.map_eq_some_iff.mp he
      exact .plain rfl fun mem => by simp only [execute, ho, hf, halu]; rfl
  next rd rs1 rs2 ho =>
    obtain ⟨f, halu, rfl⟩ := Option.map_eq_some_iff.mp he
    exact .plain rfl fun mem => by simp only [execute, ho, halu]; rfl
  next ho =>
    split_ifs at he with hop
    cases he
    exact .plain rfl fun mem => by simp only [execute, ho, hop, if_true]
  next => cases he

/-- A step reads no other bytes than those of its access. -/
theorem execute_alike (he : execute inst m = some m')
    (ha : ∀ a n, m.access inst = some (a, n) → P a n) (h : Alike (Bytes P) m k) :
    ∃ k', execute inst k = some k' ∧ Alike (Bytes P) m' k' := by
  obtain ⟨pc, regs, mem⟩ := m
  obtain ⟨pc', regs', mem'⟩ := k
  obtain ⟨rfl, rfl, hmem⟩ := h
  simp only [Machine.access] at ha
  cases execute_effect he with
  | @load rd base off v ho hop hv h =>
    subst h
    simp only [ho] at ha
    have hread : loaded mem' (regs'.x base + off) inst.opcode =
        loaded mem (regs'.x base + off) inst.opcode :=
      loaded_congr fun n hn => bytes_read hmem (ha _ n (by rw [hn]; rfl))
    refine ⟨⟨pc' + 4, regs'.set rd v, mem'⟩, ?_, rfl, rfl, hmem⟩
    simp only [execute, ho, if_neg hop, hread, hv]
    rfl
  | @store base off rs n ho hn h =>
    subst h
    refine ⟨⟨pc' + 4, regs', write mem' (regs'.x base + off) (regs'.x rs).toNat n⟩, ?_, rfl, rfl,
      fun x hx => write_same (hmem hx) _ _ _⟩
    simp only [execute, ho, hn]
    rfl
  | plain h hall =>
    subst h
    exact ⟨_, hall mem', rfl, rfl, hmem⟩

/-- A step writes no other bytes than those of its access. -/
theorem execute_frame (he : execute inst m = some m')
    (ha : ∀ a n, m.access inst = some (a, n) → P a n) : Set.EqOn m'.mem m.mem (Bytes P)ᶜ := by
  cases execute_effect he with
  | load ho hop hv h =>
    subst h
    exact Set.eqOn_refl _ _
  | @store base off rs n ho hn h =>
    subst h
    simp only [Machine.access, ho] at ha
    have hP := ha _ n (by rw [hn]; rfl)
    exact fun x hx => write_apply fun j hj hxj => hx ⟨_, n, hP, j, hj, hxj⟩
  | plain h hall =>
    subst h
    exact Set.eqOn_refl _ _

theorem AllowedStep.frame (h : AllowedStep reader P m m') : Set.EqOn m'.mem m.mem (Bytes P)ᶜ := by
  obtain ⟨inst, -, -, he, ha⟩ := h
  exact execute_frame he ha

theorem AllowedStep.alike (h : AllowedStep reader P m m') (hk : Alike (Bytes P) m k) :
    ∃ k', AllowedStep reader P k k' ∧ Alike (Bytes P) m' k' := by
  obtain ⟨inst, hd, hl, he, ha⟩ := h
  obtain ⟨k', hk', halike⟩ := execute_alike he ha hk
  refine ⟨k', ⟨inst, hk.pc ▸ hd, hl, hk', fun a n hacc => ha a n ?_⟩, halike⟩
  rw [← hacc, Machine.access, Machine.access, hk.regs]

/-- A run leaves the bytes alone that its accesses do not touch. -/
theorem frame_of_run (h : ReflTransGen (AllowedStep reader P) m g) :
    Set.EqOn g.mem m.mem (Bytes P)ᶜ := by
  induction h with
  | refl => exact Set.eqOn_refl _ _
  | tail _ hstep ih => exact hstep.frame.trans ih

/-- A run takes the same way from every machine that differs only in bytes that it does not
touch. -/
theorem alike_of_run (h : ReflTransGen (AllowedStep reader P) m g) (hk : Alike (Bytes P) m k) :
    ∃ g', ReflTransGen (AllowedStep reader P) k g' ∧ Alike (Bytes P) g g' := by
  induction h with
  | refl => exact ⟨k, .refl, hk⟩
  | tail _ hstep ih =>
    obtain ⟨k', hrun, halike⟩ := ih
    obtain ⟨g', hstep', halike'⟩ := hstep.alike halike
    exact ⟨g', .tail hrun hstep', halike'⟩

end Reference

end Riscy.RISCV

namespace Riscy.AArch64
open RISCV Runs
open Relation (ReflTransGen)

section Isolation
variable {reader : MemoryReader} {P : BitVec 64 → ℕ → Prop} {entry : BitVec 64} {cfg : CFG}
  {o : ItemOrders} {m : ModuleAsm} {L : Layout m} {a base : BitVec 64} {g₀ g k₀ : Machine}
  {c d : Config} {p : Place}

/-- The call ends at `p` with the registers of `g` in the struct and its bytes of `P` in memory,
and all other bytes outside the struct are as before. -/
structure EndsWithin (P : BitVec 64 → ℕ → Prop) (p : Place) (a base : BitVec 64) (g : Machine)
    (c d : Config) : Prop where
  place : d.place = p
  regs : ∀ r < 32, BitVec.ofNat 64 (wordAt d.host.mem a r) = g.regs.x r
  mem : ∀ x ∈ Bytes P, d.host.mem (x + base) = g.mem x
  rest : ∀ x, Outside a x → x - base ∉ Bytes P → d.host.mem x = c.host.mem x

theorem bytes_outside (hmiss : ∀ x n, P x n → Misses a base x n) {x : BitVec 64}
    (hx : x ∈ Bytes P) : Outside a (x + base) := by
  obtain ⟨y, n, hP, i, hi, rfl⟩ := hx
  have hout := outside_of_apart (hmiss y n hP) hi
  have hadd : y + BitVec.ofNat 64 i + base = y + base + BitVec.ofNat 64 i := by
    ring
  rw [hadd]
  exact hout

theorem StoppedAt.endsWithin (hmiss : ∀ x n, P x n → Misses a base x n)
    (hc : EnteredFor L entry a base g₀ c) (hrun : ReflTransGen (AllowedStep reader P) g₀ g)
    (h : StoppedAt p a base g d) : EndsWithin P p a base g c d := by
  refine ⟨h.place, h.guest.regs, fun x hx => h.guest.mem x (bytes_outside hmiss hx),
    fun x hout hx => ?_⟩
  have hback : x - base + base = x := BitVec.sub_add_cancel x base
  have hd := h.guest.mem (x - base) (by rwa [hback])
  have hc' := hc.guest.mem (x - base) (by rwa [hback])
  rw [hback] at hd hc'
  rw [hd, hc', frame_of_run hrun hx]

/-- Calls of a translated program are confined to what the guest touches: from every start that
agrees with `g₀` on the registers and on the bytes of `P`, whatever else stands in memory, the call
ends where the run from `g₀` does and with its results, and changes nothing else. -/
theorem translated_isolated (h : Builds reader entry cfg) (hm : translate o cfg = .ok m)
    (hsize : Manageable o cfg) (L : Layout m) (hmiss : ∀ x n, P x n → Misses a base x n)
    (hrun : ReflTransGen (AllowedStep reader P) g₀ g) (hp : StopsAt reader g p)
    (hk : Alike (Bytes P) g₀ k₀) (hc : EnteredFor L entry a base k₀ c) :
    Inevitable (AArch64.step L) (EndsWithin P p a base g c) c := by
  have hof := translate_inv h hm
  obtain ⟨g', hrun', halike⟩ := alike_of_run hrun hk
  have hstop : StopsAt reader g' p := by
    cases hp with
    | undecoded hd => exact .undecoded (halike.pc ▸ hd)
    | trap hd hop => exact .trap (halike.pc ▸ hd) hop
    | ret hd hop ho => exact .ret (halike.pc ▸ hd) hop ho
  have hmisses : ReflTransGen (AllowedStep reader (Misses a base)) k₀ g' :=
    ReflTransGen.mono (fun _ _ hs => hs.mono hmiss) _ _ hrun'
  refine (stopped_of_run h.sound hof hsize hc hmisses hstop).trans fun d hd => .now ?_
  have hend := hd.endsWithin hmiss hc hrun'
  exact ⟨hend.place, fun r hr => by rw [hend.regs r hr, halike.regs],
    fun x hx => by rw [hend.mem x hx, halike.mem hx], hend.rest⟩

end Isolation

section Frame
variable {reader : MemoryReader} {entry : BitVec 64} {cfg : CFG} {o : ItemOrders} {m : ModuleAsm}
  {L : Layout m} {left : Leftover} {c₀ c d : Config}

/-- The frame of the caller is where it was: the frame pointer has not changed, and the stack
pointer will be back when the calls above have returned. -/
structure FrameKept (c₀ c : Config) : Prop where
  fp : c.host.r 29 = c₀.host.r 29
  sp : (c.frames.getLast?.map Frame.sp).getD c.sp = c₀.sp

theorem FrameKept.dispatch (hk : FrameKept c₀ c) {h : Host PReg} (hr : h.r 29 = c.host.r 29)
    (hd : AArch64.dispatch L left c h = some d) : FrameKept c₀ d := by
  unfold AArch64.dispatch at hd
  split at hd
  · cases hd
    exact ⟨hr.trans hk.fp, hk.sp⟩
  · obtain ⟨j, -, hj⟩ := Option.bind_eq_some_iff.mp hd
    cases hj
    refine ⟨hr.trans hk.fp, ?_⟩
    rw [← hk.sp]
    cases c.frames <;> rfl

theorem FrameKept.jumpTo (hk : FrameKept c₀ c) {h : Host PReg} (hr : h.r 29 = c.host.r 29)
    {x : BitVec 64} (hd : AArch64.jumpTo L c h x = some d) : FrameKept c₀ d := by
  obtain ⟨p, -, rfl⟩ := Option.map_eq_some_iff.mp hd
  exact ⟨hr.trans hk.fp, hk.sp⟩

/-- No line of a block writes `x29`, and C code keeps its stack. -/
theorem FrameKept.step (hcfg : cfg.Sound reader entry) (hof : ModuleOf o cfg m)
    (hk : FrameKept c₀ c) (hs : AArch64.step L left c = some d) : FrameKept c₀ d := by
  cases hplace : c.place with
  | caller | trapped =>
    simp only [AArch64.step, hplace] at hs
    cases hs
  | entry =>
    simp only [AArch64.step, hplace] at hs
    exact hk.dispatch (h := (c.host.set 19 _).set 30 _) rfl hs
  | stub =>
    simp only [AArch64.step, hplace] at hs
    exact hk.jumpTo rfl hs
  | resume =>
    simp only [AArch64.step, hplace] at hs
    split at hs
    · cases hs
    · rename_i f fs hframes
      have hpop : FrameKept c₀ { c with place := .resume, frames := fs, sp := f.sp } := by
        refine ⟨hk.fp, ?_⟩
        rw [← hk.sp, hframes]
        cases fs <;> rfl
      exact hpop.jumpTo (h := (c.host.afterC left).set 30 f.link) rfl hs
  | block i =>
    by_cases hi : i < m.blocks.length
    · obtain ⟨bb, -, asm, t, e, -, -, -, -, hkeep, hstep⟩ := step_block (L := L) hof hcfg hplace hi
      have hr : t.r 29 = c.host.r 29 := hkeep 29 (by decide)
      rw [hstep] at hs
      cases e with
      | goto l =>
        obtain ⟨j, -, rfl⟩ := Option.map_eq_some_iff.mp hs
        exact ⟨hr.trans hk.fp, hk.sp⟩
      | indirect x => exact hk.dispatch (h := t.set 30 _) hr hs
      | ret => exact hk.jumpTo hr hs
      | trap =>
        cases hs
        exact ⟨hr.trans hk.fp, hk.sp⟩
    · have hnone : m.blocks[i]? = none := List.getElem?_eq_none (by omega)
      simp only [AArch64.step, hplace, hnone] at hs
      cases hs

theorem FrameKept.run (hcfg : cfg.Sound reader entry) (hof : ModuleOf o cfg m)
    (hc : c₀.frames = []) (hr : ReflTransGen (Step L) c₀ d) : FrameKept c₀ d := by
  induction hr with
  | refl => exact ⟨rfl, by rw [hc]; rfl⟩
  | tail _ hs ih =>
    obtain ⟨left, hs⟩ := hs
    exact ih.step hcfg hof hs

end Frame

section Marked

/-- Memory with one byte that is not zero, which `loadReader`'s program does not touch. -/
def markedMemory : ByteMemory.Memory 64 := fun x => if x = 0x2000 then 0xff else 0

def markedConfig {m : ModuleAsm} (L : Layout m) : Config :=
  { loadConfig L with host := { (loadConfig L).host with mem := markedMemory } }

theorem marked_zero {x : BitVec 64} (h : x ≠ 0x2000) : markedMemory x = 0 :=
  if_neg h

theorem marked_word {k : ℕ} (h : k < 34) : wordAt markedMemory 0x1000 k = 0 := by
  rw [← zero_word k]
  refine ByteMemory.read_congr fun i hi => marked_zero ?_
  bv_omega

theorem load_isolated : ∃ m, translate default loadCFG = .ok m ∧ ∃ L : Layout m,
    Inevitable (AArch64.step L) (EndsWithin (fun x n => x = 0 ∧ n = 8) .caller 0x1000 0 afterLoad
      (markedConfig L)) (markedConfig L) := by
  have hir : ∀ bb ∈ loadCFG.blocks, irSize bb.insts < 2 ^ 31 := by decide
  obtain ⟨m, hm, -⟩ := translates_short load_builds.sound hir default
  obtain ⟨L⟩ := (translate_inv load_builds hm).layout load_builds.sound (by decide)
  have hd : decodeNext loadReader afterLoad.pc =
      .ok ⟨12, 0x00008067, .JALR, [.reg 0, .mem 1 0]⟩ := rfl
  have hret : StopsAt loadReader afterLoad .caller := .ret hd rfl rfl
  have halike : Alike (Bytes fun x n => x = 0 ∧ n = 8) (zeroMachine 0)
      { zeroMachine 0 with mem := markedMemory } := by
    refine ⟨rfl, rfl, ?_⟩
    rintro x ⟨y, n, ⟨rfl, rfl⟩, i, hi, rfl⟩
    exact marked_zero (by bv_omega)
  refine ⟨m, hm, L, translated_isolated load_builds hm load_manageable L
    (fun _ _ => load_misses) load_touches hret halike
    ⟨⟨rfl, rfl, rfl⟩, rfl, rfl, rfl, fun r hr => ?_, ?_,
      fun x _ => congrArg markedMemory (BitVec.add_zero x)⟩⟩
  · exact congrArg (BitVec.ofNat 64) (marked_word (by omega))
  · exact congrArg (BitVec.ofNat 64) (marked_word (k := 32) (by omega))

end Marked

end Riscy.AArch64
