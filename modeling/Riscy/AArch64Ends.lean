import Riscy.AArch64EndToEnd

/-! Translated code ends exactly where the guest does: a call comes to an end, whatever C code
leaves behind, if and only if the reference stops, and a guest that runs on forever is neither
returned from nor trapped. -/
namespace Riscy.RISCV
open Relation (ReflTransGen)

section Forever
variable {reader : MemoryReader} {entry : BitVec 64} {cfg : CFG} {P : BitVec 64 → ℕ → Prop}
  {b g g₀ : Machine} {bb : BasicBlock} {j : ℕ}

/-- A guest that never comes to an end of its run comes to the end of its block. -/
theorem Tracked.comes_out (hcfg : cfg.Sound reader entry)
    (hsmall : ∀ bb ∈ cfg.blocks, bb.term = .Branch → irSize bb.insts < 2 ^ 31)
    (hgo : ∀ g, ReflTransGen (AllowedStep reader P) g₀ g → ∃ g', AllowedStep reader P g g')
    (hrun : ReflTransGen (AllowedStep reader P) g₀ g) (w : Tracked reader cfg P b bb j g) :
    ∃ b', ReflTransGen (AllowedStep reader P) g₀ b' ∧ AllowedBlock cfg P b b' ∧
      b'.pc ∈ cfg.indexByAddr := by
  induction hn : bb.insts.length - j generalizing j g with
  | zero =>
    obtain ⟨g', inst, hd, -⟩ := hgo g hrun
    obtain ⟨hj, -⟩ := w.toWithin.current hcfg hd
    omega
  | succ n ih =>
    obtain ⟨g', hstep⟩ := hgo g hrun
    rcases w.step hcfg hsmall hstep with w' | ⟨hout, hpc⟩
    · exact ih (hrun.tail hstep) w' (by omega)
    · exact ⟨g', hrun.tail hstep, ⟨bb, hout⟩, hpc⟩

end Forever

end Riscy.RISCV

namespace Riscy.AArch64
open RISCV Runs
open Relation (ReflTransGen)

section Ends
variable {reader : MemoryReader} {P : BitVec 64 → ℕ → Prop} {entry : BitVec 64} {cfg : CFG}
  {o : ItemOrders} {m : ModuleAsm} {L : Layout m} {a base : BitVec 64} {g₀ g : Machine}
  {c d : Config}

instance : Nonempty Leftover := ⟨⟨fun _ => 0, ⟨false, false, false, false⟩, 0⟩⟩

/-- Wherever a run of the reference comes to, it goes on or it is at an end. -/
def Progresses (reader : MemoryReader) (P : BitVec 64 → ℕ → Prop) (g₀ : Machine) : Prop :=
  ∀ g, ReflTransGen (AllowedStep reader P) g₀ g →
    (∃ g', AllowedStep reader P g g') ∨ ∃ p, StopsAt reader g p

theorem StopsAt.not_lifted {p : Place} (hp : StopsAt reader g p) (g' : Machine) :
    ¬ AllowedStep reader P g g' := by
  rintro ⟨inst, hd, hl, -⟩
  cases hp with
  | undecoded hd' => cases hd.symm.trans hd'
  | trap hd' hop =>
    cases hd.symm.trans hd'
    rcases hop with hop | hop <;> simp [Lifted, hop] at hl
  | ret hd' hop =>
    cases hd.symm.trans hd'
    simp [Lifted, hop] at hl

theorem allowedStep_unique {Q : BitVec 64 → ℕ → Prop} {g₁ g₂ : Machine}
    (h : AllowedStep reader P g g₁) (h' : AllowedStep reader Q g g₂) : g₁ = g₂ := by
  obtain ⟨inst, hd, -, he, -⟩ := h
  obtain ⟨inst', hd', -, he', -⟩ := h'
  cases hd.symm.trans hd'
  exact Option.some.inj (he.symm.trans he')

/-- A guest that keeps to `P` does so on every run. -/
theorem Progresses.keeps {Q : BitVec 64 → ℕ → Prop} (h : Progresses reader P g₀)
    (hrun : ReflTransGen (AllowedStep reader Q) g₀ g) :
    ReflTransGen (AllowedStep reader P) g₀ g := by
  induction hrun with
  | refl => exact .refl
  | tail _ hstep ih =>
    rcases h _ ih with ⟨g', hstep'⟩ | ⟨p, hp⟩
    · cases allowedStep_unique hstep hstep'
      exact ih.tail hstep'
    · exact absurd hstep (hp.not_lifted _)

theorem Progresses.mono {Q : BitVec 64 → ℕ → Prop} (hPQ : ∀ x n, P x n → Q x n)
    (h : Progresses reader P g₀) : Progresses reader Q g₀ := by
  intro g hrun
  rcases h g (h.keeps hrun) with ⟨g', hstep⟩ | hp
  · exact Or.inl ⟨g', hstep.mono hPQ⟩
  · exact Or.inr hp

/-- The run of the reference comes to an end. -/
def Halts (reader : MemoryReader) (P : BitVec 64 → ℕ → Prop) (g₀ : Machine) : Prop :=
  ∃ g p, ReflTransGen (AllowedStep reader P) g₀ g ∧ StopsAt reader g p

/-- The host stands before a block to which a run of the guest comes. -/
def ServesRun (reader : MemoryReader) (o : ItemOrders) (cfg : CFG) (L : Layout m)
    (a base : BitVec 64) (g₀ : Machine) (c : Config) : Prop :=
  ∃ b, ReflTransGen (AllowedStep reader (Misses a base)) g₀ b ∧ b.pc ∈ cfg.indexByAddr ∧
    Serves o cfg L a base b c

theorem StopsAt.final {p : Place} (hp : StopsAt reader g p) (h : StoppedAt p a base g d) :
    Final (AArch64.step L) d := by
  intro left
  have hplace := h.place
  cases hp <;> simp only [AArch64.step, hplace]

/-- A guest that does not halt keeps the host going from block to block. -/
theorem ServesRun.ahead (hcfg : cfg.Sound reader entry) (hof : ModuleOf o cfg m)
    (hsize : Manageable o cfg) (hgo : ∀ g, ReflTransGen (AllowedStep reader (Misses a base)) g₀ g →
      ∃ g', AllowedStep reader (Misses a base) g g')
    (h : ServesRun reader o cfg L a base g₀ c) :
    Ahead (AArch64.step L) (ServesRun reader o cfg L a base g₀) c := by
  obtain ⟨b, hrun, hpc, hs⟩ := h
  obtain ⟨bb, w⟩ := tracked_zero hcfg (P := Misses a base) hpc
  have hsmall : ∀ bb ∈ cfg.blocks, bb.term = .Branch → irSize bb.insts < 2 ^ 31 :=
    fun bb hbb _ => (short_of_length (hsize.insts bb hbb)).2
  obtain ⟨b', hrun', hblock, hpc'⟩ := w.comes_out hcfg hsmall hgo hrun
  obtain ⟨next, hstep, hnext⟩ := hs.step hcfg hsize hof hblock
  exact ⟨next, hstep, fun left => (hnext left).trans fun d hd => .now ⟨b', hrun', hpc', hd⟩⟩

/-- Every end of a call is the one that the guest comes to. -/
theorem stopped_of_final (hcfg : cfg.Sound reader entry) (hof : ModuleOf o cfg m)
    (hsize : Manageable o cfg) (hc : EnteredFor L entry a base g₀ c)
    (hgo : Progresses reader (Misses a base) g₀) (hr : ReflTransGen (Step L) c d)
    (hd : Final (AArch64.step L) d) :
    ∃ g p, ReflTransGen (AllowedStep reader (Misses a base)) g₀ g ∧ StopsAt reader g p ∧
      StoppedAt p a base g d := by
  by_cases hhalt : Halts reader (Misses a base) g₀
  · obtain ⟨g, p, hrun, hp⟩ := hhalt
    have hend := stopped_of_run hcfg hof hsize hc hrun hp
    exact ⟨g, p, hrun, hp, hend.final (fun t ht => hp.final ht) hr hd⟩
  · have hgo' : ∀ g, ReflTransGen (AllowedStep reader (Misses a base)) g₀ g →
        ∃ g', AllowedStep reader (Misses a base) g g' := by
      intro g hrun
      rcases hgo g hrun with hstep | ⟨p, hp⟩
      · exact hstep
      · exact absurd ⟨g, p, hrun, hp⟩ hhalt
    have hstart : Inevitable (AArch64.step L) (ServesRun reader o cfg L a base g₀) c := by
      have hentry := serves_entry hof hcfg hsize.blocks hc.entered hc.state
        (hc.target.trans hc.pc.symm) hc.pc hc.guest
      exact hentry.trans fun d hs => .now ⟨g₀, .refl, hc.pc ▸ hcfg.entry, hs⟩
    exact absurd hd (hstart.endless (fun t ht => ht.ahead hcfg hof hsize hgo') hr)

/-- A call of a translated program ends if and only if the guest does, and every end that it can
come to, whatever C code leaves behind, is the one of the guest: a trap or a return, with its
registers and memory. -/
theorem translated_ends_iff (h : Builds reader entry cfg) (hm : translate o cfg = .ok m)
    (hsize : Manageable o cfg) (L : Layout m) (hc : EnteredFor L entry a base g₀ c)
    (hgo : Progresses reader (Misses a base) g₀) :
    ((∃ d, ReflTransGen (Step L) c d ∧ Final (AArch64.step L) d) ↔
        Halts reader (Misses a base) g₀) ∧
      ∀ d, ReflTransGen (Step L) c d → Final (AArch64.step L) d →
        ∃ g p, ReflTransGen (AllowedStep reader (Misses a base)) g₀ g ∧ StopsAt reader g p ∧
          StoppedAt p a base g d := by
  have hof := translate_inv h hm
  refine ⟨⟨?_, ?_⟩, fun d hr hd => stopped_of_final h.sound hof hsize hc hgo hr hd⟩
  · rintro ⟨d, hr, hd⟩
    obtain ⟨g, p, hrun, hp, -⟩ := stopped_of_final h.sound hof hsize hc hgo hr hd
    exact ⟨g, p, hrun, hp⟩
  · rintro ⟨g, p, hrun, hp⟩
    obtain ⟨d, hr, hd⟩ := (stopped_of_run h.sound hof hsize hc hrun hp).reached
    exact ⟨d, hr, hp.final hd⟩

end Ends

section Spin

/-- `jal x0, 0`. -/
def spinReader : MemoryReader := fun a => if a = 0 then some 0x6f else none

def spinCFG : CFG := ⟨0, [⟨0, [⟨0, 0x6f, .JAL, [.reg 0, .imm 0]⟩], .Jump, [0]⟩], AList.insert 0 0 ∅⟩

theorem spin_builds : Builds spinReader 0 spinCFG := ⟨2, rfl⟩

theorem spin_manageable : Manageable default spinCFG where
  blocks := by decide
  insts := by decide
  keeps bb hbb := by
    obtain rfl := List.mem_singleton.mp hbb
    exact keepsFirst_of_merges spin_builds.sound hbb (short_of_length (by decide)).1 (by decide)

theorem spin_decodes : decodeNext spinReader 0 = .ok ⟨0, 0x6f, .JAL, [.reg 0, .imm 0]⟩ := rfl

theorem spin_execute {g : Machine} (h : g.pc = 0) :
    execute ⟨0, 0x6f, .JAL, [.reg 0, .imm 0]⟩ g = some g := by
  obtain ⟨pc, regs, mem⟩ := g
  cases h
  simp [execute, RegFile.set]

theorem spin_step {P : BitVec 64 → ℕ → Prop} {g : Machine} (h : g.pc = 0) :
    AllowedStep spinReader P g g :=
  ⟨_, by rw [h]; exact spin_decodes, by simp [Lifted], spin_execute h, fun _ _ ha => by cases ha⟩

theorem spin_run {P : BitVec 64 → ℕ → Prop} {g g' : Machine} (h : g.pc = 0)
    (hrun : ReflTransGen (AllowedStep spinReader P) g g') : g'.pc = 0 := by
  induction hrun with
  | refl => exact h
  | tail _ hstep ih =>
    obtain ⟨inst, hd, -, he, -⟩ := hstep
    rw [ih, spin_decodes] at hd
    cases hd
    rw [spin_execute ih] at he
    cases he
    exact ih

theorem spin_not_halts {P : BitVec 64 → ℕ → Prop} : ¬ Halts spinReader P (zeroMachine 0) := by
  rintro ⟨g, p, hrun, hp⟩
  have hpc : g.pc = 0 := spin_run rfl hrun
  cases hp with
  | undecoded hd =>
    rw [hpc, spin_decodes] at hd
    cases hd
  | trap hd hop =>
    rw [hpc, spin_decodes] at hd
    cases hd
    rcases hop with hop | hop <;> cases hop
  | ret hd hop ho =>
    rw [hpc, spin_decodes] at hd
    cases hd
    cases hop

theorem spin_endless : ∃ m, translate default spinCFG = .ok m ∧ ∃ L : Layout m,
    ∀ d, ReflTransGen (Step L) (loadConfig L) d → ¬ Final (AArch64.step L) d := by
  obtain ⟨m, hm, -⟩ := translates_short spin_builds.sound (by decide) default
  obtain ⟨L⟩ := (translate_inv spin_builds hm).layout spin_builds.sound (by decide)
  have hends := translated_ends_iff spin_builds hm spin_manageable L (load_entered L)
    fun g hrun => Or.inl ⟨g, spin_step (spin_run rfl hrun)⟩
  exact ⟨m, hm, L, fun d hr hd => spin_not_halts (hends.1.mp ⟨d, hr, hd⟩)⟩

end Spin

end Riscy.AArch64
