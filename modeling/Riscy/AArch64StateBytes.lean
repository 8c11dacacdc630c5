import Riscy.AArch64LiftedTyped
import Riscy.AArch64Reserved
import Riscy.Runs

/-! The state struct in memory. Lines were given a struct of words beside the bytes that they
access; if these accesses miss the struct, they do the same to the struct as bytes. -/
namespace Riscy.AArch64
open ByteMemory Runs

/-- The byte is not one of the state struct at `a`. -/
def Outside (a x : BitVec 64) : Prop := ∀ j < structSize, x ≠ a + BitVec.ofNat 64 j

theorem outside_of_apart {a b : BitVec 64} {n i : ℕ} (h : Apart a structSize b n) (hi : i < n) :
    Outside a (b + BitVec.ofNat 64 i) := fun j hj he => h j hj i hi he.symm

section Line
variable {ρ : Type} [DecidableEq ρ] {x0 y0 : ρ} {s s' t : Host ρ} {l : Line ρ}

/-- The bytes that a line accesses, other than through the state pointer. -/
def Line.access (x0 : ρ) (s : Host ρ) : Line ρ → Option (BitVec 64 × ℕ)
  | .ldr size _ base off | .str size _ base off =>
    if base = x0 then none else some (s.r base + off.signExtend 64, size.bytes)
  | _ => none

/-- What the line accesses misses the state struct. -/
def Line.Clear (x0 : ρ) (s : Host ρ) (l : Line ρ) : Prop :=
  ∀ a n, l.access x0 s = some (a, n) → Apart s.addr structSize a n

/-- `t` is `s` with the state struct in memory. -/
structure InMemory (s t : Host ρ) : Prop where
  r : t.r = s.r
  flags : t.flags = s.flags
  words : ∀ k < 33, BitVec.ofNat 64 (wordAt t.mem s.addr k) = s.words k
  mem : ∀ x, Outside s.addr x → t.mem x = s.mem x

theorem InMemory.set (h : InMemory s t) (d : ρ) (v : BitVec 64) :
    InMemory (s.set d v) (t.set d v) :=
  ⟨by simp only [Host.set, h.r], h.flags, h.words, h.mem⟩

omit [DecidableEq ρ] in
theorem InMemory.read (h : InMemory s t) {a : BitVec 64} {n : ℕ}
    (ha : Apart s.addr structSize a n) : read t.mem a n = ByteMemory.read s.mem a n :=
  read_congr fun _ hi => h.mem _ (outside_of_apart ha hi)

theorem structWord_offset {off : BitVec 32} {k : ℕ} (h : structWord off = some k) :
    k < 33 ∧ off.signExtend 64 = BitVec.ofNat 64 (8 * k) := by
  have hext : ∀ k < 33, (BitVec.ofNat 32 (8 * k)).signExtend 64 = BitVec.ofNat 64 (8 * k) := by
    decide
  unfold structWord at h
  split_ifs at h with hoff
  cases h
  have heq : off = BitVec.ofNat 32 (8 * (off.toNat / 8)) := by
    apply BitVec.eq_of_toNat_eq
    rw [BitVec.toNat_ofNat]
    omega
  refine ⟨hoff.2, ?_⟩
  conv_lhs => rw [heq]
  exact hext _ hoff.2

omit [DecidableEq ρ] in
/-- A store to the struct. -/
theorem InMemory.storeWord (h : InMemory s t) {k : ℕ} (hk : k < 33) (v : BitVec 64) :
    InMemory { s with words := Function.update s.words k v }
      { t with mem := write t.mem (s.addr + BitVec.ofNat 64 (8 * k)) v.toNat 8 } where
  r := h.r
  flags := h.flags
  words i hi := by
    change BitVec.ofNat 64 (ByteMemory.read
      (write t.mem (s.addr + BitVec.ofNat 64 (8 * k)) v.toNat 8)
      (s.addr + BitVec.ofNat 64 (8 * i)) 8) = Function.update s.words k v i
    by_cases hik : i = k
    · rw [hik, read_write_self _ _ _ (by decide), Function.update_self]
      apply BitVec.eq_of_toNat_eq
      rw [BitVec.toNat_ofNat]
      exact (Nat.mod_mod _ _).trans (Nat.mod_eq_of_lt v.isLt)
    · rw [read_write_apart (words_apart (by omega) (by omega) hik le_rfl),
        Function.update_of_ne hik]
      exact h.words i hi
  mem x hx := by
    refine (write_apply fun j hj => ?_).trans (h.mem x hx)
    rw [BitVec.add_assoc, ← BitVec.ofNat_add]
    exact hx _ (by rw [structSize]; omega)

omit [DecidableEq ρ] in
/-- A store that misses the struct. -/
theorem InMemory.store (h : InMemory s t) {a : BitVec 64} {n : ℕ}
    (ha : Apart s.addr structSize a n) (v : ℕ) :
    InMemory { s with mem := write s.mem a v n } { t with mem := write t.mem a v n } where
  r := h.r
  flags := h.flags
  words k hk := by
    have hw : wordAt (write t.mem a v n) s.addr k = wordAt t.mem s.addr k :=
      read_write_apart (apart_word ha (by omega)) v
    rw [hw]
    exact h.words k hk
  mem x hx := write_same (h.mem x hx) a v n

/-- A line that misses the struct does with the struct in memory what it does beside it. -/
theorem InMemory.exec (h : InMemory s t) (hx : s.r x0 = s.addr) (hb : l.base ≠ some y0)
    (hc : l.Clear x0 s) (he : l.exec x0 s = some s') :
    ∃ t', l.exec y0 t = some t' ∧ InMemory s' t' := by
  have hr : ∀ n, t.r n = s.r n := fun n => congrFun h.r n
  cases l with
  | ldr size d base off =>
    have hy : base ≠ y0 := fun h => hb (congrArg some h)
    simp only [Line.exec, if_neg hy, hr]
    simp only [Line.exec] at he
    split_ifs at he with h0 h1
    · obtain ⟨k, hk, rfl⟩ := Option.map_eq_some_iff.mp he
      obtain ⟨hlt, hoff⟩ := structWord_offset hk
      refine ⟨_, rfl, ?_⟩
      rw [h0, hx, hoff, h1.2]
      have hval : Size.x.extend (ByteMemory.read t.mem (s.addr + BitVec.ofNat 64 (8 * k)) 8) =
          s.words k := h.words k hlt
      rw [show Size.x.bytes = 8 from rfl, hval]
      exact h.set d _
    · cases he
      refine ⟨_, rfl, ?_⟩
      rw [h.read (hc _ _ (if_neg h0))]
      exact h.set d _
  | str size v base off =>
    have hy : base ≠ y0 := fun h => hb (congrArg some h)
    simp only [Line.exec, if_neg hy, hr]
    simp only [Line.exec] at he
    split_ifs at he with h0 h1
    · obtain ⟨k, hk, rfl⟩ := Option.map_eq_some_iff.mp he
      obtain ⟨hlt, hoff⟩ := structWord_offset hk
      refine ⟨_, rfl, ?_⟩
      rw [h0, hx, hoff, h1.2]
      exact h.storeWord hlt _
    · cases he
      exact ⟨_, rfl, h.store (hc _ _ (if_neg h0)) _⟩
  | cmp a b | cmpZero a =>
    cases he
    refine ⟨_, rfl, h.r, ?_, h.words, h.mem⟩
    simp only [hr]
  | cset d c =>
    cases he
    simp only [Line.exec, h.flags]
    exact ⟨_, rfl, h.set d _⟩
  | _ =>
    cases he
    simp only [Line.exec, hr]
    exact ⟨_, rfl, h.set _ _⟩

theorem Line.exec_addr (he : l.exec x0 s = some s') : s'.addr = s.addr := by
  cases l with
  | ldr size d base off | str size v base off =>
    simp only [Line.exec] at he
    split_ifs at he
    · obtain ⟨k, -, rfl⟩ := Option.map_eq_some_iff.mp he
      rfl
    · cases he
      rfl
  | _ =>
    cases he
    rfl

theorem runLines_addr {ls : List (Line ρ)} (h : runLines x0 ls s = some t) : t.addr = s.addr := by
  induction ls generalizing s with
  | nil =>
    cases h
    rfl
  | cons l ls ih =>
    obtain ⟨u, hu, h⟩ := Option.bind_eq_some_iff.mp h
    rw [ih h, l.exec_addr hu]

/-- Lines whose accesses miss the struct, one after another. -/
theorem InMemory.run {ls : List (Line ρ)} (h : InMemory s t) (hx : s.r x0 = s.addr)
    (hb : ∀ l ∈ ls, l.base ≠ some y0) (hd : ∀ l ∈ ls, l.dest ≠ some x0)
    (hc : Along (Line.exec x0) (Line.Clear x0) ls s) (hrun : runLines x0 ls s = some s') :
    ∃ t', runLines y0 ls t = some t' ∧ InMemory s' t' := by
  have hstep : ∀ l ∈ ls, ∀ s t s', InMemory s t ∧ s.r x0 = s.addr → l.Clear x0 s →
      l.exec x0 s = some s' → ∃ t', l.exec y0 t = some t' ∧ InMemory s' t' ∧
        s'.r x0 = s'.addr := by
    rintro l hl s t s' ⟨hin, hx⟩ hclear he
    obtain ⟨t', ht, hin'⟩ := hin.exec hx (hb l hl) hclear he
    exact ⟨t', ht, hin', by rw [l.exec_frame he (hd l hl), l.exec_addr he, hx]⟩
  obtain ⟨t', ht, hin, -⟩ := hc.follows hstep ⟨h, hx⟩ hrun
  exact ⟨t', ht, hin⟩

end Line

end Riscy.AArch64
