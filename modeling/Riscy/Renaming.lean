import Mathlib

/-! Straight-line code over named registers, run under an assignment of places to the
names. If names that share a place have ranges that do not overlap, the run computes what
it computes with a place of its own for every name. -/
namespace Riscy.Renaming

/-- An instruction: the names it reads, the name it writes, and its effect on the rest of
the state, together with the value for the name that it writes. -/
structure Instr (N V σ : Type*) where
  reads : List N
  write : Option N
  exec : (N → V) → σ → Option (V × σ)
  exec_congr : ∀ r r' s, (∀ n ∈ reads, r n = r' n) → exec r s = exec r' s

variable {N P V σ : Type*}

def Instr.Occurs (i : Instr N V σ) (n : N) : Prop := n ∈ i.reads ∨ i.write = some n

/-- Some instruction before position `j` writes `n`. -/
def WrittenBefore (is : List (Instr N V σ)) (j : ℕ) (n : N) : Prop :=
  ∃ k < j, ∃ i, is[k]? = some i ∧ i.write = some n

/-- A range for every name, and places that are shared only between ranges that do not
overlap. Global names keep their places to themselves. -/
structure Allocation (is : List (Instr N V σ)) (f : N → P) where
  glob : N → Prop
  first : N → ℕ
  last : N → ℕ
  within : ∀ j i n, is[j]? = some i → i.Occurs n → ¬ glob n → first n ≤ j ∧ j ≤ last n
  defined : ∀ j i n, is[j]? = some i → n ∈ i.reads → ¬ glob n → WrittenBefore is j n
  apart : ∀ n m, (∃ i ∈ is, i.Occurs n) → (∃ i ∈ is, i.Occurs m) → ¬ glob n → ¬ glob m →
    n ≠ m → f n = f m → last n ≤ first m ∨ last m ≤ first n
  glob_apart : ∀ g n, glob g → (∃ i ∈ is, i.write = some n) → n ≠ g → f n ≠ f g

section Agree
variable {is : List (Instr N V σ)} {f : N → P}

/-- At position `j` the places of the names that are still in use hold their values. -/
structure Agree (a : Allocation is f) (j : ℕ) (r : N → V) (q : P → V) : Prop where
  globals : ∀ g, a.glob g → q (f g) = r g
  names : ∀ n, ¬ a.glob n → WrittenBefore is j n → j ≤ a.last n → q (f n) = r n

theorem Agree.initial (a : Allocation is f) {r : N → V} {q : P → V}
    (h : ∀ g, a.glob g → q (f g) = r g) : Agree a 0 r q :=
  ⟨h, fun _ _ hw _ => by
    obtain ⟨k, hk, -⟩ := hw
    exact absurd hk (Nat.not_lt_zero k)⟩

theorem Agree.reads {a : Allocation is f} {j : ℕ} {r : N → V} {q : P → V} (h : Agree a j r q)
    {i : Instr N V σ} (hi : is[j]? = some i) {n : N} (hn : n ∈ i.reads) : (q ∘ f) n = r n := by
  by_cases hg : a.glob n
  · exact h.globals n hg
  · exact h.names n hg (a.defined j i n hi hn hg) (a.within j i n hi (Or.inl hn) hg).2

end Agree

section Names
variable {is js : List (Instr N V σ)} {f : N → P}

/-- The lists have the same names at the same positions. -/
def SameNames (is js : List (Instr N V σ)) : Prop :=
  is.map (fun i => (i.reads, i.write)) = js.map fun i => (i.reads, i.write)

theorem SameNames.get (h : SameNames is js) {j : ℕ} {i : Instr N V σ} (hi : is[j]? = some i) :
    ∃ i', js[j]? = some i' ∧ i'.reads = i.reads ∧ i'.write = i.write := by
  have hj := congrArg (fun l => l[j]?) h
  simp only [List.getElem?_map, hi, Option.map_some] at hj
  obtain ⟨i', hi', he⟩ := Option.map_eq_some_iff.mp hj.symm
  exact ⟨i', hi', (Prod.mk.inj he).1, (Prod.mk.inj he).2⟩

theorem SameNames.occurs (h : SameNames is js) {n : N} (hn : ∃ i ∈ is, i.Occurs n) :
    ∃ i ∈ js, i.Occurs n := by
  obtain ⟨i, hi, hn⟩ := hn
  obtain ⟨j, hj⟩ := List.mem_iff_getElem?.mp hi
  obtain ⟨i', hi', hr, hw⟩ := h.get hj
  refine ⟨i', List.mem_of_getElem? hi', ?_⟩
  rwa [Instr.Occurs, hr, hw]

/-- Only the names of the instructions matter to an allocation. -/
def Allocation.ofNames (a : Allocation is f) (h : SameNames is js) : Allocation js f where
  glob := a.glob
  first := a.first
  last := a.last
  within j i n hi hn hg := by
    obtain ⟨i', hi', hr, hw⟩ := SameNames.get h.symm hi
    exact a.within j i' n hi' (by rwa [Instr.Occurs, hr, hw]) hg
  defined j i n hi hn hg := by
    obtain ⟨i', hi', hr, -⟩ := SameNames.get h.symm hi
    obtain ⟨k, hk, i₁, hi₁, hw⟩ := a.defined j i' n hi' (hr ▸ hn) hg
    obtain ⟨i₂, hi₂, -, hw₂⟩ := h.get hi₁
    exact ⟨k, hk, i₂, hi₂, hw₂.trans hw⟩
  apart n m hn hm hgn hgm hne he :=
    a.apart n m (SameNames.occurs h.symm hn) (SameNames.occurs h.symm hm) hgn hgm hne he
  glob_apart g n hg hw hne := by
    obtain ⟨i, hi, hd⟩ := hw
    obtain ⟨j, hj⟩ := List.mem_iff_getElem?.mp hi
    obtain ⟨i', hi', -, hw'⟩ := SameNames.get h.symm hj
    exact a.glob_apart g n hg ⟨i', List.mem_of_getElem? hi', hw'.trans hd⟩ hne

end Names

variable [DecidableEq N] [DecidableEq P]

def store (r : P → V) (d : Option P) (v : V) : P → V :=
  match d with
  | none => r
  | some d => Function.update r d v

/-- One instruction, with the names at the places that `f` gives them. -/
def step (f : N → P) (c : (P → V) × σ) (i : Instr N V σ) : Option ((P → V) × σ) :=
  (i.exec (c.1 ∘ f) c.2).map fun out => (store c.1 (i.write.map f) out.1, out.2)

def run (f : N → P) (is : List (Instr N V σ)) (c : (P → V) × σ) : Option ((P → V) × σ) :=
  is.foldlM (step f) c

section Run
variable {is : List (Instr N V σ)} {f : N → P}

/-- A write hits no place that is still in use. -/
theorem Agree.write {a : Allocation is f} {j : ℕ} {r : N → V} {q : P → V} (h : Agree a j r q)
    {i : Instr N V σ} (hi : is[j]? = some i) (v : V) :
    Agree a (j + 1) (store r i.write v) (store q (i.write.map f) v) := by
  cases hd : i.write with
  | none =>
    refine ⟨h.globals, fun n hg hw hl => h.names n hg ?_ (by omega)⟩
    obtain ⟨k, hk, i', hi', hwr⟩ := hw
    refine ⟨k, ?_, i', hi', hwr⟩
    rcases Nat.lt_succ_iff_lt_or_eq.mp hk with hk | rfl
    · exact hk
    · rw [hi] at hi'
      cases hi'
      rw [hd] at hwr
      cases hwr
  | some d =>
    have hmem : i ∈ is := List.mem_of_getElem? hi
    refine ⟨fun g hg => ?_, fun n hg hw hl => ?_⟩
    · change Function.update q (f d) v (f g) = Function.update r d v g
      by_cases hgd : g = d
      · rw [hgd, Function.update_self, Function.update_self]
      · have hne := a.glob_apart g d hg ⟨i, hmem, hd⟩ (Ne.symm hgd)
        rw [Function.update_of_ne hgd, Function.update_of_ne (Ne.symm hne), h.globals g hg]
    · change Function.update q (f d) v (f n) = Function.update r d v n
      by_cases hnd : n = d
      · rw [hnd, Function.update_self, Function.update_self]
      · obtain ⟨k, hk, i', hi', hwr⟩ := hw
        have hkj : k < j := by
          rcases Nat.lt_succ_iff_lt_or_eq.mp hk with hk | rfl
          · exact hk
          · rw [hi] at hi'
            cases hi'
            rw [hd] at hwr
            exact absurd (Option.some.inj hwr).symm hnd
        have hne : f n ≠ f d := by
          intro heq
          by_cases hgd : a.glob d
          · exact a.glob_apart d n hgd ⟨i', List.mem_of_getElem? hi', hwr⟩ hnd heq
          · have hk' := a.within k i' n hi' (Or.inr hwr) hg
            have hj := a.within j i d hi (Or.inr hd) hgd
            rcases a.apart n d ⟨i', List.mem_of_getElem? hi', Or.inr hwr⟩ ⟨i, hmem, Or.inr hd⟩
              hg hgd hnd heq with hle | hle <;> omega
        rw [Function.update_of_ne hnd, Function.update_of_ne hne]
        exact h.names n hg ⟨k, hkj, i', hi', hwr⟩ (by omega)

/-- Runs that end alike: both stuck, or with the same rest and agreeing registers. -/
theorem Agree.run (a : Allocation is f) {pre rest : List (Instr N V σ)} (hsplit : is = pre ++ rest)
    {r : N → V} {q : P → V} (h : Agree a pre.length r q) (s : σ) :
    Option.Rel (fun c c' => c.2 = c'.2 ∧ Agree a is.length c.1 c'.1)
      (run id rest (r, s)) (run f rest (q, s)) := by
  induction rest generalizing pre r q s with
  | nil =>
    rw [List.append_nil] at hsplit
    exact .some ⟨rfl, hsplit ▸ h⟩
  | cons i rest ih =>
    have hi : is[pre.length]? = some i := by
      rw [hsplit, List.getElem?_append_right le_rfl, Nat.sub_self]
      rfl
    have hexec : i.exec (q ∘ f) s = i.exec (r ∘ id) s :=
      i.exec_congr _ _ s fun n hn => h.reads hi hn
    change Option.Rel _ ((step id (r, s) i).bind _) ((step f (q, s) i).bind _)
    rw [step, step, hexec]
    cases he : i.exec (r ∘ id) s with
    | none => exact .none
    | some out =>
      have hid : i.write.map id = i.write := Option.map_id_apply
      have hw : Agree a (pre.length + 1) (store r (i.write.map id) out.1)
          (store q (i.write.map f) out.1) := by
        rw [hid]
        exact h.write hi out.1
      have hpre : is = (pre ++ [i]) ++ rest := by
        rw [hsplit, List.append_assoc]
        rfl
      have hlen : (pre ++ [i]).length = pre.length + 1 := List.length_append
      exact ih hpre (hlen ▸ hw) out.2

/-- Under a valid allocation a run ends as the run with a place for every name. -/
theorem run_rel (a : Allocation is f) {r : N → V} {q : P → V}
    (h : ∀ g, a.glob g → q (f g) = r g) (s : σ) :
    Option.Rel (fun c c' => c.2 = c'.2 ∧ Agree a is.length c.1 c'.1)
      (run id is (r, s)) (run f is (q, s)) :=
  Agree.run a (List.nil_append is).symm (Agree.initial a h) s

/-- Under names that are all different a run ends as under the names themselves. -/
theorem run_injOn {S : Set N} (hf : Set.InjOn f S) (his : ∀ i ∈ is, ∀ n, i.Occurs n → n ∈ S)
    {r : N → V} {q : P → V} (h : ∀ n ∈ S, q (f n) = r n) (s : σ) :
    Option.Rel (fun c c' => c.2 = c'.2 ∧ ∀ n ∈ S, c'.1 (f n) = c.1 n)
      (run id is (r, s)) (run f is (q, s)) := by
  induction is generalizing r q s with
  | nil => exact .some ⟨rfl, h⟩
  | cons i is ih =>
    have hi := his i (List.mem_cons_self ..)
    have hexec : i.exec (q ∘ f) s = i.exec (r ∘ id) s :=
      i.exec_congr _ _ s fun n hn => h n (hi n (Or.inl hn))
    change Option.Rel _ ((step id (r, s) i).bind _) ((step f (q, s) i).bind _)
    rw [step, step, hexec]
    cases he : i.exec (r ∘ id) s with
    | none => exact .none
    | some out =>
      refine ih (fun j hj => his j (List.mem_cons_of_mem _ hj)) (fun n hn => ?_) out.2
      cases hd : i.write with
      | none => exact h n hn
      | some d =>
        change Function.update q (f d) out.1 (f n) = Function.update r d out.1 n
        by_cases hnd : n = d
        · rw [hnd, Function.update_self, Function.update_self]
        · have hne : f n ≠ f d := fun he => hnd (hf hn (hi d (Or.inr hd)) he)
          rw [Function.update_of_ne hnd, Function.update_of_ne hne, h n hn]

end Run

end Riscy.Renaming
