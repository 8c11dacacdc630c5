import Mathlib

/-! Runs of a partial step function: what holds along a run, runs of two machines over the
same instructions, and goals that are reached whatever choices the steps leave open. -/
namespace Riscy.Runs
open Relation (ReflTransGen)
variable {ι σ τ χ : Type*}

section Along
variable (step : σ → ι → Option σ) (Q : σ → ι → Prop)

/-- `Q` holds of every instruction, in the state in which it is reached. -/
def Along : List ι → σ → Prop
  | [], _ => True
  | i :: is, s => Q s i ∧ ∀ t, step s i = some t → Along is t

variable {step Q} {is js : List ι} {s : σ}

theorem along_append : Along step Q (is ++ js) s ↔
    Along step Q is s ∧ ∀ t, is.foldlM step s = some t → Along step Q js t := by
  induction is generalizing s with
  | nil =>
    constructor
    · intro h
      refine ⟨trivial, fun t ht => ?_⟩
      cases ht
      exact h
    · exact fun h => h.2 s rfl
  | cons i is ih =>
    simp only [List.cons_append, Along, ih, List.foldlM_cons]
    constructor
    · rintro ⟨hi, his⟩
      refine ⟨⟨hi, fun t ht => (his t ht).1⟩, fun u hu => ?_⟩
      obtain ⟨t, ht, hu⟩ := Option.bind_eq_some_iff.mp hu
      exact (his t ht).2 u hu
    · rintro ⟨⟨hi, his⟩, hjs⟩
      refine ⟨hi, fun t ht => ⟨his t ht, fun u hu => hjs u ?_⟩⟩
      rw [ht]
      exact hu

/-- A condition that an instruction meets in every state. -/
theorem along_of_forall (h : ∀ i ∈ is, ∀ s, Q s i) : Along step Q is s := by
  induction is generalizing s with
  | nil => trivial
  | cons i is ih =>
    exact ⟨h i (by simp) s, fun t _ => ih fun j hj => h j (List.mem_cons_of_mem _ hj)⟩

/-- A machine that follows every step taken under `Q` follows every run along `Q`. -/
theorem Along.follows {step' : τ → ι → Option τ} {R : σ → τ → Prop}
    (hstep : ∀ i ∈ is, ∀ s t s', R s t → Q s i → step s i = some s' →
      ∃ t', step' t i = some t' ∧ R s' t')
    (h : Along step Q is s) {t : τ} (hR : R s t) {s' : σ} (hrun : is.foldlM step s = some s') :
    ∃ t', is.foldlM step' t = some t' ∧ R s' t' := by
  induction is generalizing s t with
  | nil =>
    cases hrun
    exact ⟨t, rfl, hR⟩
  | cons i is ih =>
    obtain ⟨s₁, hs, hrun⟩ := Option.bind_eq_some_iff.mp hrun
    obtain ⟨t₁, ht, hR₁⟩ := hstep i (by simp) s t s₁ hR h.1 hs
    obtain ⟨t', ht', hR'⟩ := ih (fun j hj => hstep j (List.mem_cons_of_mem _ hj)) (h.2 s₁ hs)
      hR₁ hrun
    refine ⟨t', ?_, hR'⟩
    rw [List.foldlM_cons, ht]
    exact ht'

end Along

section Inevitable

/-- Whatever is chosen at every step, the run does not get stuck before it comes to a state
with `Goal`. -/
inductive Inevitable (step : χ → σ → Option σ) (Goal : σ → Prop) : σ → Prop
  | now {s} (h : Goal s) : Inevitable step Goal s
  | later {s} (next : χ → σ) (hs : ∀ c, step c s = some (next c))
    (h : ∀ c, Inevitable step Goal (next c)) : Inevitable step Goal s

variable {step : χ → σ → Option σ} {Goal Goal' : σ → Prop} {s : σ}

theorem Inevitable.trans (h : Inevitable step Goal s)
    (hg : ∀ t, Goal t → Inevitable step Goal' t) : Inevitable step Goal' s := by
  induction h with
  | now h => exact hg _ h
  | later next hs _ ih => exact .later next hs ih

/-- The run goes on, and comes to `Goal` after the first step or later. -/
def Ahead (step : χ → σ → Option σ) (Goal : σ → Prop) (s : σ) : Prop :=
  ∃ next : χ → σ, (∀ c, step c s = some (next c)) ∧ ∀ c, Inevitable step Goal (next c)

theorem Ahead.inevitable (h : Ahead step Goal s) : Inevitable step Goal s := by
  obtain ⟨next, hs, hn⟩ := h
  exact .later next hs hn

/-- All choices lead to the goal in one step. -/
theorem Ahead.one (h : ∀ c, ∃ t, step c s = some t ∧ Goal t) : Ahead step Goal s := by
  choose next hs hg using h
  exact ⟨next, hs, fun c => .now (hg c)⟩

theorem Inevitable.one (h : ∀ c, ∃ t, step c s = some t ∧ Goal t) : Inevitable step Goal s :=
  (Ahead.one h).inevitable

/-- The goal is inevitable in states to which the run comes. -/
theorem Inevitable.reaching (h : Inevitable step Goal s) : Inevitable step (fun t => Goal t ∧
    ReflTransGen (fun s t => ∃ c, step c s = some t) s t) s := by
  induction h with
  | now h => exact .now ⟨h, .refl⟩
  | later next hs _ ih =>
    exact .later next hs fun c =>
      (ih c).trans fun t ht => .now ⟨ht.1, .head ⟨c, hs c⟩ ht.2⟩

/-- No choice leads on. -/
def Final (step : χ → σ → Option σ) (s : σ) : Prop := ∀ c, step c s = none

/-- A goal that comes back after every step from it stays inevitable. -/
theorem Inevitable.along
    (hgo : ∀ t, Goal t → ∀ c u, step c t = some u → Inevitable step Goal u)
    (h : Inevitable step Goal s) {t : σ}
    (hr : ReflTransGen (fun s t => ∃ c, step c s = some t) s t) : Inevitable step Goal t := by
  induction hr with
  | refl => exact h
  | tail _ hstep ih =>
    obtain ⟨c, hc⟩ := hstep
    cases ih with
    | now hg => exact hgo _ hg c _ hc
    | later next hs hn =>
      cases (hs c).symm.trans hc
      exact hn c

variable [Nonempty χ]

/-- A run that ends has come to the goal. -/
theorem Inevitable.final (hend : ∀ t, Goal t → Final step t) (h : Inevitable step Goal s) {t : σ}
    (hr : ReflTransGen (fun s t => ∃ c, step c s = some t) s t) (ht : Final step t) : Goal t := by
  have hgo : ∀ t, Goal t → ∀ c u, step c t = some u → Inevitable step Goal u := by
    intro t hg c u hu
    rw [hend t hg c] at hu
    cases hu
  cases h.along hgo hr with
  | now hg => exact hg
  | later next hs _ =>
    obtain ⟨c⟩ := ‹Nonempty χ›
    cases (ht c).symm.trans (hs c)

/-- A run that comes to the goal again and again does not end. -/
theorem Inevitable.endless (hgo : ∀ t, Goal t → Ahead step Goal t) (h : Inevitable step Goal s)
    {t : σ} (hr : ReflTransGen (fun s t => ∃ c, step c s = some t) s t) : ¬ Final step t := by
  have hback : ∀ t, Goal t → ∀ c u, step c t = some u → Inevitable step Goal u := by
    intro t hg c u hu
    obtain ⟨next, hs, hn⟩ := hgo t hg
    cases (hs c).symm.trans hu
    exact hn c
  obtain ⟨c⟩ := ‹Nonempty χ›
  intro ht
  cases h.along hback hr with
  | now hg =>
    obtain ⟨next, hs, -⟩ := hgo t hg
    cases (ht c).symm.trans (hs c)
  | later next hs _ => cases (ht c).symm.trans (hs c)

/-- An inevitable goal is reached. -/
theorem Inevitable.reached (h : Inevitable step Goal s) :
    ∃ t, ReflTransGen (fun s t => ∃ c, step c s = some t) s t ∧ Goal t := by
  obtain ⟨c⟩ := ‹Nonempty χ›
  induction h with
  | now hg => exact ⟨_, .refl, hg⟩
  | later next hs _ ih =>
    obtain ⟨t, hr, hg⟩ := ih c
    exact ⟨t, .head ⟨c, hs c⟩ hr, hg⟩

end Inevitable

end Riscy.Runs
