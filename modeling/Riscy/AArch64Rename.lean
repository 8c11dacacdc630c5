import Riscy.AArch64Lines
import Riscy.Renaming

/-! Lines as instructions over named registers, so that running the lines with their
registers renamed is running them under an assignment. -/
namespace Riscy.AArch64
open ByteMemory

/-- All of the host but its registers. -/
structure Rest where
  flags : Flags
  addr : BitVec 64
  words : ℕ → BitVec 64
  mem : Memory 64

section Line
variable {ρ σ : Type}

def Host.rest (s : Host ρ) : Rest := ⟨s.flags, s.addr, s.words, s.mem⟩

def Rest.host (t : Rest) (r : ρ → BitVec 64) : Host ρ := ⟨r, t.flags, t.addr, t.words, t.mem⟩

def Line.reads : Line ρ → List ρ
  | .mov _ s | .sxtw _ s | .uxtw _ s => [s]
  | .movImm .. | .movz .. | .cset .. => []
  | .movk d _ _ => [d]
  | .alu _ _ a b | .cmp a b => [a, b]
  | .ldr _ _ base _ => [base]
  | .str _ v base _ => [v, base]
  | .cmpZero a => [a]

def Line.dest : Line ρ → Option ρ
  | .mov d _ | .movImm d _ | .movz d _ | .movk d _ _ | .alu _ d _ _ | .ldr _ d _ _
  | .cset d _ | .sxtw d _ | .uxtw d _ => some d
  | .str .. | .cmp .. | .cmpZero .. => none

/-- The base of a load or store. -/
def Line.base : Line ρ → Option ρ
  | .ldr _ _ base _ | .str _ _ base _ => some base
  | _ => none

variable [DecidableEq ρ]

/-- The value that a line writes to its register, and the rest of the host after it. -/
def Line.result (x0 : ρ) (l : Line ρ) (r : ρ → BitVec 64) (t : Rest) :
    Option (BitVec 64 × Rest) :=
  match l with
  | .mov _ a => some (r a, t)
  | .movImm _ v => some (v, t)
  | .movz _ v => some (v, t)
  | .movk d v lsl =>
    some ((r d &&& ~~~((0xffff : BitVec 64) <<< lsl.toNat)) ||| (v <<< lsl.toNat), t)
  | .alu op _ a b => some (op.eval (r a) (r b), t)
  | .ldr size _ base off =>
    if base = x0 then
      if r x0 = t.addr ∧ size = .x then (structWord off).map fun k => (t.words k, t) else none
    else some (size.extend (read t.mem (r base + off.signExtend 64) size.bytes), t)
  | .str size v base off =>
    if base = x0 then
      if r x0 = t.addr ∧ size = .x then
        (structWord off).map fun k => (0, { t with words := Function.update t.words k (r v) })
      else none
    else some (0, { t with mem := write t.mem (r base + off.signExtend 64) (r v).toNat size.bytes })
  | .cmp a b => some (0, { t with flags := compare (r a) (r b) })
  | .cmpZero a => some (0, { t with flags := compare (r a) 0 })
  | .cset _ c => some (if t.flags.holds c then 1 else 0, t)
  | .sxtw _ a => some (((r a).setWidth 32).signExtend 64, t)
  | .uxtw _ a => some (((r a).setWidth 32).setWidth 64, t)

theorem Line.result_congr (x0 : ρ) (l : Line ρ) (r r' : ρ → BitVec 64) (t : Rest)
    (h : ∀ n ∈ l.reads, r n = r' n) : l.result x0 r t = l.result x0 r' t := by
  cases l with
  | ldr size d base off =>
    have hb := h base (by simp [Line.reads])
    by_cases hx0 : base = x0
    · subst hx0
      simp only [Line.result, hb]
    · simp only [Line.result, if_neg hx0, hb]
  | str size v base off =>
    have hb := h base (by simp [Line.reads])
    have hv := h v (by simp [Line.reads])
    by_cases hx0 : base = x0
    · subst hx0
      simp only [Line.result, hb, hv]
    · simp only [Line.result, if_neg hx0, hb, hv]
  | _ =>
    simp only [Line.reads, List.mem_cons, List.not_mem_nil, or_false, forall_eq_or_imp,
      forall_eq] at h
    simp [Line.result, h]

def Line.toInstr (x0 : ρ) (l : Line ρ) : Renaming.Instr ρ (BitVec 64) Rest :=
  ⟨l.reads, l.dest, l.result x0, l.result_congr x0⟩

variable [DecidableEq σ]

/-- A renamed line does what the line does under the renaming, if no base is renamed to
the name of the state pointer. -/
theorem Line.exec_map (x0 : ρ) (f : ρ → σ) (l : Line ρ)
    (hb : ∀ b, l.base = some b → f b = f x0 → b = x0) (q : σ → BitVec 64) (t : Rest) :
    (l.map f).exec (f x0) (t.host q) =
      (Renaming.step f (q, t) (l.toInstr x0)).map fun c => c.2.host c.1 := by
  cases l with
  | ldr size d base off =>
    have hiff : f base = f x0 ↔ base = x0 := ⟨hb base rfl, fun h => by rw [h]⟩
    simp only [Line.map, Line.exec, Renaming.step, Line.toInstr, Line.result, hiff,
      Function.comp_apply]
    by_cases h0 : base = x0
    · by_cases h1 : (t.host q).r (f x0) = (t.host q).addr ∧ size = .x
      · have h2 : q (f x0) = t.addr ∧ size = .x := h1
        rw [if_pos h0, if_pos h0, if_pos h1, if_pos h2]
        cases structWord off <;> rfl
      · have h2 : ¬ (q (f x0) = t.addr ∧ size = .x) := h1
        rw [if_pos h0, if_pos h0, if_neg h1, if_neg h2]
        rfl
    · rw [if_neg h0, if_neg h0]
      rfl
  | str size v base off =>
    have hiff : f base = f x0 ↔ base = x0 := ⟨hb base rfl, fun h => by rw [h]⟩
    simp only [Line.map, Line.exec, Renaming.step, Line.toInstr, Line.result, hiff,
      Function.comp_apply]
    by_cases h0 : base = x0
    · by_cases h1 : (t.host q).r (f x0) = (t.host q).addr ∧ size = .x
      · have h2 : q (f x0) = t.addr ∧ size = .x := h1
        rw [if_pos h0, if_pos h0, if_pos h1, if_pos h2]
        cases structWord off <;> rfl
      · have h2 : ¬ (q (f x0) = t.addr ∧ size = .x) := h1
        rw [if_pos h0, if_pos h0, if_neg h1, if_neg h2]
        rfl
    · rw [if_neg h0, if_neg h0]
      rfl
  | _ => rfl

theorem runLines_map (x0 : ρ) (f : ρ → σ) (ls : List (Line ρ))
    (hb : ∀ l ∈ ls, ∀ b, l.base = some b → f b = f x0 → b = x0) (q : σ → BitVec 64)
    (t : Rest) :
    runLines (f x0) (ls.map (Line.map f)) (t.host q) =
      (Renaming.run f (ls.map (Line.toInstr x0)) (q, t)).map fun c => c.2.host c.1 := by
  induction ls generalizing q t with
  | nil => rfl
  | cons l ls ih =>
    have hl := hb l (List.mem_cons_self ..)
    have hls := fun l' (hl' : l' ∈ ls) => hb l' (List.mem_cons_of_mem _ hl')
    rw [List.map_cons, runLines_cons, Line.exec_map x0 f l hl]
    change _ = ((Renaming.step f (q, t) (l.toInstr x0)).bind
      (Renaming.run f (ls.map (Line.toInstr x0)))).map _
    cases hs : Renaming.step f (q, t) (l.toInstr x0) with
    | none => rfl
    | some c => exact ih hls c.1 c.2

end Line

end Riscy.AArch64
