import Riscy.AArch64SelectSound

/-! Selected code simulates the block. A register holds a 64-bit value as it is, of a
32-bit value only the low half, and of a comparison zero or one; `Trunc` costs nothing
because only its users look at the width. -/
namespace Riscy.AArch64
open IR (TypeKind ICmpCond BinOpKind Payload Val evalBin evalCmp)
open ByteMemory

inductive Kind
  | i64 | i32 | flag
  deriving DecidableEq, Repr

/-- What a register tells about a value of the kind. -/
def Kind.Holds : Kind → Val → BitVec 64 → Prop
  | .i64, x, b => x = ⟨.I64, b⟩
  | .i32, x, b => x = ⟨.I32, b.setWidth 32⟩
  | .flag, x, b => ∃ c, x = ⟨.I1, BitVec.ofBool c⟩ ∧ b = if c then 1 else 0

def kindOf : Payload → Option Kind
  | .Const .I64 _ | .ReadReg _ | .BinOp .. | .ZExt .. | .SExt .. | .Load _ _ .I64 => some .i64
  | .Const .I32 _ | .Trunc .. | .Load _ _ .I32 => some .i32
  | .ICmp .. => some .flag
  | _ => none

/-- Value `v` is defined in `done`, with the kind `k`. -/
def HasKind (done : List IR.Instr) (v : ℕ) (k : Kind) : Prop :=
  ∃ i, done[v]? = some i ∧ i.dest = some v ∧ kindOf i.payload = some k

/-- Offsets that are the sign extensions of their low halves. -/
def FitsInt32 (off : BitVec 64) : Prop := (off.setWidth 32).signExtend 64 = off

def PayloadOk (done : List IR.Instr) : Payload → Prop
  | .Const .. => True
  | .ReadReg r => r < 32
  | .WriteReg r v => r < 32 ∧ HasKind done v .i64
  | .BinOp _ l r ty => ty = .I64 ∧ HasKind done l .i64 ∧ HasKind done r .i64
  | .ICmp _ l r => HasKind done l .i64 ∧ HasKind done r .i64
  | .ZExt src dst | .SExt src dst => dst = .I64 ∧ HasKind done src .i32
  | .Trunc src dst => dst = .I32 ∧ HasKind done src .i64
  | .Load b off ty => (ty = .I64 ∨ ty = .I32) ∧ HasKind done b .i64 ∧ FitsInt32 off
  | .Store v b off ty =>
    (HasKind done v .i64 ∧ (ty = .I64 ∨ ty = .I32) ∨ HasKind done v .i32 ∧ ty = .I32) ∧
      HasKind done b .i64 ∧ FitsInt32 off
  | .GetPC => False

def TermTyped (done : List IR.Instr) (t : IR.Terminator) : Prop :=
  match t.kind, t.data with
  | .Br, .br _ => True
  | .CBr, .cbr cond _ _ => HasKind done cond .flag
  | .BrIndirect, .brIndirect target => HasKind done target .i64
  | .Ret, _ | .Trap, _ | .None, _ => True
  | _, _ => False

/-- Every destination is its position and every operand an earlier destination of the
type that the operation takes. -/
structure WellTyped (bb : IR.Block) : Prop where
  dest : ∀ p (i : IR.Instr), bb.insts[p]? = some i → i.dest = none ∨ i.dest = some p
  payload : ∀ p (i : IR.Instr), bb.insts[p]? = some i → PayloadOk (bb.insts.take p) i.payload
  term : TermTyped bb.insts bb.term

/-- The host after the code of `done` against the state after `done`. -/
structure Rel (done : List IR.Instr) (base : BitVec 64) (s : IR.State) (h : Host VName) :
    Prop where
  regs : ∀ r < 32, h.words r = s.regs r
  top : h.words 32 = base
  mem : ∀ a, h.mem (a + base) = s.mem a
  x0 : h.r (.phys 0) = h.addr
  x21 : h.r (.phys 21) = base
  vals : ∀ v k, HasKind done v k → ∃ x, s.env v = some x ∧ k.Holds x (h.r (valueName v))

theorem HasKind.lt {done : List IR.Instr} {v : ℕ} {k : Kind} (h : HasKind done v k) :
    v < done.length := by
  obtain ⟨i, hi, -⟩ := h
  exact (List.getElem?_eq_some_iff.mp hi).1

theorem HasKind.snoc {done : List IR.Instr} {i : IR.Instr} {v : ℕ} {k : Kind}
    (h : HasKind (done ++ [i]) v k) :
    HasKind done v k ∨ v = done.length ∧ i.dest = some v ∧ kindOf i.payload = some k := by
  obtain ⟨j, hj, hd, hk⟩ := h
  rcases Nat.lt_or_ge v done.length with hv | hv
  · rw [List.getElem?_append_left hv] at hj
    exact Or.inl ⟨j, hj, hd, hk⟩
  · rw [List.getElem?_append_right hv] at hj
    obtain ⟨hlt, rfl⟩ := List.getElem?_eq_some_iff.mp hj
    have hz : v - done.length = 0 := by simpa using hlt
    rw [List.getElem_singleton] at hd hk
    exact Or.inr ⟨by omega, hd, hk⟩

/-- The values that `done` defines. -/
def defined (done : List IR.Instr) : Set ℕ := {v | ∃ i, done[v]? = some i ∧ i.dest = some v}

theorem HasKind.defined {done : List IR.Instr} {v : ℕ} {k : Kind} (h : HasKind done v k) :
    v ∈ defined done := by
  obtain ⟨i, hi, hd, -⟩ := h
  exact ⟨i, hi, hd⟩

theorem defined_lt {done : List IR.Instr} {v : ℕ} (h : v ∈ defined done) : v < done.length := by
  obtain ⟨i, hi, -⟩ := h
  exact (List.getElem?_eq_some_iff.mp hi).1

/-- Parts of the host that code which writes none of the values `D` leaves as they are. -/
structure Keeps (D : Set ℕ) (h h' : Host VName) : Prop where
  words : h'.words = h.words
  mem : h'.mem = h.mem
  addr : h'.addr = h.addr
  phys : ∀ p, h'.r (.phys p) = h.r (.phys p)
  vals : ∀ v ∈ D, h'.r (valueName v) = h.r (valueName v)

theorem Keeps.refl (D : Set ℕ) (h : Host VName) : Keeps D h h :=
  ⟨rfl, rfl, rfl, fun _ => rfl, fun _ _ => rfl⟩

theorem Keeps.trans {D : Set ℕ} {h h' h'' : Host VName} (g : Keeps D h h') (g' : Keeps D h' h'') :
    Keeps D h h'' where
  words := g'.words.trans g.words
  mem := g'.mem.trans g.mem
  addr := g'.addr.trans g.addr
  phys p := (g'.phys p).trans (g.phys p)
  vals v hv := (g'.vals v hv).trans (g.vals v hv)

theorem Keeps.set {D : Set ℕ} (h : Host VName) {d : VReg} (hd : ∀ v ∈ D, d ≠ valueReg v)
    (x : BitVec 64) : Keeps D h (h.set (.virt d) x) where
  words := rfl
  mem := rfl
  addr := rfl
  phys p := Host.set_ne h _ x (by simp)
  vals v hv := Host.set_ne h _ x fun he => hd v hv (VName.virt.inj he).symm

theorem Keeps.value (h : Host VName) {D : Set ℕ} {n : ℕ} (hn : n ∉ D) (x : BitVec 64) :
    Keeps D h (h.set (valueName n) x) :=
  Keeps.set h (fun v hv he => by
    have hvn : n = v := Nat.succ.inj he
    exact hn (hvn ▸ hv)) x

/-- The value of the next instruction is a new one. -/
theorem Keeps.next (done : List IR.Instr) (h : Host VName) (x : BitVec 64) :
    Keeps (defined done) h (h.set (valueName done.length) x) :=
  Keeps.value h (fun hn => absurd (defined_lt hn) (lt_irrefl _)) x

section Step
variable {done : List IR.Instr} {base : BitVec 64} {s : IR.State} {h h' : Host VName}
variable {i : IR.Instr} {start : BitVec 64} {k : ℕ}

theorem Rel.get (hR : Rel done base s h) {v : ℕ} (hv : HasKind done v .i64) :
    s.env v = some ⟨.I64, h.r (valueName v)⟩ := by
  obtain ⟨x, hx, hh⟩ := hR.vals v .i64 hv
  rw [hx, show x = _ from hh]

theorem Rel.get_word (hR : Rel done base s h) {v : ℕ} (hv : HasKind done v .i32) :
    s.env v = some ⟨.I32, (h.r (valueName v)).setWidth 32⟩ := by
  obtain ⟨x, hx, hh⟩ := hR.vals v .i32 hv
  rw [hx, show x = _ from hh]

/-- A new value, in the register of its position. -/
theorem Rel.value (hR : Rel done base s h) (hk : Keeps (defined done) h h')
    (hd : i.dest = none ∨ i.dest = some done.length) {x : Val}
    (hx : i.dest = some done.length → ∀ k, kindOf i.payload = some k →
      k.Holds x (h'.r (valueName done.length))) :
    Rel (done ++ [i]) base (s.define i.dest x) h' := by
  have hregs : (s.define i.dest x).regs = s.regs ∧ (s.define i.dest x).mem = s.mem := by
    rcases hd with hd | hd <;> rw [hd] <;> exact ⟨rfl, rfl⟩
  refine ⟨?_, ?_, ?_, ?_, ?_, ?_⟩
  · rw [hk.words, hregs.1]
    exact hR.regs
  · rw [hk.words]
    exact hR.top
  · rw [hk.mem, hregs.2]
    exact hR.mem
  · rw [hk.phys, hk.addr]
    exact hR.x0
  · rw [hk.phys]
    exact hR.x21
  · intro v k hv
    rcases hv.snoc with hv | ⟨rfl, hdv, hkv⟩
    · have hlt := hv.lt
      obtain ⟨y, hy, hyk⟩ := hR.vals v k hv
      refine ⟨y, ?_, by rw [hk.vals v hv.defined]; exact hyk⟩
      rcases hd with hd | hd <;> rw [hd]
      · exact hy
      · exact (Function.update_of_ne (Nat.ne_of_lt hlt) ..).trans hy
    · refine ⟨x, ?_, hx hdv k hkv⟩
      rw [hdv]
      exact Function.update_self ..

/-- Instructions without a value change registers or memory only. -/
theorem Rel.noValue (hR : Rel done base s h) (hp : kindOf i.payload = none) :
    Rel (done ++ [i]) base s h :=
  ⟨hR.regs, hR.top, hR.mem, hR.x0, hR.x21, fun v k hv => by
    rcases hv.snoc with hv | ⟨-, -, hk⟩
    · exact hR.vals v k hv
    · rw [hp] at hk
      cases hk⟩

/-- The instruction and its lines lead to related states. -/
def Steps (done : List IR.Instr) (base start : BitVec 64) (k : ℕ) (i : IR.Instr)
    (s : IR.State) (h : Host VName) : Prop :=
  ∃ s' h', IR.exec start s i = some s' ∧
    runLines (.phys 0) (selectedLines start k i) h = some h' ∧ Rel (done ++ [i]) base s' h'

/-- Nothing is selected for a value that is not kept. -/
theorem Rel.dropped {p : Payload} {x : Val} (hR : Rel done base s h)
    (he : IR.exec start s ⟨none, p⟩ = some (s.define none x))
    (hl : selectedLines start k ⟨none, p⟩ = []) : Steps done base start k ⟨none, p⟩ s h := by
  refine ⟨_, h, he, by rw [hl]; rfl, ?_⟩
  exact hR.value (Keeps.refl _ h) (Or.inl rfl) (x := x) (fun hd => by cases hd)

/-- One line that computes the value into its register. -/
theorem Rel.computed {p : Payload} (hR : Rel done base s h) (kd : Kind) (x : Val)
    (b : BitVec 64)
    (he : IR.exec start s ⟨some done.length, p⟩ = some (s.define (some done.length) x))
    (hl : runLines (.phys 0) (selectedLines start k ⟨some done.length, p⟩) h =
      some (h.set (valueName done.length) b))
    (hk : kindOf p = some kd) (hx : kd.Holds x b) :
    Steps done base start k ⟨some done.length, p⟩ s h := by
  refine ⟨_, _, he, hl, ?_⟩
  refine hR.value (Keeps.next done h b) (Or.inr rfl) fun _ kd' hk' => ?_
  rw [hk] at hk'
  cases hk'
  rw [Host.set_self]
  exact hx

theorem Rel.step_const {ty : TypeKind} {v : BitVec 64} (hR : Rel done base s h) :
    Steps done base start k ⟨some done.length, .Const ty v⟩ s h := by
  refine ⟨_, _, rfl, run_constLines h (.phys 0) _ v, ?_⟩
  refine hR.value (Keeps.next done h v) (Or.inr rfl) fun _ kd hk => ?_
  rw [Host.set_self]
  cases ty <;> cases hk
  · rfl
  · change (⟨.I64, v.setWidth 64⟩ : Val) = _
    rw [BitVec.setWidth_eq]

theorem structWord_guestReg {r : ℕ} (hr : r < 32) :
    structWord (guestRegOffsetBytes r) = some r := by
  have hn : (guestRegOffsetBytes r).toNat = r * 8 := by
    rw [guestRegOffsetBytes, BitVec.toNat_ofNat]
    omega
  rw [structWord, hn, if_pos (by omega)]
  congr 1
  omega

theorem run_readReg {n : ℕ} (hx0 : h.r (.phys 0) = h.addr) {r : ℕ} (hr : r < 32) :
    runLines (.phys 0) (selectedLines start k ⟨some n, .ReadReg r⟩) h =
      some (h.set (valueName n) (h.words r)) := by
  change ((Line.ldr .x (valueName n) (.phys 0) (guestRegOffsetBytes r)).exec (.phys 0) h).bind
    some = _
  rw [Line.exec, if_pos rfl, if_pos ⟨hx0, rfl⟩, structWord_guestReg hr]
  rfl

theorem run_writeReg {dest : Option ℕ} (hx0 : h.r (.phys 0) = h.addr) {r : ℕ} (hr : r < 32)
    (v : ℕ) :
    runLines (.phys 0) (selectedLines start k ⟨dest, .WriteReg r v⟩) h =
      some { h with words := Function.update h.words r (h.r (valueName v)) } := by
  change ((Line.str .x (valueName v) (.phys 0) (guestRegOffsetBytes r)).exec (.phys 0) h).bind
    some = _
  rw [Line.exec, if_pos rfl, if_pos ⟨hx0, rfl⟩, structWord_guestReg hr]
  rfl

theorem Rel.step_readReg {r : ℕ} (hR : Rel done base s h) (hr : r < 32) :
    Steps done base start k ⟨some done.length, .ReadReg r⟩ s h := by
  refine hR.computed .i64 ⟨.I64, s.regs r⟩ (h.words r) rfl (run_readReg hR.x0 hr) rfl ?_
  rw [hR.regs r hr]
  rfl

theorem aluOf_eval (op : BinOpKind) (a b : BitVec 64) : (aluOf op).eval a b = evalBin op a b := by
  cases op <;> rfl

theorem Rel.step_binOp {op : BinOpKind} {l r : ℕ} (hR : Rel done base s h)
    (hl : HasKind done l .i64) (hr : HasKind done r .i64) :
    Steps done base start k ⟨some done.length, .BinOp op l r .I64⟩ s h := by
  refine hR.computed .i64 ⟨.I64, evalBin op (h.r (valueName l)) (h.r (valueName r))⟩
    ((aluOf op).eval (h.r (valueName l)) (h.r (valueName r))) ?_ rfl rfl ?_
  · simp [IR.exec, IR.eval, IR.State.get, hR.get hl, hR.get hr]
  · rw [aluOf_eval]
    rfl

theorem Rel.step_icmp {c : ICmpCond} {l r : ℕ} {dest : Option ℕ} (hR : Rel done base s h)
    (hd : dest = none ∨ dest = some done.length)
    (hl : HasKind done l .i64) (hr : HasKind done r .i64) :
    Steps done base start k ⟨dest, .ICmp c l r⟩ s h := by
  have he : IR.exec start s ⟨dest, .ICmp c l r⟩ = some (s.define dest
      ⟨.I1, BitVec.ofBool (evalCmp c (h.r (valueName l)) (h.r (valueName r)))⟩) := by
    simp [IR.exec, IR.eval, IR.State.get, hR.get hl, hR.get hr]
  have hflags : Keeps (defined done) h
      { h with flags := compare (h.r (valueName l)) (h.r (valueName r)) } :=
    ⟨rfl, rfl, rfl, fun _ => rfl, fun _ _ => rfl⟩
  rcases hd with rfl | rfl
  · exact ⟨_, _, he, rfl, hR.value hflags (Or.inl rfl) fun hd => by cases hd⟩
  · refine ⟨_, _, he, rfl, ?_⟩
    refine hR.value (hflags.trans (Keeps.next ..)) (Or.inr rfl) fun _ kd hk => ?_
    cases hk
    rw [Host.set_self, compare_holds]
    exact ⟨_, rfl, rfl⟩

theorem Rel.step_zext {src : ℕ} (hR : Rel done base s h) (hs : HasKind done src .i32) :
    Steps done base start k ⟨some done.length, .ZExt src .I64⟩ s h := by
  refine hR.computed .i64 ⟨.I64, ((h.r (valueName src)).setWidth 32).setWidth 64⟩
    (((h.r (valueName src)).setWidth 32).setWidth 64) ?_ rfl rfl rfl
  simp [IR.exec, IR.eval, hR.get_word hs, TypeKind.width]

theorem Rel.step_sext {src : ℕ} (hR : Rel done base s h) (hs : HasKind done src .i32) :
    Steps done base start k ⟨some done.length, .SExt src .I64⟩ s h := by
  refine hR.computed .i64 ⟨.I64, ((h.r (valueName src)).setWidth 32).signExtend 64⟩
    (((h.r (valueName src)).setWidth 32).signExtend 64) ?_ rfl rfl rfl
  simp [IR.exec, IR.eval, hR.get_word hs, TypeKind.width]

theorem Rel.step_trunc {src : ℕ} (hR : Rel done base s h) (hs : HasKind done src .i64) :
    Steps done base start k ⟨some done.length, .Trunc src .I32⟩ s h := by
  refine hR.computed .i32 ⟨.I32, (h.r (valueName src)).setWidth 32⟩
    (h.r (valueName src)) ?_ rfl rfl rfl
  simp [IR.exec, IR.eval, hR.get hs, TypeKind.width]

/-- The register of the address temporary is neither that of the state pointer nor that of
a value of `D`. -/
structure FreshAddr (k : ℕ) (D : Set ℕ) : Prop where
  pos : addrReg k ≠ 0
  ne : ∀ v ∈ D, addrReg k ≠ valueReg v

variable {D : Set ℕ}

theorem FreshAddr.mono {E : Set ℕ} (hf : FreshAddr k E) (h : D ⊆ E) : FreshAddr k D :=
  ⟨hf.pos, fun v hv => hf.ne v (h hv)⟩

theorem baseName_addr (hf : FreshAddr k D) :
    baseName (addrReg k) = .virt (addrReg k) := if_neg hf.pos

/-- The host after the line that computes an address. -/
def atAddr (k b : ℕ) (base : BitVec 64) (h : Host VName) : Host VName :=
  h.set (.virt (addrReg k)) (h.r (valueName b) + base)

theorem run_addrLine (b : ℕ) (ls : List (Line VName)) :
    runLines (.phys 0) (addrLine k b :: ls) h =
      runLines (.phys 0) ls (atAddr k b (h.r (.phys 21)) h) := rfl

theorem keeps_atAddr (hf : FreshAddr k D) (b : ℕ) (base : BitVec 64) (h : Host VName) :
    Keeps D h (atAddr k b base h) :=
  Keeps.set h hf.ne _

/-- The host address of an access. -/
def accessAddr (h : Host VName) (b : ℕ) (off : BitVec 64) : BitVec 64 :=
  h.r (valueName b) + h.r (.phys 21) + (off.setWidth 32).signExtend 64

section Run
variable {n : ℕ} {dest : Option ℕ}

theorem run_load (hf : FreshAddr k D) (b : ℕ) (off : BitVec 64) (ty : TypeKind) :
    runLines (.phys 0) (selectedLines start k ⟨some n, .Load b off ty⟩) h =
      some ((atAddr k b (h.r (.phys 21)) h).set (valueName n) ((sizeOf ty).extend
        (read h.mem (accessAddr h b off) (sizeOf ty).bytes))) := by
  change runLines (.phys 0) [addrLine k b,
    .ldr (sizeOf ty) (valueName n) (baseName (addrReg k)) (off.setWidth 32)] h = _
  rw [run_addrLine, baseName_addr hf, runLines_cons, Line.exec, if_neg (by simp)]
  have ha : (atAddr k b (h.r (.phys 21)) h).r (.virt (addrReg k)) =
      h.r (valueName b) + h.r (.phys 21) := Host.set_self ..
  rw [ha]
  rfl

theorem run_store (hf : FreshAddr k D) {v : ℕ} (hv : v ∈ D) (b : ℕ) (off : BitVec 64)
    (ty : TypeKind) :
    runLines (.phys 0) (selectedLines start k ⟨dest, .Store v b off ty⟩) h =
      some { atAddr k b (h.r (.phys 21)) h with
        mem := write h.mem (accessAddr h b off) (h.r (valueName v)).toNat (sizeOf ty).bytes } := by
  change runLines (.phys 0) [addrLine k b, .str (sizeOf ty) (valueName v)
    (baseName (addrReg k)) (off.setWidth 32)] h = _
  rw [run_addrLine, baseName_addr hf, runLines_cons, Line.exec, if_neg (by simp)]
  have ha : (atAddr k b (h.r (.phys 21)) h).r (.virt (addrReg k)) =
      h.r (valueName b) + h.r (.phys 21) := Host.set_self ..
  rw [ha, (keeps_atAddr hf b _ h).vals v hv]
  rfl

end Run

theorem host_addr {off : BitVec 64} (hoff : FitsInt32 off) (a base : BitVec 64) :
    a + base + (off.setWidth 32).signExtend 64 = a + off + base := by
  rw [show _ = off from hoff, BitVec.add_assoc, BitVec.add_comm base, ← BitVec.add_assoc]

theorem Rel.accessAddr_eq (hR : Rel done base s h) {off : BitVec 64} (hoff : FitsInt32 off)
    (b : ℕ) : accessAddr h b off = h.r (valueName b) + off + base := by
  rw [accessAddr, hR.x21, host_addr hoff]

theorem Rel.step_load {b : ℕ} {off : BitVec 64} {ty : TypeKind} (hR : Rel done base s h)
    (hf : FreshAddr k (defined done)) (hty : ty = .I64 ∨ ty = .I32) (hb : HasKind done b .i64)
    (hoff : FitsInt32 off) :
    Steps done base start k ⟨some done.length, .Load b off ty⟩ s h := by
  have hrun := @run_load h start k _ done.length hf b off ty
  rw [hR.accessAddr_eq hoff, hR.x21, read_shift hR.mem] at hrun
  have he : IR.exec start s ⟨some done.length, .Load b off ty⟩ =
      some (s.define (some done.length) ⟨ty, BitVec.ofNat _ (read s.mem
        (h.r (valueName b) + off) ty.bytes)⟩) := by
    simp [IR.exec, IR.eval, IR.State.get, hR.get hb]
  have hkeep := (keeps_atAddr hf b base h).trans (Keeps.next done (atAddr k b base h)
    ((sizeOf ty).extend (read s.mem (h.r (valueName b) + off) (sizeOf ty).bytes)))
  refine ⟨_, _, he, hrun, hR.value hkeep (Or.inr rfl) fun _ kd hk => ?_⟩
  rw [Host.set_self]
  rcases hty with rfl | rfl <;> cases hk
  · rfl
  · change (⟨.I32, _⟩ : Val) = ⟨.I32, (BitVec.ofNat 64 _).setWidth 32⟩
    rw [BitVec.setWidth_ofNat_of_le (by omega)]
    rfl

theorem Rel.step_writeReg {r v : ℕ} {dest : Option ℕ} (hR : Rel done base s h) (hr : r < 32)
    (hv : HasKind done v .i64) : Steps done base start k ⟨dest, .WriteReg r v⟩ s h := by
  have he : IR.exec start s ⟨dest, .WriteReg r v⟩ =
      some { s with regs := Function.update s.regs r (h.r (valueName v)) } := by
    simp [IR.exec, IR.State.get, hR.get hv]
  have hR' := hR.noValue (i := ⟨dest, .WriteReg r v⟩) rfl
  refine ⟨_, _, he, run_writeReg hR.x0 hr v, ?_, ?_, hR'.mem, hR'.x0, hR'.x21, hR'.vals⟩
  · intro q hq
    by_cases hqr : q = r
    · subst hqr
      simp
    · simp [Function.update_of_ne hqr, hR.regs q hq]
  · have h32 : 32 ≠ r := by omega
    simp [Function.update_of_ne h32, hR.top]

theorem Rel.step_store {v b : ℕ} {off : BitVec 64} {ty : TypeKind} {dest : Option ℕ}
    (hR : Rel done base s h) (hf : FreshAddr k (defined done))
    (hv : HasKind done v .i64 ∧ (ty = .I64 ∨ ty = .I32) ∨ HasKind done v .i32 ∧ ty = .I32)
    (hb : HasKind done b .i64) (hoff : FitsInt32 off) :
    Steps done base start k ⟨dest, .Store v b off ty⟩ s h := by
  have hvd : v ∈ defined done := by rcases hv with hv | hv <;> exact hv.1.defined
  have hkeep := keeps_atAddr hf b base h
  have hrun := @run_store h start k _ dest hf v hvd b off ty
  rw [hR.accessAddr_eq hoff, hR.x21] at hrun
  -- Only the low bytes of the value count, so its type need not be that of the store.
  have he : IR.exec start s ⟨dest, .Store v b off ty⟩ = some { s with
      mem := write s.mem (h.r (valueName b) + off) (h.r (valueName v)).toNat ty.bytes } := by
    rcases hv with ⟨hv, hty⟩ | ⟨hv, rfl⟩
    · have hw : ty.width ≤ 64 := by cases ty <;> decide
      simp [IR.exec, IR.State.get, hR.get hb, hR.get hv, hw]
    · simp only [IR.exec, IR.State.get, hR.get hb, hR.get_word hv, Option.bind_some,
        Val.bitsAs_mk, bind, le_refl, if_true]
      congr 2
      refine write_congr _ _ _ ?_
      rw [BitVec.toNat_setWidth]
      exact Nat.mod_mod_of_dvd _ (dvd_refl _)
  have hsize : (sizeOf ty).bytes = ty.bytes := by
    have hty : ty = .I64 ∨ ty = .I32 := by
      rcases hv with hv | hv
      · exact hv.2
      · exact Or.inr hv.2
    rcases hty with rfl | rfl <;> rfl
  have hR' := hR.value (i := ⟨none, .Store v b off ty⟩) (x := ⟨.I64, 0⟩) hkeep (Or.inl rfl)
    fun hd => by cases hd
  refine ⟨_, _, he, hrun, hR'.regs, hR'.top, fun a => ?_, hR'.x0, hR'.x21, fun w kd hw => ?_⟩
  · rw [hsize]
    exact write_shift hR.mem _ _ _ a
  · rcases hw.snoc with hw | ⟨-, -, hk⟩
    · obtain ⟨x, hx, hxk⟩ := hR.vals w kd hw
      refine ⟨x, hx, ?_⟩
      change kd.Holds x ((atAddr k b base h).r (valueName w))
      rw [hkeep.vals w hw.defined]
      exact hxk
    · cases hk

/-- Every well-typed instruction is simulated. -/
theorem Rel.step (hR : Rel done base s h) (hd : i.dest = none ∨ i.dest = some done.length)
    (hp : PayloadOk done i.payload) (hf : temps i = 1 → FreshAddr k (defined done)) :
    Steps done base start k i s h := by
  obtain ⟨dest, payload⟩ := i
  have hnone : ∀ {x : Val}, IR.exec start s ⟨none, payload⟩ = some (s.define none x) →
      selectedLines start k ⟨none, payload⟩ = [] → dest = none →
      Steps done base start k ⟨dest, payload⟩ s h :=
    fun he hl hdest => by
      subst hdest
      exact hR.dropped he hl
  cases payload with
  | Const ty v =>
    rcases hd with hd | rfl
    · exact hnone rfl rfl hd
    · exact hR.step_const
  | ReadReg r =>
    rcases hd with hd | rfl
    · exact hnone rfl rfl hd
    · exact hR.step_readReg hp
  | WriteReg r v => exact hR.step_writeReg hp.1 hp.2
  | BinOp op l r ty =>
    obtain ⟨rfl, hl, hr⟩ := hp
    rcases hd with hd | rfl
    · refine hnone (x := ⟨.I64, evalBin op (h.r (valueName l)) (h.r (valueName r))⟩) ?_ rfl hd
      simp [IR.exec, IR.eval, IR.State.get, hR.get hl, hR.get hr]
    · exact hR.step_binOp hl hr
  | ICmp c l r => exact hR.step_icmp hd hp.1 hp.2
  | ZExt src dst =>
    obtain ⟨rfl, hs⟩ := hp
    rcases hd with hd | rfl
    · refine hnone (x := ⟨.I64, ((h.r (valueName src)).setWidth 32).setWidth 64⟩) ?_ rfl hd
      simp [IR.exec, IR.eval, hR.get_word hs, TypeKind.width]
    · exact hR.step_zext hs
  | SExt src dst =>
    obtain ⟨rfl, hs⟩ := hp
    rcases hd with hd | rfl
    · refine hnone (x := ⟨.I64, ((h.r (valueName src)).setWidth 32).signExtend 64⟩) ?_ rfl hd
      simp [IR.exec, IR.eval, hR.get_word hs, TypeKind.width]
    · exact hR.step_sext hs
  | Trunc src dst =>
    obtain ⟨rfl, hs⟩ := hp
    rcases hd with hd | rfl
    · refine hnone (x := ⟨.I32, (h.r (valueName src)).setWidth 32⟩) ?_ rfl hd
      simp [IR.exec, IR.eval, hR.get hs, TypeKind.width]
    · exact hR.step_trunc hs
  | Load b off ty =>
    obtain ⟨hty, hb, hoff⟩ := hp
    rcases hd with hd | rfl
    · refine hnone (x := ⟨ty, BitVec.ofNat _ (read s.mem (h.r (valueName b) + off) ty.bytes)⟩)
        ?_ rfl hd
      simp [IR.exec, IR.eval, IR.State.get, hR.get hb]
    · exact hR.step_load (hf rfl) hty hb hoff
  | Store v b off ty => exact hR.step_store (hf rfl) hp.1 hp.2.1 hp.2.2
  | GetPC => exact hp.elim

end Step

end Riscy.AArch64
