import Riscy.RISCVLoweringSound

/-! The statically reachable code of an entry, and the CFG as its cover: blocks start at the
leaders, and hold what is decoded at the reachable addresses. -/
namespace Riscy.RISCV
open IR (ICmpCond)

/-- Instructions that end a basic block. -/
def isControl (op : Opcode) : Bool :=
  isCondBranch op || isJump op || op = .JALR || isTrap op

theorem isCondBranch_of_condOf {op : Opcode} {c : ICmpCond} (h : condOf op = some c) :
    isCondBranch op = true := by
  cases op <;> simp_all [condOf, isCondBranch]

theorem inner_not_control {op : Opcode} (hc : condOf op = none)
    (hop : op ∉ [Opcode.JAL, .JALR, .ECALL, .EBREAK]) : isControl op = false := by
  cases op <;> simp_all [condOf, isControl, isCondBranch, isJump, isTrap]

theorem Shaped.exit_inner {inst : DecodedInst} (hs : Shaped inst)
    (he : exitOf inst = .ok none) : isControl inst.opcode = false := by
  obtain ⟨hc, hop⟩ := hs.innerCase he
  exact inner_not_control hc hop

theorem Shaped.exit_control {inst : DecodedInst} (hs : Shaped inst)
    (hc : isControl inst.opcode = false) : exitOf inst = .ok none := by
  cases hs.exitCase with
  | inner hc' hop he => exact he
  | branch c r s i hc' ho he => simp [isControl, isCondBranch_of_condOf hc'] at hc
  | jump rd i hop ho he => simp [isControl, isJump, hop] at hc
  | indirect rd base off hop ho hn he => simp [isControl, hop] at hc
  | ret hop ho he => simp [isControl, hop] at hc
  | trap hop ho he => rcases hop with hop | hop <;> simp [isControl, isTrap, hop] at hc

theorem Shaped.exit_branch {inst : DecodedInst} (hs : Shaped inst)
    (hc : isCondBranch inst.opcode) : ∃ r s i, inst.operands = [.reg r, .reg s, .imm i] ∧
      exitOf inst = .ok (some (.Branch, [inst.pc + i, inst.pc + 4])) := by
  cases hs.exitCase with
  | branch c r s i hc' ho he => exact ⟨r, s, i, ho, he⟩
  | jump rd i hop ho he => simp [hop, isCondBranch] at hc
  | indirect rd base off hop ho hn he => simp [hop, isCondBranch] at hc
  | ret hop ho he => simp [hop, isCondBranch] at hc
  | trap hop ho he => rcases hop with hop | hop <;> simp [hop, isCondBranch] at hc
  | inner hc' hop he =>
    have hno := inner_not_control hc' hop
    simp [isControl, hc] at hno

theorem Shaped.exit_jal {inst : DecodedInst} (hs : Shaped inst) (hop : inst.opcode = .JAL) :
    ∃ rd i, inst.operands = [.reg rd, .imm i] ∧
      exitOf inst = .ok (some (.Jump, [inst.pc + i])) := by
  cases hs.exitCase with
  | jump rd i hop ho he => exact ⟨rd, i, ho, he⟩
  | branch c r s i hc ho he => simp [hop, condOf] at hc
  | indirect rd base off hop' ho hn he => simp [hop] at hop'
  | ret hop' ho he => simp [hop] at hop'
  | trap hop' ho he => rcases hop' with hop' | hop' <;> simp [hop] at hop'
  | inner hc hop' he => simp [hop] at hop'

section Exits
variable {mem : MemoryReader} {cfg : CFG} {b : BasicBlock}

/-- How a block ends, with the terminator and the successors that it then has. -/
inductive BlockExit (mem : MemoryReader) (cfg : CFG) (b : BasicBlock) : Prop
  | branch {last r s off} (hl : b.insts.getLast? = some last)
    (hop : isCondBranch last.opcode) (ho : last.operands = [.reg r, .reg s, .imm off])
    (ht : b.term = .Branch) (hs : b.succs = [last.pc + off, last.pc + 4])
  | jump {last rd off} (hl : b.insts.getLast? = some last) (hop : last.opcode = .JAL)
    (ho : last.operands = [.reg rd, .imm off]) (ht : b.term = .Jump)
    (hs : b.succs = [last.pc + off])
  | indirect {last rd base off} (hl : b.insts.getLast? = some last) (hop : last.opcode = .JALR)
    (ho : last.operands = [.reg rd, .mem base off]) (hn : ¬ (rd = 0 ∧ base = 1 ∧ off = 0))
    (ht : b.term = .IndirectJump) (hs : b.succs = [])
  | ret {last} (hl : b.insts.getLast? = some last) (hop : last.opcode = .JALR)
    (ho : last.operands = [.reg 0, .mem 1 0]) (ht : b.term = .Return) (hs : b.succs = [])
  | trap {last} (hl : b.insts.getLast? = some last)
    (hop : last.opcode = .ECALL ∨ last.opcode = .EBREAK) (ht : b.term = .Trap) (hs : b.succs = [])
  | undecoded {e} (hi : ∀ inst ∈ b.insts, isControl inst.opcode = false)
    (hd : decodeNext mem (addrAt b.start b.insts.length) = .error e) (ht : b.term = .Trap)
    (hs : b.succs = [])
  | fallthrough (hi : ∀ inst ∈ b.insts, isControl inst.opcode = false) (hne : b.insts ≠ [])
    (ht : b.term = .Fallthrough) (hs : b.succs = [addrAt b.start b.insts.length])
    (hb : ∃ b' ∈ cfg.blocks, b'.start = addrAt b.start b.insts.length)

/-- A straight line of decoded instructions with the exit that its end asks for. -/
structure StraightLine (mem : MemoryReader) (cfg : CFG) (b : BasicBlock) : Prop where
  decoded : ∀ i (h : i < b.insts.length), b.insts[i].pc = addrAt b.start i ∧
    decodeNext mem (addrAt b.start i) = .ok b.insts[i]
  inner : ∀ i (h : i + 1 < b.insts.length), isControl b.insts[i].opcode = false
  exit : BlockExit mem cfg b
  term : b.term ≠ .None

theorem Straight.not_control {start : BitVec 64} {insts : List DecodedInst}
    (h : Straight mem start insts) : ∀ inst ∈ insts, isControl inst.opcode = false := by
  intro inst hi
  have he := h.inner inst hi
  obtain ⟨k, hk, rfl⟩ := List.getElem_of_mem hi
  exact (decodeNext_shaped (h.decoded k hk)).exit_inner he

theorem WellBuilt.pc_eq (h : WellBuilt mem b) {i : ℕ} (hi : i < b.insts.length) :
    b.insts[i].pc = addrAt b.start i :=
  (decodeNext_ok (h.decoded i hi)).2.1

theorem WellBuilt.not_control (h : WellBuilt mem b) :
    ∀ i (h : i + 1 < b.insts.length), isControl b.insts[i].opcode = false := by
  cases h with
  | @control start body last term succs hs hd he =>
    intro i hi
    have hlt : i < body.length := by
      rw [List.length_append, List.length_singleton] at hi
      omega
    rw [List.getElem_append_left hlt]
    exact hs.not_control _ (List.getElem_mem hlt)
  | undecoded hs hd => exact fun i hi => hs.not_control _ (List.getElem_mem _)
  | cut hs hne hfresh => exact fun i hi => hs.not_control _ (List.getElem_mem _)

theorem CFG.Sound.start_mem {entry a : BitVec 64} (h : cfg.Sound mem entry)
    (ha : a ∈ cfg.indexByAddr) : ∃ b ∈ cfg.blocks, b.start = a := by
  obtain ⟨b, hb⟩ := h.blockAt_of_mem ha
  exact ⟨b, (h.blockAt_iff a b).mp hb⟩

theorem WellBuilt.blockExit {entry : BitVec 64} (hcfg : cfg.Sound mem entry) (hb : b ∈ cfg.blocks) :
    BlockExit mem cfg b := by
  have h := hcfg.built b hb
  cases h with
  | @control start body last term succs hs hd he =>
    have hlast : (body ++ [last]).getLast? = some last := List.getLast?_concat
    cases (decodeNext_shaped hd).controlCase he with
    | branch hc ho => exact .branch hlast (isCondBranch_of_condOf hc) ho rfl rfl
    | jump hop ho => exact .jump hlast hop ho rfl rfl
    | indirect hop ho hn => exact .indirect hlast hop ho hn rfl rfl
    | ret hop ho => exact .ret hlast hop ho rfl rfl
    | trap hop ho => exact .trap hlast hop rfl rfl
  | undecoded hs hd => exact .undecoded hs.not_control hd rfl rfl
  | @cut start body hs hne hfresh =>
    refine .fallthrough hs.not_control ?_ rfl rfl
      (hcfg.start_mem (hcfg.closed _ hb _ (List.mem_singleton_self _)))
    rintro rfl
    exact hne (addrAt_zero start)

theorem BlockExit.term_ne (h : BlockExit mem cfg b) : b.term ≠ .None := by
  cases h <;> simp_all

/-- Every block of a CFG is a straight line with the right exit. -/
theorem straight_line {entry : BitVec 64} (h : Builds mem entry cfg) :
    ∀ b ∈ cfg.blocks, StraightLine mem cfg b := by
  intro b hb
  have hwell := h.sound.built b hb
  have hexit := WellBuilt.blockExit h.sound hb
  exact ⟨fun i hi => ⟨hwell.pc_eq hi, hwell.decoded i hi⟩, hwell.not_control, hexit, hexit.term_ne⟩

end Exits

section Reach

/-- The least set of addresses with the entry that is closed under the decoded control
flow: fall through, branches and jumps. -/
inductive StaticReach (mem : MemoryReader) (entry : BitVec 64) : BitVec 64 → Prop
  | entry : StaticReach mem entry entry
  | next {pc inst} (h : StaticReach mem entry pc) (hd : decodeNext mem pc = .ok inst)
    (hc : isControl inst.opcode = false) : StaticReach mem entry (pc + 4)
  | target {pc inst r s off} (h : StaticReach mem entry pc) (hd : decodeNext mem pc = .ok inst)
    (hc : isCondBranch inst.opcode) (ho : inst.operands = [.reg r, .reg s, .imm off]) :
    StaticReach mem entry (pc + off)
  | notTaken {pc inst} (h : StaticReach mem entry pc) (hd : decodeNext mem pc = .ok inst)
    (hc : isCondBranch inst.opcode) : StaticReach mem entry (pc + 4)
  | jump {pc inst rd off} (h : StaticReach mem entry pc) (hd : decodeNext mem pc = .ok inst)
    (hop : inst.opcode = .JAL) (ho : inst.operands = [.reg rd, .imm off]) :
    StaticReach mem entry (pc + off)

/-- The entry, the targets of branches and jumps, and the addresses after branches. -/
inductive Leader (mem : MemoryReader) (entry : BitVec 64) : BitVec 64 → Prop
  | entry : Leader mem entry entry
  | target {pc inst r s off} (h : StaticReach mem entry pc) (hd : decodeNext mem pc = .ok inst)
    (hc : isCondBranch inst.opcode) (ho : inst.operands = [.reg r, .reg s, .imm off]) :
    Leader mem entry (pc + off)
  | notTaken {pc inst} (h : StaticReach mem entry pc) (hd : decodeNext mem pc = .ok inst)
    (hc : isCondBranch inst.opcode) : Leader mem entry (pc + 4)
  | jump {pc inst rd off} (h : StaticReach mem entry pc) (hd : decodeNext mem pc = .ok inst)
    (hop : inst.opcode = .JAL) (ho : inst.operands = [.reg rd, .imm off]) :
    Leader mem entry (pc + off)

variable {mem : MemoryReader} {entry : BitVec 64}

theorem Leader.reach {a : BitVec 64} (h : Leader mem entry a) : StaticReach mem entry a := by
  cases h with
  | entry => exact .entry
  | target h hd hc ho => exact .target h hd hc ho
  | notTaken h hd hc => exact .notTaken h hd hc
  | jump h hd hop ho => exact .jump h hd hop ho

theorem Straight.reach {start : BitVec 64} {insts : List DecodedInst}
    (h : Straight mem start insts) (hr : StaticReach mem entry start) {i : ℕ}
    (hi : i ≤ insts.length) : StaticReach mem entry (addrAt start i) := by
  induction i with
  | zero =>
    rw [addrAt_zero]
    exact hr
  | succ i ih =>
    rw [← addrAt_add_four]
    exact .next (ih (by omega)) (h.decoded i hi) (h.not_control _ (List.getElem_mem _))

/-- The addresses of a block that starts at reachable code are reachable. -/
theorem WellBuilt.reach {b : BasicBlock} (h : WellBuilt mem b)
    (hr : StaticReach mem entry b.start) {i : ℕ} (hi : i < b.insts.length) :
    StaticReach mem entry (addrAt b.start i) := by
  cases h with
  | @control start body last term succs hs hd he =>
    rw [List.length_append, List.length_singleton] at hi
    exact hs.reach hr (Nat.lt_succ_iff.mp hi)
  | undecoded hs hd => exact hs.reach hr hi.le
  | cut hs hne hfresh => exact hs.reach hr hi.le

/-- Successors of a control instruction are leaders. -/
theorem exit_leaders {pc : BitVec 64} {inst : DecodedInst} {term : TermKind}
    {succs : List (BitVec 64)} (hr : StaticReach mem entry pc)
    (hd : decodeNext mem pc = .ok inst) (he : exitOf inst = .ok (some (term, succs))) :
    ∀ a ∈ succs, Leader mem entry a := by
  have hpc := (decodeNext_ok hd).2.1
  intro a ha
  cases (decodeNext_shaped hd).controlCase he with
  | branch hc ho =>
    rw [hpc, List.mem_cons, List.mem_singleton] at ha
    rcases ha with rfl | rfl
    · exact .target hr hd (isCondBranch_of_condOf hc) ho
    · exact .notTaken hr hd (isCondBranch_of_condOf hc)
  | jump hop ho =>
    rw [hpc, List.mem_singleton] at ha
    rw [ha]
    exact .jump hr hd hop ho
  | indirect hop ho hn => cases ha
  | ret hop ho => cases ha
  | trap hop ho => cases ha

theorem scan_leaders {known : BitVec 64 → Bool} {start : BitVec 64} {fuel : ℕ} {pc : BitVec 64}
    {insts : List DecodedInst} {bb : BasicBlock}
    (hk : ∀ a, known a → Leader mem entry a) (hr : StaticReach mem entry pc)
    (h : scan mem known start fuel pc insts = some (.ok bb)) :
    ∀ a ∈ bb.succs, Leader mem entry a := by
  induction fuel generalizing pc insts with
  | zero => simp [scan] at h
  | succ fuel ih =>
    unfold scan at h
    split at h
    next hcut =>
      cases h
      intro a ha
      rw [List.mem_singleton.mp ha]
      exact hk pc hcut.2
    next =>
      split at h
      next =>
        cases h
        exact fun a ha => by cases ha
      next inst hd =>
        split at h
        · cases h
        next term succs he =>
          cases h
          exact exit_leaders hr hd he
        next he => exact ih (.next hr hd ((decodeNext_shaped hd).exit_inner he)) h

/-- Everything that `build` has recorded is a leader. -/
structure LeadersOnly (mem : MemoryReader) (entry : BitVec 64) (s : BuildState) : Prop where
  queued : ∀ a ∈ s.worklist, a ∈ s.leaders
  leaders : ∀ a ∈ s.leaders, Leader mem entry a
  index : ∀ a ∈ s.indexByAddr, a ∈ s.leaders

theorem LeadersOnly.known {s : BuildState} (h : LeadersOnly mem entry s) {a : BitVec 64}
    (ha : s.known a) : Leader mem entry a := by
  rcases of_decide_eq_true ha with ha | ha
  · exact h.leaders a ha
  · exact h.leaders a (h.index a ha)

theorem LeadersOnly.enqueue {s : BuildState} (h : LeadersOnly mem entry s) {a : BitVec 64}
    (ha : Leader mem entry a) : LeadersOnly mem entry (s.enqueue a) := by
  unfold BuildState.enqueue
  split_ifs with hin
  · exact h
  · refine ⟨fun x hx => ?_, fun x hx => ?_, fun x hx => Finset.mem_insert_of_mem (h.index x hx)⟩
    · rcases List.mem_append.mp hx with hx | hx
      · exact Finset.mem_insert_of_mem (h.queued x hx)
      · rw [List.mem_singleton.mp hx]
        exact Finset.mem_insert_self ..
    · rcases Finset.mem_insert.mp hx with rfl | hx
      · exact ha
      · exact h.leaders x hx

theorem LeadersOnly.foldl {s : BuildState} {as : List (BitVec 64)} (h : LeadersOnly mem entry s)
    (ha : ∀ a ∈ as, Leader mem entry a) :
    LeadersOnly mem entry (as.foldl BuildState.enqueue s) ∧
      ∀ x ∈ s.leaders, x ∈ (as.foldl BuildState.enqueue s).leaders := by
  induction as generalizing s with
  | nil => exact ⟨h, fun x hx => hx⟩
  | cons a as ih =>
    obtain ⟨h', hl⟩ := ih (h.enqueue (ha a (by simp))) fun x hx => ha x (List.mem_cons_of_mem _ hx)
    exact ⟨h', fun x hx => hl x (((enqueue_cases s a).2.2.1 x).mpr (Or.inr hx))⟩

theorem LeadersOnly.record {s : BuildState} {bb : BasicBlock} (h : LeadersOnly mem entry s)
    (hstart : bb.start ∈ s.leaders) (ha : ∀ a ∈ bb.succs, Leader mem entry a) :
    LeadersOnly mem entry (s.record bb) := by
  obtain ⟨h', hl⟩ := h.foldl ha
  refine ⟨h'.queued, h'.leaders, fun a ha => ?_⟩
  rcases (AList.mem_insert _).mp ha with rfl | ha
  · exact hl _ hstart
  · exact h'.index a ha

theorem buildLoop_leaders {fuel : ℕ} {s : BuildState} {cfg : CFG}
    (hs : LeadersOnly mem entry s) (h : buildLoop mem entry fuel s = some (.ok cfg)) :
    ∀ a ∈ cfg.indexByAddr, Leader mem entry a := by
  induction fuel generalizing s with
  | zero => simp [buildLoop] at h
  | succ fuel ih =>
    unfold buildLoop at h
    split at h
    next =>
      cases h
      exact fun a ha => hs.leaders a (hs.index a ha)
    next start rest hw =>
      have hpop : LeadersOnly mem entry { s with worklist := rest } :=
        ⟨fun a ha => hs.queued a (hw ▸ List.mem_cons_of_mem _ ha), hs.leaders, hs.index⟩
      have hstart : start ∈ s.leaders := hs.queued start (hw ▸ List.mem_cons_self ..)
      dsimp only at h
      split at h
      · exact ih hpop h
      · split at h
        · cases h
        · cases h
        next bb hscan =>
          obtain ⟨-, hbb⟩ := scan_built hscan
          refine ih (hpop.record (hbb ▸ hstart) ?_) h
          exact scan_leaders (fun a ha => hpop.known ha) (hs.leaders _ hstart).reach hscan

theorem Builds.leaders {cfg : CFG} (h : Builds mem entry cfg) :
    ∀ a ∈ cfg.indexByAddr, Leader mem entry a := by
  obtain ⟨fuel, h⟩ := h
  refine buildLoop_leaders ⟨?_, ?_, ?_⟩ h
  · simp [BuildState.initial]
  · intro a ha
    rw [Finset.mem_singleton.mp ha]
    exact .entry
  · intro a ha
    simp [BuildState.initial] at ha

end Reach

section Cover
variable {mem : MemoryReader} {entry : BitVec 64} {cfg : CFG}

/-- Some block holds the instruction at `a`. -/
def CFG.Holds (cfg : CFG) (a : BitVec 64) : Prop :=
  ∃ b ∈ cfg.blocks, ∃ i < b.insts.length, addrAt b.start i = a

/-- A block that starts at decodable code is not empty. -/
theorem WellBuilt.nonempty {b : BasicBlock} (h : WellBuilt mem b) {inst : DecodedInst}
    (hd : decodeNext mem b.start = .ok inst) : 0 < b.insts.length := by
  cases h with
  | control hs hd' he => simp
  | @undecoded start body e hs hd' =>
    rcases Nat.eq_zero_or_pos body.length with h0 | hpos
    · have hd0 : decodeNext mem start = .ok inst := hd
      rw [h0, addrAt_zero, hd0] at hd'
      cases hd'
    · exact hpos
  | @cut start body hs hne hfresh =>
    rcases Nat.eq_zero_or_pos body.length with h0 | hpos
    · rw [h0, addrAt_zero] at hne
      exact absurd rfl hne
    · exact hpos

theorem CFG.Sound.holds_start (h : cfg.Sound mem entry) {a : BitVec 64}
    (ha : a ∈ cfg.indexByAddr) {inst : DecodedInst} (hd : decodeNext mem a = .ok inst) :
    cfg.Holds a := by
  obtain ⟨b, hb, rfl⟩ := h.start_mem ha
  exact ⟨b, hb, 0, (h.built b hb).nonempty hd, addrAt_zero _⟩

/-- After an instruction that does not end its block comes the next one of the block, an
address that is not decodable, or the start of a block. -/
theorem CFG.Sound.holds_next (h : cfg.Sound mem entry) {a : BitVec 64} {inst : DecodedInst}
    (ha : cfg.Holds a) (hd : decodeNext mem a = .ok inst) (hc : isControl inst.opcode = false) :
    cfg.Holds (a + 4) ∨ (∃ e, decodeNext mem (a + 4) = .error e) ∨ a + 4 ∈ cfg.indexByAddr := by
  obtain ⟨b, hb, i, hi, rfl⟩ := ha
  have hdi := (h.built b hb).decoded i hi
  rw [hd] at hdi
  have he := (decodeNext_shaped hd).exit_control hc
  rw [addrAt_add_four]
  rcases (h.built b hb).inner hi (Except.ok.inj hdi ▸ he) with hlt | ⟨-, -, hu⟩ | ⟨-, -, hs⟩
  · exact Or.inl ⟨b, hb, i + 1, hlt, rfl⟩
  · exact Or.inr (Or.inl hu)
  · exact Or.inr (Or.inr (h.closed b hb _ (hs ▸ List.mem_singleton_self _)))

/-- A control instruction is the last of its block, and its targets are starts. -/
theorem CFG.Sound.holds_control (h : cfg.Sound mem entry) {a : BitVec 64} {inst : DecodedInst}
    (ha : cfg.Holds a) (hd : decodeNext mem a = .ok inst) {term : TermKind}
    {succs : List (BitVec 64)} (he : exitOf inst = .ok (some (term, succs))) :
    ∀ x ∈ succs, x ∈ cfg.indexByAddr := by
  obtain ⟨b, hb, i, hi, rfl⟩ := ha
  have hdi := (h.built b hb).decoded i hi
  rw [hd] at hdi
  obtain ⟨-, -, hs⟩ := (h.built b hb).exit hi (Except.ok.inj hdi ▸ he)
  exact hs ▸ h.closed b hb

theorem branch_target {pc : BitVec 64} {inst : DecodedInst} {r s : ℕ} {off : BitVec 64}
    (hd : decodeNext mem pc = .ok inst) (hc : isCondBranch inst.opcode)
    (ho : inst.operands = [.reg r, .reg s, .imm off]) :
    ∃ term succs, exitOf inst = .ok (some (term, succs)) ∧ pc + off ∈ succs := by
  obtain ⟨r', s', i, ho', he⟩ := (decodeNext_shaped hd).exit_branch hc
  rw [ho] at ho'
  cases ho'
  rw [(decodeNext_ok hd).2.1] at he
  exact ⟨_, _, he, by simp⟩

theorem branch_next {pc : BitVec 64} {inst : DecodedInst} (hd : decodeNext mem pc = .ok inst)
    (hc : isCondBranch inst.opcode) :
    ∃ term succs, exitOf inst = .ok (some (term, succs)) ∧ pc + 4 ∈ succs := by
  obtain ⟨r, s, i, -, he⟩ := (decodeNext_shaped hd).exit_branch hc
  rw [(decodeNext_ok hd).2.1] at he
  exact ⟨_, _, he, by simp⟩

theorem jump_target {pc : BitVec 64} {inst : DecodedInst} {rd : ℕ} {off : BitVec 64}
    (hd : decodeNext mem pc = .ok inst) (hop : inst.opcode = .JAL)
    (ho : inst.operands = [.reg rd, .imm off]) :
    ∃ term succs, exitOf inst = .ok (some (term, succs)) ∧ pc + off ∈ succs := by
  obtain ⟨rd', i, ho', he⟩ := (decodeNext_shaped hd).exit_jal hop
  rw [ho] at ho'
  cases ho'
  rw [(decodeNext_ok hd).2.1] at he
  exact ⟨_, _, he, by simp⟩

/-- Every reachable address that is decodable is in a block. -/
theorem CFG.Sound.covers (h : cfg.Sound mem entry) {a : BitVec 64}
    (hr : StaticReach mem entry a) :
    cfg.Holds a ∨ (∃ e, decodeNext mem a = .error e) ∨ a ∈ cfg.indexByAddr := by
  have hhold : ∀ {pc inst}, decodeNext mem pc = .ok inst →
      (cfg.Holds pc ∨ (∃ e, decodeNext mem pc = .error e) ∨ pc ∈ cfg.indexByAddr) →
        cfg.Holds pc := by
    rintro pc inst hd (hb | ⟨e, he⟩ | hi)
    · exact hb
    · rw [hd] at he
      cases he
    · exact h.holds_start hi hd
  induction hr with
  | entry => exact Or.inr (Or.inr h.entry)
  | next _ hd hc ih => exact h.holds_next (hhold hd ih) hd hc
  | target _ hd hc ho ih =>
    obtain ⟨_, _, he, hm⟩ := branch_target hd hc ho
    exact Or.inr (Or.inr (h.holds_control (hhold hd ih) hd he _ hm))
  | notTaken _ hd hc ih =>
    obtain ⟨_, _, he, hm⟩ := branch_next hd hc
    exact Or.inr (Or.inr (h.holds_control (hhold hd ih) hd he _ hm))
  | jump _ hd hop ho ih =>
    obtain ⟨_, _, he, hm⟩ := jump_target hd hop ho
    exact Or.inr (Or.inr (h.holds_control (hhold hd ih) hd he _ hm))

theorem CFG.Sound.holds_of_reach (h : cfg.Sound mem entry) {a : BitVec 64}
    (hr : StaticReach mem entry a) {inst : DecodedInst} (hd : decodeNext mem a = .ok inst) :
    cfg.Holds a := by
  rcases h.covers hr with hb | ⟨e, he⟩ | hi
  · exact hb
  · rw [hd] at he
    cases he
  · exact h.holds_start hi hd

/-- All leaders are starts of blocks. -/
theorem CFG.Sound.leader_mem (h : cfg.Sound mem entry) {a : BitVec 64}
    (ha : Leader mem entry a) : a ∈ cfg.indexByAddr := by
  cases ha with
  | entry => exact h.entry
  | target hr hd hc ho =>
    obtain ⟨_, _, he, hm⟩ := branch_target hd hc ho
    exact h.holds_control (h.holds_of_reach hr hd) hd he _ hm
  | notTaken hr hd hc =>
    obtain ⟨_, _, he, hm⟩ := branch_next hd hc
    exact h.holds_control (h.holds_of_reach hr hd) hd he _ hm
  | jump hr hd hop ho =>
    obtain ⟨_, _, he, hm⟩ := jump_target hd hop ho
    exact h.holds_control (h.holds_of_reach hr hd) hd he _ hm

/-- The CFG is the cover of the statically reachable code. -/
structure Covers (mem : MemoryReader) (entry : BitVec 64) (cfg : CFG) : Prop where
  keys : ∀ a, a ∈ cfg.indexByAddr ↔ Leader mem entry a
  index : ∀ a i, cfg.indexByAddr.lookup a = some i ↔
    ∃ h : i < cfg.blocks.length, cfg.blocks[i].start = a
  closed : ∀ b ∈ cfg.blocks, ∀ a ∈ b.succs, a ∈ cfg.indexByAddr
  insts : ∀ a, (∃ b ∈ cfg.blocks, ∃ inst ∈ b.insts, inst.pc = a) ↔
    StaticReach mem entry a ∧ ∃ inst, decodeNext mem a = .ok inst

theorem cfg_covers (h : Builds mem entry cfg) : Covers mem entry cfg := by
  have hcfg := h.sound
  refine ⟨fun a => ⟨h.leaders a, hcfg.leader_mem⟩, hcfg.index, hcfg.closed, fun a => ⟨?_, ?_⟩⟩
  · rintro ⟨b, hb, inst, hi, rfl⟩
    have hwell := hcfg.built b hb
    obtain ⟨i, hlt, rfl⟩ := List.getElem_of_mem hi
    rw [hwell.pc_eq hlt]
    exact ⟨hwell.reach (h.leaders _ (hcfg.start_key hb)).reach hlt, _, hwell.decoded i hlt⟩
  · rintro ⟨hr, inst, hd⟩
    obtain ⟨b, hb, i, hi, rfl⟩ := hcfg.holds_of_reach hr hd
    exact ⟨b, hb, b.insts[i], List.getElem_mem hi, (hcfg.built b hb).pc_eq hi⟩

/-- Two instructions and a branch back to the second one. -/
def backReader : MemoryReader := fun a =>
  if a = 0 ∨ a = 4 then some 0x00000013
  else if a = 8 then some 0xfe000ee3
  else none

def backNop (pc : BitVec 64) : DecodedInst :=
  ⟨pc, 0x00000013, .ADDI, [.reg 0, .reg 0, .imm 0]⟩

def backBranch : DecodedInst := ⟨8, 0xfe000ee3, .BEQ, [.reg 0, .reg 0, .imm (-4)]⟩

def backCFG : CFG where
  entry := 0
  blocks := [
    ⟨0, [backNop 0, backNop 4, backBranch], .Branch, [4, 12]⟩,
    ⟨4, [backNop 4, backBranch], .Branch, [4, 12]⟩,
    ⟨12, [], .Trap, []⟩]
  indexByAddr := ((∅ : AddrIndex).insert 0 0 |>.insert 4 1).insert 12 2

theorem back_builds : Builds backReader 0 backCFG := ⟨9, rfl⟩

theorem back_straight : StraightLine backReader backCFG
    ⟨4, [backNop 4, backBranch], .Branch, [4, 12]⟩ :=
  straight_line back_builds _ (List.mem_cons_of_mem _ (List.mem_cons_self ..))

theorem back_covers : Covers backReader 0 backCFG := cfg_covers back_builds

end Cover

end Riscy.RISCV
