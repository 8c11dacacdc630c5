import Riscy.AArch64Text

/-! What the reader makes of the text of a translated program is the module that the text was
printed from. Words are read one by one, then lines, then blocks. -/
namespace Riscy.AArch64
open TextScan RISCV

section Words
variable {c : Char} {w : List Char} {mn : String}

/-- A word has no spacing and no line break. -/
def IsPlain (c : Char) : Prop := isSpacing c = false ∧ c ≠ '\n'

instance : DecidablePred IsPlain := fun _ => inferInstanceAs (Decidable (_ ∧ _))

theorem isPlain_digit {b : ℕ} (h : isDigitOf b c = true) : IsPlain c := by
  have hspace := digit_ne h (by decide : digitVal ' ' = none)
  have hcomma := digit_ne h (by decide : digitVal ',' = none)
  have hopen := digit_ne h (by decide : digitVal '[' = none)
  have hclose := digit_ne h (by decide : digitVal ']' = none)
  exact ⟨by simp [isSpacing, hspace, hcomma, hopen, hclose], digit_ne h (by decide)⟩

theorem isPlain_toDigits {b n : ℕ} (hb : 1 < b) (hb' : b ≤ 16) :
    ∀ c ∈ Nat.toDigits b n, IsPlain c :=
  fun _ hc => isPlain_digit (isDigitOf_mem hb hb' hc)

theorem isPlain_rx (p : PReg) : ∀ c ∈ rx p, IsPlain c :=
  List.forall_mem_cons.mpr ⟨by decide, isPlain_toDigits (by decide) (by decide)⟩

theorem isPlain_rw (p : PReg) : ∀ c ∈ rw p, IsPlain c :=
  List.forall_mem_cons.mpr ⟨by decide, isPlain_toDigits (by decide) (by decide)⟩

theorem isPlain_imm (v : BitVec 64) : ∀ c ∈ immText v, IsPlain c :=
  List.forall_mem_cons.mpr ⟨by decide, isPlain_toDigits (by decide) (by decide)⟩

theorem isPlain_off (z : ℤ) : ∀ c ∈ '#' :: intText z, IsPlain c := by
  refine List.forall_mem_cons.mpr ⟨by decide, fun c hc => ?_⟩
  rcases intText_mem hc with rfl | hc
  · decide
  · exact isPlain_digit hc

theorem isPlain_reg (size : Size) (p : PReg) : ∀ c ∈ size.reg p, IsPlain c := by
  cases size
  all_goals first | exact isPlain_rx p | exact isPlain_rw p

theorem isPlain_literal : ∀ c ∈ "__riscy_block_0x".toList, IsPlain c := by
  simp [IsPlain, isSpacing]

theorem isPlain_label (a : BitVec 64) : ∀ c ∈ (blockLabel a).toList, IsPlain c := by
  rw [blockLabel_toList]
  intro c hc
  rcases List.mem_append.mp hc with hc | hc
  · exact isPlain_literal c hc
  · exact isPlain_toDigits (by decide) (by decide) c hc

/-- The words of statements. -/
def mnemonics : List String :=
  ["mov", "movz", "movk", "add", "sub", "and", "orr", "eor", "lsl", "lsr", "asr", "ldr", "ldrb",
    "ldrh", "ldrsw", "str", "strb", "strh", "cmp", "cset", "sxtw", "uxtw", "b", "b.ne", "bl",
    "brk", ".quad"]

theorem isPlain_mnemonic (h : mn ∈ mnemonics) : text mn ≠ [] ∧ ∀ c ∈ text mn, IsPlain c := by
  have hall : ∀ mn ∈ mnemonics, text mn ≠ [] ∧ ∀ c ∈ text mn, IsPlain c := by
    simp [mnemonics, text, IsPlain, isSpacing]
  exact hall mn h

theorem tokens_plain (hne : w ≠ []) (h : ∀ c ∈ w, IsPlain c) : tokens isSpacing w = [w] :=
  tokens_last hne fun c hc => (h c hc).1

@[simp] theorem tokens_rx (p : PReg) : tokens isSpacing (rx p) = [rx p] :=
  tokens_plain (by simp [rx]) (isPlain_rx p)

@[simp] theorem tokens_rw (p : PReg) : tokens isSpacing (rw p) = [rw p] :=
  tokens_plain (by simp [rw]) (isPlain_rw p)

@[simp] theorem tokens_imm (v : BitVec 64) : tokens isSpacing (immText v) = [immText v] :=
  tokens_plain (by simp [immText]) (isPlain_imm v)

@[simp] theorem tokens_reg (size : Size) (p : PReg) :
    tokens isSpacing (size.reg p) = [size.reg p] := by
  refine tokens_plain ?_ (isPlain_reg size p)
  cases size <;> simp [Size.reg, rx, rw]

@[simp] theorem tokens_zero : tokens isSpacing (text "#0") = [text "#0"] :=
  tokens_plain (by simp [text]) (by simp [text, IsPlain, isSpacing])

@[simp] theorem tokens_cond (c : Cond) :
    tokens isSpacing (text c.mnemonic) = [text c.mnemonic] := by
  refine tokens_plain ?_ ?_
  all_goals cases c <;> simp [text, Cond.mnemonic, IsPlain, isSpacing]

@[simp] theorem tokens_lsl (v : BitVec 64) :
    tokens isSpacing (text "lsl " ++ immText v) = [text "lsl", immText v] := by
  have hsplit : text "lsl " ++ immText v = text "lsl" ++ ' ' :: immText v := by
    simp [text]
  have hplain := isPlain_mnemonic (by simp [mnemonics] : "lsl" ∈ mnemonics)
  rw [hsplit, tokens_word hplain.1 (fun c hc => (hplain.2 c hc).1) (by decide), tokens_imm]

@[simp] theorem tokens_mem (base : PReg) (off : BitVec 32) :
    tokens isSpacing (memText base off) = [rx base, '#' :: intText off.toInt] := by
  have hsplit : memText base off =
      '[' :: (rx base ++ ([',', ' '] ++ (('#' :: intText off.toInt) ++ [']']))) := by
    simp [memText, text]
  rw [hsplit, tokens_sep (by decide), tokens_words (by simp [rx])
    (fun c hc => (isPlain_rx base c hc).1) (by simp) (by simp [isSpacing]), tokens_word (by simp)
    (fun c hc => (isPlain_off _ c hc).1) (by decide), tokens_nil]

theorem tokens_insn (h : text mn ≠ [] ∧ ∀ c ∈ text mn, IsPlain c) (ops : List (List Char)) :
    tokens isSpacing (insn mn ops) = text mn :: ops.flatMap (tokens isSpacing) := by
  rw [insn, List.append_assoc, tokens_seps (by simp [text, isSpacing]),
    tokens_word h.1 (fun c hc => (h.2 c hc).1) (by decide),
    tokens_intercalate (by simp) (by simp [isSpacing])]

end Words

section Lines

@[simp] theorem readReg_rx (p : PReg) : readReg 'x' (rx p) = some p := by
  rw [rx, readReg, if_pos rfl, readNat_toDigits (by decide) (by decide)]

@[simp] theorem readReg_rw (p : PReg) : readReg 'w' (rw p) = some p := by
  rw [rw, readReg, if_pos rfl, readNat_toDigits (by decide) (by decide)]

@[simp] theorem readReg_rw_x (p : PReg) : readReg 'x' (rw p) = none := rfl

@[simp] theorem readReg_rx_w (p : PReg) : readReg 'w' (rx p) = none := rfl

@[simp] theorem readReg_zero : readReg 'x' (text "#0") = none := rfl

@[simp] theorem readReg_imm (v : BitVec 64) : readReg 'x' (immText v) = none := rfl

@[simp] theorem readImm_imm (v : BitVec 64) : readImm (immText v) = some v := by
  rw [immText, readImm, readNat_toDigits (by decide) (by decide), Option.map_some,
    BitVec.ofNat_toNat, BitVec.setWidth_eq]

@[simp] theorem readOff_off (off : BitVec 32) : readOff ('#' :: intText off.toInt) = some off := by
  rw [readOff, readInt_intText, Option.map_some, BitVec.ofInt_toInt]

@[simp] theorem readAlu_mnemonic (op : Alu) : readAlu (text op.mnemonic) = some op := by
  cases op <;> rfl

@[simp] theorem readCond_mnemonic (c : Cond) : readCond (text c.mnemonic) = some c := by
  cases c <;> rfl

theorem readAccess_ldr (size : Size) (p : PReg) :
    readAccess Size.ldr [.x, .w, .b, .h, .sw] (text size.ldr) (size.reg p) = some (size, p) := by
  cases size <;> simp [readAccess, Size.ldr, Size.reg]

theorem readAccess_str {size : Size} (h : size ≠ .sw) (p : PReg) :
    readAccess Size.str [.x, .w, .b, .h] (text size.str) (size.reg p) = some (size, p) := by
  cases size <;> simp [readAccess, Size.str, Size.reg] at h ⊢

/-- A line that the emitter has words for: no store extends a sign. -/
def Line.Writable {ρ : Type} (l : Line ρ) : Prop := ∀ v base off, l ≠ .str .sw v base off

theorem readStmt_print (l : Line PReg) (h : l.Writable) :
    readStmt (tokens isSpacing l.print) = some (.line l) := by
  cases l with
  | mov d s | movImm d v | movz d v | movk d v lsl | cmp a b | cmpZero a | cset d c | sxtw d s
  | uxtw d s =>
    rw [Line.print, tokens_insn (isPlain_mnemonic (by simp [mnemonics]))]
    simp [readStmt]
  | alu op d a b =>
    rw [Line.print, tokens_insn (isPlain_mnemonic (by cases op <;> simp [mnemonics, Alu.mnemonic]))]
    simp [readStmt]
  | ldr size d base off =>
    have halu : readAlu (text size.ldr) = none := by
      cases size <;> rfl
    rw [Line.print, tokens_insn (isPlain_mnemonic (by cases size <;> simp [mnemonics, Size.ldr]))]
    simp [readStmt, halu, readAccess_ldr]
  | str size d base off =>
    have hsize : size ≠ .sw := by
      rintro rfl
      exact h d base off rfl
    have halu : readAlu (text size.str) = none := by
      cases size <;> rfl
    have hldr : readAccess Size.ldr [.x, .w, .b, .h, .sw] (text size.str) (size.reg d) = none := by
      cases size <;> rfl
    rw [Line.print, tokens_insn (isPlain_mnemonic (by cases size <;> simp [mnemonics, Size.str]))]
    simp [readStmt, halu, hldr, readAccess_str hsize]

/-- Where a jump can go: the blocks of the module. -/
def Jump.Known (j : Jump) : Prop := ∀ t, j = .b t ∨ j = .bne t → ∃ a, t = blockLabel a

theorem tokens_label (a : BitVec 64) :
    tokens isSpacing (blockLabel a).toList = [(blockLabel a).toList] := by
  refine tokens_plain ?_ (isPlain_label a)
  rw [blockLabel_toList]
  simp

theorem readStmt_jump (j : Jump) (h : j.Known) :
    readStmt (tokens isSpacing j.print) = some (.jump j) := by
  cases j with
  | b t =>
    obtain ⟨a, rfl⟩ := h t (Or.inl rfl)
    rw [Jump.print, tokens_insn (isPlain_mnemonic (by simp [mnemonics]))]
    simp [readStmt, tokens_label]
  | bne t =>
    obtain ⟨a, rfl⟩ := h t (Or.inr rfl)
    rw [Jump.print, tokens_insn (isPlain_mnemonic (by simp [mnemonics]))]
    simp [readStmt, tokens_label]
  | bl | ret | brk => rfl

/-- A line of text that stands for a statement. -/
structure IsStmt (l : List Char) (s : Stmt) : Prop where
  read : readStmt (tokens isSpacing l) = some s
  stmt : s ≠ .directive
  ne : l ≠ []
  comment : isComment l = false
  oneLine : '\n' ∉ l

theorem IsStmt.reads {l : List Char} {s : Stmt} (h : IsStmt l s) : Reads readLine [l] [s] := by
  refine Reads.one h.oneLine ?_
  rw [readLine, if_neg (by simp [h.ne, h.comment]), h.read, Option.map_some, if_neg h.stmt]

theorem insn_oneLine {mn : String} {ops : List (List Char)} (h : mn ∈ mnemonics)
    (hops : ∀ w ∈ ops, '\n' ∉ w) : '\n' ∉ insn mn ops := by
  have hmn : '\n' ∉ text mn := fun hc => ((isPlain_mnemonic h).2 _ hc).2 rfl
  intro hc
  rw [insn, List.append_assoc, List.mem_append, List.mem_append, List.mem_cons] at hc
  rcases hc with hc | hc | hc | hc
  · simp [text] at hc
  · exact hmn hc
  · cases hc
  · rcases mem_intercalate hc with hc | ⟨w, hw, hc⟩
    · simp at hc
    · exact hops w hw hc

theorem plain_oneLine {w : List Char} (h : ∀ c ∈ w, IsPlain c) : '\n' ∉ w :=
  fun hc => (h _ hc).2 rfl

theorem print_oneLine (l : Line PReg) : '\n' ∉ l.print := by
  have hx (p) := plain_oneLine (isPlain_rx p)
  have hw (p) := plain_oneLine (isPlain_rw p)
  have hi (v) := plain_oneLine (isPlain_imm v)
  have hreg (size p) := plain_oneLine (isPlain_reg size p)
  have hmem (base off) : '\n' ∉ memText base off := by
    have ho := plain_oneLine (isPlain_off (BitVec.toInt off))
    simp only [List.mem_cons, not_or] at ho
    simp [memText, text, hx, ho.2]
  have hcond (c : Cond) : '\n' ∉ text c.mnemonic := by
    cases c <;> simp [text, Cond.mnemonic]
  cases l with
  | alu op d a b =>
    exact insn_oneLine (by cases op <;> simp [mnemonics, Alu.mnemonic]) (by simp [hx])
  | ldr size d base off =>
    exact insn_oneLine (by cases size <;> simp [mnemonics, Size.ldr]) (by simp [hreg, hmem])
  | str size d base off =>
    exact insn_oneLine (by cases size <;> simp [mnemonics, Size.str]) (by simp [hreg, hmem])
  | cset d c => exact insn_oneLine (by simp [mnemonics]) (by simp [hx, hcond])
  | _ => exact insn_oneLine (by simp [mnemonics]) (by simp [hx, hw, hi, text])

theorem isStmt_line {l : Line PReg} (h : l.Writable) : IsStmt l.print (.line l) where
  read := readStmt_print l h
  stmt := by simp
  ne := by cases l <;> exact List.cons_ne_nil _ _
  comment := by cases l <;> rfl
  oneLine := print_oneLine l

theorem isStmt_jump {j : Jump} (h : j.Known) : IsStmt j.print (.jump j) where
  read := readStmt_jump j h
  stmt := by simp
  ne := by cases j <;> exact List.cons_ne_nil _ _
  comment := by cases j <;> rfl
  oneLine := by
    cases j with
    | b t =>
      obtain ⟨a, rfl⟩ := h t (Or.inl rfl)
      exact insn_oneLine (by simp [mnemonics]) (by simpa using plain_oneLine (isPlain_label a))
    | bne t =>
      obtain ⟨a, rfl⟩ := h t (Or.inr rfl)
      exact insn_oneLine (by simp [mnemonics]) (by simpa using plain_oneLine (isPlain_label a))
    | bl | ret | brk => simp [Jump.print, insn, text]

theorem label_head (a : BitVec 64) : (blockLabel a).toList.head? = some '_' := by
  rw [blockLabel_toList]
  rfl

theorem isStmt_label (a : BitVec 64) :
    IsStmt (labelLine (blockLabel a).toList) (.label (blockLabel a).toList) := by
  obtain ⟨w, hw⟩ : ∃ w, (blockLabel a).toList = '_' :: w := List.head?_eq_some_iff.mp (label_head a)
  have hplain := isPlain_label a
  have hcolon : ∀ c ∈ labelLine (blockLabel a).toList, IsPlain c := by
    intro c hc
    rcases List.mem_append.mp hc with hc | hc
    · exact hplain c hc
    · rw [List.mem_singleton.mp hc]
      decide
  have hcons : labelLine (blockLabel a).toList = '_' :: (w ++ [':']) := by
    rw [labelLine, hw, List.cons_append]
  have hne : labelLine (blockLabel a).toList ≠ [] := by
    rw [hcons]
    simp
  refine ⟨?_, by simp, hne, ?_, plain_oneLine hcolon⟩
  · have hret : labelLine (blockLabel a).toList ≠ text "ret" := by
      rw [hcons]
      simp [text]
    rw [tokens_plain hne hcolon, readStmt, if_neg hret, hcons, if_neg (by simp), ← hcons, labelLine,
      if_pos (by simp), List.dropLast_concat]
  · rw [hcons]
    rfl

theorem isStmt_quad {w : List Char} {s : Stmt} (hne : w ≠ []) (h : ∀ c ∈ w, IsPlain c)
    (hr : readQuad w = some s) (hs : s ≠ .directive) : IsStmt (quad w) s where
  read := by
    rw [quad, tokens_insn (isPlain_mnemonic (by simp [mnemonics])), List.flatMap_singleton,
      tokens_plain hne h]
    simpa [readStmt] using hr
  stmt := hs
  ne := List.cons_ne_nil _ _
  comment := rfl
  oneLine := insn_oneLine (by simp [mnemonics]) (by simpa using plain_oneLine h)

theorem isStmt_num (v : BitVec 64) : IsStmt (quad (hexText v)) (.num v) := by
  refine isStmt_quad (by simp [hexText]) (fun c hc => ?_) ?_ (by simp)
  · rcases hexText_mem hc with rfl | hc
    · decide
    · exact isPlain_digit hc
  · rw [readQuad, readHex_hexText]

theorem isStmt_count (n : ℕ) :
    IsStmt (quad (Nat.toDigits 10 n)) (.num (BitVec.ofNat 64 n)) := by
  refine isStmt_quad Nat.toDigits_ne_nil (isPlain_toDigits (by decide) (by decide)) ?_ (by simp)
  have hhex : readHex 64 (Nat.toDigits 10 n) = none := by
    unfold readHex
    split
    · rename_i s hs
      have hx : isDigitOf 10 'x' = true :=
        isDigitOf_mem (n := n) (by decide) (by decide) (by simp [hs])
      exact absurd hx (by decide)
    · rfl
  rw [readQuad, hhex, readNat_toDigits (by decide) (by decide)]

theorem isStmt_ptr (a : BitVec 64) :
    IsStmt (quad (blockLabel a).toList) (.sym (blockLabel a).toList) := by
  obtain ⟨w, hw⟩ : ∃ w, (blockLabel a).toList = '_' :: w := List.head?_eq_some_iff.mp (label_head a)
  refine isStmt_quad (by simp [hw]) (isPlain_label a) ?_ (by simp)
  rw [hw]
  rfl

end Lines

section Module
variable {b : AsmBlock PReg} {m : ModuleAsm}

/-- A block of the text: its label is that of an address, and all of it can be written. -/
structure AsmBlock.Writable (b : AsmBlock PReg) : Prop where
  label : ∃ a, b.label = blockLabel a
  lines : ∀ l ∈ b.lines, l.Writable
  jumps : ∀ j ∈ b.jumps, j.Known

def AsmBlock.part (b : AsmBlock PReg) : List Char × List Stmt :=
  (b.label.toList, b.lines.map Stmt.line ++ b.jumps.map Stmt.jump)

theorem AsmBlock.Writable.reads (h : b.Writable) :
    Reads readLine b.print (.label b.part.1 :: b.part.2) := by
  obtain ⟨a, ha⟩ := h.label
  have hlines : Reads readLine (b.lines.map Line.print) (b.lines.map Stmt.line) :=
    Reads.map fun l hl => (isStmt_line (h.lines l hl)).reads
  have hjumps : Reads readLine (b.jumps.map Jump.print) (b.jumps.map Stmt.jump) :=
    Reads.map fun j hj => (isStmt_jump (h.jumps j hj)).reads
  have hend : Reads readLine [[]] [] := ⟨by simp, rfl⟩
  have hbody := (hlines.append hjumps).append hend
  rw [List.append_nil] at hbody
  have hlabel : IsStmt (labelLine b.label.toList) (.label b.label.toList) := by
    rw [ha]
    exact isStmt_label a
  exact hlabel.reads.append hbody

theorem part_not_label (b : AsmBlock PReg) : ∀ s ∈ b.part.2, s.label? = none := by
  intro s hs
  rcases List.mem_append.mp hs with hs | hs
  · obtain ⟨l, -, rfl⟩ := List.mem_map.mp hs
    rfl
  · obtain ⟨j, -, rfl⟩ := List.mem_map.mp hs
    rfl

theorem readBlock_part (b : AsmBlock PReg) : readBlock b.part = some b := by
  obtain ⟨label, lines, jumps⟩ := b
  have hjump : ∀ s ∈ jumps.map Stmt.jump, s.line?.isSome = false := by
    intro s hs
    obtain ⟨j, -, rfl⟩ := List.mem_map.mp hs
    rfl
  have hline : ∀ s ∈ lines.map Stmt.line, s.line?.isSome = true := by
    intro s hs
    obtain ⟨l, -, rfl⟩ := List.mem_map.mp hs
    rfl
  have htake : (lines.map Stmt.line ++ jumps.map Stmt.jump).takeWhile (fun s => s.line?.isSome) =
      lines.map Stmt.line := by
    rw [List.takeWhile_append_of_pos hline]
    cases jumps <;> simp [Stmt.line?]
  have hdrop : (lines.map Stmt.line ++ jumps.map Stmt.jump).dropWhile (fun s => s.line?.isSome) =
      jumps.map Stmt.jump := by
    rw [List.dropWhile_append_of_pos hline]
    cases jumps <;> simp [Stmt.line?]
  have hlines : (lines.map Stmt.line).filterMap Stmt.line? = lines := by
    rw [List.filterMap_map]
    exact List.filterMap_some
  have hjumps : (jumps.map Stmt.jump).mapM Stmt.jump? = some jumps :=
    mapM_map Stmt.jump? Stmt.jump (fun _ => rfl) jumps
  simp only [readBlock, AsmBlock.part, htake, hdrop, hlines, hjumps, String.ofList_toList]
  rfl

def ModuleAsm.headParts (m : ModuleAsm) : List (List Char × List Stmt) :=
  [(text "_riscy_entry", entryStub), (text "_riscy_entry_pc", [.num m.entryPc]),
    (text "_riscy_num_blocks", [.num (BitVec.ofNat 64 m.blocks.length)]),
    (text "_riscy_block_addrs", m.addrs.map Stmt.num),
    (text "_riscy_block_ptrs", m.ptrs.map fun l => Stmt.sym l.toList)]

/-- The text of a module can be written. -/
structure ModuleAsm.Writable (m : ModuleAsm) : Prop where
  blocks : ∀ b ∈ m.blocks, b.Writable
  ptrs : ∀ l ∈ m.ptrs, ∃ a, l = blockLabel a

theorem ModuleAsm.Writable.header (h : m.Writable) : Reads readLine m.header
    (unparts .label m.headParts) := by
  have hentry : Reads readLine [text ".text", text ".global _riscy_entry",
      text "// x0 = struct RiscyGuestState*; x1 = start guest PC", labelLine (text "_riscy_entry"),
      text "  mov x19, x30", text "  bl _riscy_indirect_jump", text "  ret x19", [], text ".data",
      text ".align 3"] (.label (text "_riscy_entry") :: entryStub) :=
    ⟨by simp [text, labelLine], rfl⟩
  have hpc : Reads readLine (globalLabel "_riscy_entry_pc") [.label (text "_riscy_entry_pc")] :=
    ⟨by simp [globalLabel, text, labelLine], rfl⟩
  have hnum : Reads readLine (globalLabel "_riscy_num_blocks")
      [.label (text "_riscy_num_blocks")] :=
    ⟨by simp [globalLabel, text, labelLine], rfl⟩
  have haddrs : Reads readLine (globalLabel "_riscy_block_addrs")
      [.label (text "_riscy_block_addrs")] :=
    ⟨by simp [globalLabel, text, labelLine], rfl⟩
  have hptrs : Reads readLine (globalLabel "_riscy_block_ptrs")
      [.label (text "_riscy_block_ptrs")] :=
    ⟨by simp [globalLabel, text, labelLine], rfl⟩
  have hend : Reads readLine [[], text ".text"] [] := ⟨by simp [text], rfl⟩
  have hptr : ∀ l ∈ m.ptrs, Reads readLine [quad l.toList] [.sym l.toList] := by
    intro l hl
    obtain ⟨a, rfl⟩ := h.ptrs l hl
    exact (isStmt_ptr a).reads
  have haddr : Reads readLine (m.addrs.map fun a => quad (hexText a)) (m.addrs.map Stmt.num) :=
    .map fun a _ => (isStmt_num a).reads
  have hall := ((((hentry.append (hpc.append (isStmt_num m.entryPc).reads)).append
    (hnum.append (isStmt_count m.blocks.length).reads)).append
    (haddrs.append haddr)).append
    (hptrs.append (.map hptr))).append hend
  rw [List.append_nil] at hall
  simpa [ModuleAsm.header, unparts, ModuleAsm.headParts] using hall

/-- What is read from the text of a module is the module, after the entry stub. -/
theorem ModuleAsm.Writable.readProgram (h : m.Writable) : readProgram m.print =
    some ⟨entryStub, BitVec.ofNat 64 m.blocks.length, m⟩ := by
  have hblocks : Reads readLine (m.blocks.flatMap AsmBlock.print)
      (unparts .label (m.blocks.map AsmBlock.part)) := by
    rw [unparts, List.flatMap_map]
    exact Reads.flatMap fun b hb => (h.blocks b hb).reads
  have hread : readText readLine m.print =
      some (unparts .label (m.headParts ++ m.blocks.map AsmBlock.part)) := by
    rw [unparts, List.flatMap_append]
    exact (h.header.append hblocks).text rfl
  have hparts : parts Stmt.label? (unparts .label (m.headParts ++ m.blocks.map AsmBlock.part)) =
      m.headParts ++ m.blocks.map AsmBlock.part := by
    have hlabel : ∀ c, Stmt.label? (.label c) = some c := fun _ => rfl
    refine parts_unparts hlabel (List.forall_mem_append.mpr ⟨?_, ?_⟩)
    · simp [ModuleAsm.headParts, entryStub, Stmt.label?]
    · exact List.forall_mem_map.mpr fun b _ => part_not_label b
  have hnums : (m.addrs.map Stmt.num).mapM Stmt.num? = some m.addrs :=
    mapM_map Stmt.num? Stmt.num (fun _ => rfl) _
  have hsyms : (m.ptrs.map fun l => Stmt.sym l.toList).mapM Stmt.sym? = some m.ptrs :=
    mapM_map Stmt.sym? (fun l => Stmt.sym l.toList)
      (fun _ => congrArg some String.ofList_toList) _
  have hbs : (m.blocks.map AsmBlock.part).mapM readBlock = some m.blocks :=
    mapM_map readBlock AsmBlock.part readBlock_part _
  rw [AArch64.readProgram, hread]
  simp only [bind, Option.bind, hparts]
  simp only [ModuleAsm.headParts, List.cons_append, List.nil_append, hnums, hsyms, hbs]
  exact if_pos rfl

end Module

section Translated
variable {mem : MemoryReader} {entry : BitVec 64} {cfg : CFG} {o : ItemOrders} {m : ModuleAsm}
  {bb : BasicBlock}

theorem Stores.writable {k : ℕ} {i : IR.Instr} {pre : List (Line VName)} {l : Line VName}
    (h : Stores k i pre l) : l.Writable := by
  intro v base off he
  cases h with
  | reg => cases he
  | @mem _ _ _ _ ty =>
    have hsize : sizeOf ty = .sw := by
      injection he
    cases ty <;> cases hsize

theorem blockLines_writable (b : IR.Block) : ∀ l ∈ blockLines b, l.Writable := by
  intro l hl v base off he
  rcases List.mem_append.mp hl with hl | hl
  · rcases List.mem_cons.mp hl with rfl | hl
    · cases he
    · obtain ⟨pre, post, hsplit⟩ := List.append_of_mem hl
      obtain ⟨_, _, _, _, _, -, -, hs⟩ := linesAll_stores hsplit (he ▸ rfl)
      exact hs.writable v base off he
  · subst he
    unfold termLines at hl
    split at hl <;> simp at hl

theorem Line.Writable.map {ρ σ : Type} {l : Line ρ} (f : ρ → σ) (h : l.Writable) :
    (l.map f).Writable := by
  intro v base off he
  cases l with
  | str size v' base' off' =>
    obtain rfl : size = .sw := by
      injection he
    exact h v' base' off' rfl
  | _ => cases he

theorem translated_writable (h : Builds mem entry cfg) (hm : translate o cfg = .ok m) :
    m.Writable := by
  have hof := translate_inv h hm
  refine ⟨fun b hb => ?_, ?_⟩
  · obtain ⟨bb, hbb, hp⟩ := hof.printed hb
    have hw := h.sound.built bb hbb
    refine ⟨⟨bb.start, hp.label hw⟩, fun l hl => ?_, fun j hj t ht => ?_⟩
    · obtain ⟨blk, asg, ht, ha⟩ := hp
      rw [emitBlock_lines hw ht] at ha
      cases ha
      obtain ⟨l', hl', rfl⟩ := List.mem_map.mp hl
      exact (blockLines_writable _ l' hl').map _
    · rw [hp.jumps hw] at hj
      obtain ⟨a, -, ha⟩ := jump_succ (WellBuilt.blockExit h.sound hbb)
        (ht.imp (fun he => he ▸ hj) fun he => he ▸ hj)
      exact ⟨a, ha⟩
  · rw [hof.ptrs]
    exact List.forall_mem_map.mpr fun a _ => ⟨a, rfl⟩

/-- The text of a translated program, read line by line, is the program: the stub that saves the
return address and asks the dispatcher, the tables, and every block with its lines and jumps. -/
theorem text_read_back (h : Builds mem entry cfg) (hm : translate o cfg = .ok m) :
    readProgram m.print = some ⟨entryStub, BitVec.ofNat 64 m.numBlocks, m⟩ :=
  (translated_writable h hm).readProgram

theorem back_read_back : ∃ m, translate default backCFG = .ok m ∧
    readProgram m.print = some ⟨entryStub, BitVec.ofNat 64 m.numBlocks, m⟩ := by
  have hsize : ∀ bb ∈ backCFG.blocks, irSize bb.insts < 2 ^ 31 := by decide
  obtain ⟨m, hm, -⟩ := translates_short back_builds.sound hsize default
  exact ⟨m, hm, text_read_back back_builds hm⟩

end Translated

end Riscy.AArch64
