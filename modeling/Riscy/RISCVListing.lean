import Riscy.RISCVCFG
import Riscy.TextScan

/-! The listing of blocks that `formatBlock` prints, and a reader of it. Nothing of a block is
lost in its listing. -/
namespace Riscy.RISCV
open TextScan

section Print

def opcodeName : Opcode → String
  | .LUI => "LUI"
  | .AUIPC => "AUIPC"
  | .JAL => "JAL"
  | .JALR => "JALR"
  | .BEQ => "BEQ"
  | .BNE => "BNE"
  | .BLT => "BLT"
  | .BGE => "BGE"
  | .BLTU => "BLTU"
  | .BGEU => "BGEU"
  | .LB => "LB"
  | .LH => "LH"
  | .LW => "LW"
  | .LD => "LD"
  | .LBU => "LBU"
  | .LHU => "LHU"
  | .LWU => "LWU"
  | .SB => "SB"
  | .SH => "SH"
  | .SW => "SW"
  | .SD => "SD"
  | .ADDI => "ADDI"
  | .SLTI => "SLTI"
  | .SLTIU => "SLTIU"
  | .XORI => "XORI"
  | .ORI => "ORI"
  | .ANDI => "ANDI"
  | .SLLI => "SLLI"
  | .SRLI => "SRLI"
  | .SRAI => "SRAI"
  | .ADD => "ADD"
  | .SUB => "SUB"
  | .SLL => "SLL"
  | .SLT => "SLT"
  | .SLTU => "SLTU"
  | .XOR => "XOR"
  | .SRL => "SRL"
  | .SRA => "SRA"
  | .OR => "OR"
  | .AND => "AND"
  | .ADDIW => "ADDIW"
  | .SLLIW => "SLLIW"
  | .SRLIW => "SRLIW"
  | .SRAIW => "SRAIW"
  | .ADDW => "ADDW"
  | .SUBW => "SUBW"
  | .SLLW => "SLLW"
  | .SRLW => "SRLW"
  | .SRAW => "SRAW"
  | .FENCE => "FENCE"
  | .ECALL => "ECALL"
  | .EBREAK => "EBREAK"
  | .UNKNOWN => "UNKNOWN"

def regName (r : ℕ) : List Char := 'x' :: Nat.toDigits 10 r

def formatOperand : Operand → List Char
  | .reg r => regName r
  | .imm v => intText v.toInt
  | .mem base offset => intText offset.toInt ++ '(' :: regName base ++ [')']

def formatInst (inst : DecodedInst) : List Char :=
  text (opcodeName inst.opcode) ++
    if inst.operands = [] then []
    else ' ' :: [',', ' '].intercalate (inst.operands.map formatOperand)

/-- The word of a terminator in a listing. -/
def TermKind.name : TermKind → String
  | .None => "none"
  | .Fallthrough => "fallthrough"
  | .Branch => "branch"
  | .Jump => "jump"
  | .IndirectJump => "indirect"
  | .Return => "ret"
  | .Trap => "trap"

def startLine (start : BitVec 64) : List Char := text "block " ++ hexText start ++ [':']

def instLine (inst : DecodedInst) : List Char :=
  text "  " ++ hexText inst.pc ++ text ": " ++ hexText inst.raw ++ '\t' :: formatInst inst

def termLine (term : TermKind) (succs : List (BitVec 64)) : List Char :=
  text "  term: " ++ text term.name ++
    if succs = [] then [] else text "; succs: " ++ [',', ' '].intercalate (succs.map hexText)

def blockListing (bb : BasicBlock) : List (List Char) :=
  startLine bb.start :: bb.insts.map instLine ++ [termLine bb.term bb.succs]

def formatBlock (bb : BasicBlock) : List Char := unlines (blockListing bb)

end Print

section Read

/-- What a line of a listing stands for. -/
inductive Entry
  | block (start : BitVec 64)
  | inst (inst : DecodedInst)
  | term (kind : TermKind) (succs : List (BitVec 64))

def isListSep (c : Char) : Bool := c = ' ' || c = ',' || c = '\t' || c = ':' || c = ';'

def allOpcodes : List Opcode :=
  [.LUI, .AUIPC, .JAL, .JALR, .BEQ, .BNE, .BLT, .BGE, .BLTU, .BGEU, .LB, .LH, .LW, .LD, .LBU, .LHU,
    .LWU, .SB, .SH, .SW, .SD, .ADDI, .SLTI, .SLTIU, .XORI, .ORI, .ANDI, .SLLI, .SRLI, .SRAI, .ADD,
    .SUB, .SLL, .SLT, .SLTU, .XOR, .SRL, .SRA, .OR, .AND, .ADDIW, .SLLIW, .SRLIW, .SRAIW, .ADDW,
    .SUBW, .SLLW, .SRLW, .SRAW, .FENCE, .ECALL, .EBREAK, .UNKNOWN]

def readOpcode : List Char → Option Opcode := findNamed allOpcodes opcodeName

def readTerm : List Char → Option TermKind :=
  findNamed [.None, .Fallthrough, .Branch, .Jump, .IndirectJump, .Return, .Trap] TermKind.name

def readRegName : List Char → Option ℕ
  | 'x' :: s => readNat 10 s
  | _ => none

/-- A register, an immediate, or an offset with a base in parentheses. -/
def readOperand (w : List Char) : Option Operand :=
  match readRegName w, w.splitOnP (· = '(') with
  | some r, _ => some (.reg r)
  | none, [v] => (readInt v).map fun z => .imm (BitVec.ofInt 64 z)
  | none, [off, base] => do
    return .mem (← readRegName base.dropLast) (BitVec.ofInt 64 (← readInt off))
  | none, _ => none

def readEntry : List (List Char) → Option Entry
  | t :: a :: rest =>
    if t = text "block" then (readHex 64 a).map .block
    else if t = text "term" then do
      match rest with
      | [] => return .term (← readTerm a) []
      | _ :: succs => return .term (← readTerm a) (← succs.mapM (readHex 64))
    else match rest with
      | [] => none
      | op :: ops => do
        return .inst ⟨← readHex 64 t, ← readHex 32 a, ← readOpcode op, ← ops.mapM readOperand⟩
  | _ => none

def readEntryLine (l : List Char) : Option (List Entry) :=
  if l = [] then some [] else (readEntry (tokens isListSep l)).map fun e => [e]

def Entry.block? : Entry → Option (BitVec 64)
  | .block a => some a
  | _ => none

def Entry.inst? : Entry → Option DecodedInst
  | .inst i => some i
  | _ => none

def Entry.term? : Entry → Option (TermKind × List (BitVec 64))
  | .term k succs => some (k, succs)
  | _ => none

def readListedBlock (part : BitVec 64 × List Entry) : Option BasicBlock :=
  (readBody Entry.inst? Entry.term? part.2).map fun (insts, term, succs) =>
    ⟨part.1, insts, term, succs⟩

def readListing (s : List Char) : Option (List BasicBlock) := do
  (parts Entry.block? (← readText readEntryLine s)).mapM readListedBlock

end Read

section Words
variable {c : Char} {w : List Char}

/-- A word of a listing has no separator and no line break. -/
def Solid (w : List Char) : Prop := w ≠ [] ∧ ∀ c ∈ w, isListSep c = false ∧ c ≠ '\n'

theorem solid_digit {b : ℕ} (h : isDigitOf b c = true) : isListSep c = false ∧ c ≠ '\n' := by
  have hspace := digit_ne h (by decide : digitVal ' ' = none)
  have hcomma := digit_ne h (by decide : digitVal ',' = none)
  have htab := digit_ne h (by decide : digitVal '\t' = none)
  have hcolon := digit_ne h (by decide : digitVal ':' = none)
  have hsemi := digit_ne h (by decide : digitVal ';' = none)
  exact ⟨by simp [isListSep, hspace, hcomma, htab, hcolon, hsemi], digit_ne h (by decide)⟩

theorem solid_hex {n : ℕ} (v : BitVec n) : Solid (hexText v) := by
  refine ⟨by simp [hexText], fun c hc => ?_⟩
  rcases hexText_mem hc with rfl | hc
  · decide
  · exact solid_digit hc

theorem solid_int (z : ℤ) : Solid (intText z) := by
  refine ⟨intText_ne_nil z, fun c hc => ?_⟩
  rcases intText_mem hc with rfl | hc
  · decide
  · exact solid_digit hc

theorem solid_regName (r : ℕ) : Solid (regName r) := by
  refine ⟨by simp [regName], List.forall_mem_cons.mpr ⟨by decide, fun c hc => ?_⟩⟩
  exact solid_digit (isDigitOf_mem (by decide) (by decide) hc)

theorem Solid.append {v : List Char} (hw : Solid w) (hv : Solid v) : Solid (w ++ v) :=
  ⟨by simp [hw.1], List.forall_mem_append.mpr ⟨hw.2, hv.2⟩⟩

theorem Solid.cons (hc : isListSep c = false ∧ c ≠ '\n') (hw : Solid w) : Solid (c :: w) :=
  ⟨by simp, List.forall_mem_cons.mpr ⟨hc, hw.2⟩⟩

theorem solid_operand (op : Operand) : Solid (formatOperand op) := by
  cases op with
  | reg r => exact solid_regName r
  | imm v => exact solid_int _
  | mem base off =>
    rw [formatOperand, List.append_assoc]
    exact (solid_int _).append (.cons (by decide)
      ((solid_regName base).append ⟨by simp, by simp [isListSep]⟩))

theorem solid_opcode (op : Opcode) : Solid (text (opcodeName op)) := by
  cases op <;> simp [Solid, opcodeName, text, isListSep]

theorem solid_term (k : TermKind) : Solid (text k.name) := by
  cases k <;> simp [Solid, TermKind.name, text, isListSep]

theorem Solid.tokens_last (h : Solid w) : tokens isListSep w = [w] :=
  TextScan.tokens_last h.1 fun c hc => (h.2 c hc).1

/-- A word, separators, and the rest of the line. -/
theorem Solid.tokens_next {u s : List Char} (h : Solid w) (hne : u ≠ [])
    (hu : ∀ c ∈ u, isListSep c = true) :
    tokens isListSep (w ++ (u ++ s)) = w :: tokens isListSep s :=
  tokens_words h.1 (fun c hc => (h.2 c hc).1) hne hu

theorem tokens_list {ws : List (List Char)} (h : ∀ w ∈ ws, Solid w) :
    tokens isListSep ([',', ' '].intercalate ws) = ws := by
  rw [tokens_intercalate (by simp) (by simp [isListSep])]
  exact flatMap_tokens (fun w hw => (h w hw).1) fun w hw c hc => ((h w hw).2 c hc).1

end Words

section Operands

theorem intText_ne_x (z : ℤ) : ∀ c ∈ intText z, c ≠ 'x' ∧ c ≠ '(' := by
  intro c hc
  rcases intText_mem hc with rfl | hc
  · decide
  · exact ⟨digit_ne hc (by decide), digit_ne hc (by decide)⟩

@[simp] theorem readRegName_regName (r : ℕ) : readRegName (regName r) = some r :=
  readNat_toDigits (by decide) (by decide) r

theorem readRegName_int (z : ℤ) (s : List Char) : readRegName (intText z ++ s) = none := by
  obtain ⟨c, w, hw⟩ := List.exists_cons_of_ne_nil (intText_ne_nil z)
  have hx := (intText_ne_x z c (by simp [hw])).1
  rw [hw, List.cons_append]
  unfold readRegName
  split
  · rename_i heq
    cases heq
    exact absurd rfl hx
  · rfl

theorem readOperand_format (op : Operand) : readOperand (formatOperand op) = some op := by
  cases op with
  | reg r => simp [readOperand, formatOperand]
  | imm v =>
    have hno := readRegName_int v.toInt []
    have hsplit : (intText v.toInt).splitOnP (· = '(') = [intText v.toInt] :=
      List.splitOnP_eq_singleton fun c hc => by simpa using (intText_ne_x _ c hc).2
    rw [List.append_nil] at hno
    simp [readOperand, formatOperand, hno, hsplit, readInt_intText]
  | mem base off =>
    have hno := readRegName_int off.toInt ('(' :: (regName base ++ [')']))
    have hbase : (regName base ++ [')']).splitOnP (· = '(') = [regName base ++ [')']] := by
      refine List.splitOnP_eq_singleton fun c hc => ?_
      rw [regName, List.cons_append, List.mem_cons, List.mem_append, List.mem_singleton] at hc
      rcases hc with rfl | hc | rfl
      · decide
      · have hparen : digitVal '(' = none := by
          decide
        simpa using digit_ne (isDigitOf_mem (by decide) (by decide) hc) hparen
      · decide
    have hsplit : (intText off.toInt ++ '(' :: (regName base ++ [')'])).splitOnP (· = '(') =
        [intText off.toInt, regName base ++ [')']] := by
      rw [List.splitOnP_append_cons_of_forall_mem
        (fun c hc => by simpa using (intText_ne_x _ c hc).2) _ (by simp), hbase]
    simp [readOperand, formatOperand, hno, hsplit, readInt_intText]

end Operands


section Entries

theorem Solid.oneLine {w : List Char} (h : Solid w) : '\n' ∉ w := fun hc => (h.2 _ hc).2 rfl

theorem reads_start (start : BitVec 64) :
    Reads readEntryLine [startLine start] [.block start] := by
  have hblock : Solid (text "block") := by
    simp [Solid, text, isListSep]
  have hline : startLine start =
      text "block" ++ ([' '] ++ (hexText start ++ ([':'] ++ []))) := by
    simp [startLine, text]
  have htokens : tokens isListSep (startLine start) = [text "block", hexText start] := by
    rw [hline, hblock.tokens_next (by simp) (by simp [isListSep]),
      (solid_hex start).tokens_next (by simp) (by simp [isListSep]), tokens_nil]
  refine Reads.one ?_ ?_
  · simp [startLine, text, (solid_hex start).oneLine]
  · rw [readEntryLine, if_neg (by simp [hline, text]), htokens]
    simp [readEntry, readHex_hexText]

theorem tokens_inst (inst : DecodedInst) : tokens isListSep (instLine inst) =
    hexText inst.pc :: hexText inst.raw :: text (opcodeName inst.opcode) ::
      inst.operands.map formatOperand := by
  have hops := tokens_list (List.forall_mem_map.mpr fun op (_ : op ∈ inst.operands) =>
    solid_operand op)
  have hline : instLine inst = [' ', ' '] ++ (hexText inst.pc ++ ([':', ' '] ++
      (hexText inst.raw ++ (['\t'] ++ formatInst inst)))) := by
    simp [instLine, text]
  rw [hline, tokens_seps (by simp [isListSep]),
    (solid_hex _).tokens_next (by simp) (by simp [isListSep]),
    (solid_hex _).tokens_next (by simp) (by simp [isListSep]), formatInst]
  split_ifs with hnil
  · rw [List.append_nil, (solid_opcode _).tokens_last, hnil]
    rfl
  · have hcons : text (opcodeName inst.opcode) ++
        ' ' :: [',', ' '].intercalate (inst.operands.map formatOperand) =
        text (opcodeName inst.opcode) ++
          ([' '] ++ [',', ' '].intercalate (inst.operands.map formatOperand)) := rfl
    rw [hcons, (solid_opcode _).tokens_next (by simp) (by simp [isListSep]), hops]

theorem list_oneLine {ws : List (List Char)} (h : ∀ w ∈ ws, Solid w) :
    '\n' ∉ [',', ' '].intercalate ws := by
  intro hc
  rcases mem_intercalate hc with hc | ⟨w, hw, hc⟩
  · simp at hc
  · exact (h w hw).oneLine hc

@[simp] theorem readOpcode_name (op : Opcode) : readOpcode (text (opcodeName op)) = some op := by
  cases op <;> rfl

@[simp] theorem readTerm_name (k : TermKind) : readTerm (text k.name) = some k := by
  cases k <;> rfl

theorem reads_inst (inst : DecodedInst) : Reads readEntryLine [instLine inst] [.inst inst] := by
  have hops : ∀ w ∈ inst.operands.map formatOperand, Solid w :=
    List.forall_mem_map.mpr fun op _ => solid_operand op
  refine Reads.one ?_ ?_
  · have hformat : '\n' ∉ formatInst inst := by
      rw [formatInst]
      split_ifs
      · simpa using (solid_opcode _).oneLine
      · simp [(solid_opcode _).oneLine, list_oneLine hops]
    simp [instLine, text, (solid_hex inst.pc).oneLine, (solid_hex inst.raw).oneLine, hformat]
  · have hread := mapM_map readOperand formatOperand readOperand_format inst.operands
    have hblock : hexText inst.pc ≠ text "block" := by
      simp [hexText, text]
    have hterm : hexText inst.pc ≠ text "term" := by
      simp [hexText, text]
    rw [readEntryLine, if_neg (by simp [instLine, text]), tokens_inst, readEntry, if_neg hblock,
      if_neg hterm]
    simp [readHex_hexText, hread]

theorem termLine_nil (k : TermKind) :
    termLine k [] = [' ', ' '] ++ (text "term" ++ ([':', ' '] ++ text k.name)) := by
  have hword : text "  term: " = [' ', ' '] ++ text "term" ++ [':', ' '] := rfl
  simp [termLine, hword]

theorem termLine_cons (k : TermKind) {succs : List (BitVec 64)} (h : succs ≠ []) :
    termLine k succs = termLine k [] ++ ([';', ' '] ++ (text "succs" ++ ([':', ' '] ++
      [',', ' '].intercalate (succs.map hexText)))) := by
  have hword : text "; succs: " = [';', ' '] ++ text "succs" ++ [':', ' '] := rfl
  rw [termLine, if_neg h, hword, termLine, if_pos rfl]
  simp

theorem reads_term (k : TermKind) (succs : List (BitVec 64)) :
    Reads readEntryLine [termLine k succs] [.term k succs] := by
  have hsuccs : ∀ w ∈ succs.map hexText, Solid w :=
    List.forall_mem_map.mpr fun a _ => solid_hex a
  have hterm : Solid (text "term") := by
    simp [Solid, text, isListSep]
  have hword : Solid (text "succs") := by
    simp [Solid, text, isListSep]
  have hread := mapM_map (readHex 64) hexText readHex_hexText succs
  have hline : '\n' ∉ termLine k [] := by
    simp [termLine_nil, hterm.oneLine, (solid_term k).oneLine]
  have hempty : termLine k succs ≠ [] := by
    simp [termLine, text]
  have hblock : text "term" ≠ text "block" := by
    simp
  by_cases hs : succs = []
  · subst hs
    have htokens : tokens isListSep (termLine k []) = [text "term", text k.name] := by
      rw [termLine_nil, tokens_seps (by simp [isListSep]),
        hterm.tokens_next (by simp) (by simp [isListSep]), (solid_term k).tokens_last]
    refine Reads.one hline ?_
    rw [readEntryLine, if_neg hempty, htokens, readEntry, if_neg hblock, if_pos rfl]
    simp
  · have htokens : tokens isListSep (termLine k succs) =
        text "term" :: text k.name :: text "succs" :: succs.map hexText := by
      rw [termLine_cons k hs, termLine_nil]
      simp only [List.append_assoc]
      rw [tokens_seps (by simp [isListSep]), hterm.tokens_next (by simp) (by simp [isListSep]),
        (solid_term k).tokens_next (by simp) (by simp [isListSep]),
        hword.tokens_next (by simp) (by simp [isListSep]), tokens_list hsuccs]
    refine Reads.one ?_ ?_
    · simp [termLine_cons k hs, hline, hword.oneLine, list_oneLine hsuccs]
    · rw [readEntryLine, if_neg hempty, htokens, readEntry, if_neg hblock, if_pos rfl]
      simp [hread]

/-- The lines of a block after the first. -/
def BasicBlock.entries (bb : BasicBlock) : List Entry :=
  bb.insts.map Entry.inst ++ [.term bb.term bb.succs]

theorem reads_block (bb : BasicBlock) :
    Reads readEntryLine (blockListing bb) (.block bb.start :: bb.entries) :=
  ((reads_start bb.start).append (.map fun inst _ => reads_inst inst)).append
    (reads_term bb.term bb.succs)

theorem entries_no_block (bb : BasicBlock) : ∀ e ∈ bb.entries, e.block? = none := by
  intro e he
  rcases List.mem_append.mp he with he | he
  · obtain ⟨inst, -, rfl⟩ := List.mem_map.mp he
    rfl
  · rw [List.mem_singleton.mp he]
    rfl

theorem readListedBlock_entries (bb : BasicBlock) :
    readListedBlock (bb.start, bb.entries) = some bb := by
  have hbody := readBody_map Entry.inst? Entry.term? Entry.inst (fun t => .term t.1 t.2)
    (fun _ => rfl) (fun _ => rfl) bb.insts (bb.term, bb.succs)
  rw [readListedBlock, BasicBlock.entries, hbody]
  rfl

/-- Blocks are read back from their listings, one after another. -/
theorem listing_read_back (bbs : List BasicBlock) :
    readListing (bbs.flatMap formatBlock) = some bbs := by
  have htext : bbs.flatMap formatBlock = unlines (bbs.flatMap blockListing) := by
    rw [unlines, terminate, List.flatMap_assoc]
    rfl
  have hlines : bbs.flatMap (fun bb => .block bb.start :: bb.entries) =
      unparts .block (bbs.map fun bb => (bb.start, bb.entries)) := by
    rw [unparts, List.flatMap_map]
  have hempty : readEntryLine [] = some [] := rfl
  have hread := (Reads.flatMap fun bb (_ : bb ∈ bbs) => reads_block bb).text hempty
  have hhead : ∀ a, Entry.block? (.block a) = some a := fun _ => rfl
  have hbodies : ∀ p ∈ bbs.map (fun bb => (bb.start, bb.entries)), ∀ e ∈ p.2,
      Entry.block? e = none :=
    List.forall_mem_map.mpr fun bb _ => entries_no_block bb
  have hparts := parts_unparts hhead hbodies
  rw [readListing, htext, hread, hlines]
  simp only [bind, Option.bind, hparts]
  exact mapM_map readListedBlock _ readListedBlock_entries bbs

end Entries

end Riscy.RISCV
