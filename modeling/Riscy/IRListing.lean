import Riscy.RISCVReach
import Riscy.TextScan

/-! The listing of IR blocks that `toString` prints, and a reader of it. Nothing of a lifted block
is lost in its listing. -/
namespace Riscy.IR
open TextScan

section Print

def tyStr : TypeKind → String
  | .I1 => "i1"
  | .I8 => "i8"
  | .I16 => "i16"
  | .I32 => "i32"
  | .I64 => "i64"

def binopStr : BinOpKind → String
  | .Add => "add"
  | .Sub => "sub"
  | .And => "and"
  | .Or => "or"
  | .Xor => "xor"
  | .Shl => "shl"
  | .LShr => "lshr"
  | .AShr => "ashr"

def icmpStr : ICmpCond → String
  | .EQ => "eq"
  | .NE => "ne"
  | .ULT => "ult"
  | .ULE => "ule"
  | .UGT => "ugt"
  | .UGE => "uge"
  | .SLT => "slt"
  | .SLE => "sle"
  | .SGT => "sgt"
  | .SGE => "sge"

def printValue (v : ValueId) : List Char := '%' :: Nat.toDigits 10 v

def printReg (r : ℕ) : List Char := 'x' :: Nat.toDigits 10 r

def printAddr (a : BitVec 64) : List Char := '@' :: hexText a

/-- What `toString` prints for the alternatives of a payload. -/
def Payload.print : Payload → List Char
  | .Const ty v => text "const " ++ text (tyStr ty) ++ text " " ++ Nat.toDigits 10 v.toNat
  | .ReadReg r => text "readreg " ++ printReg r
  | .WriteReg r v => text "writereg " ++ printReg r ++ text ", " ++ printValue v
  | .BinOp k l r ty =>
    text (binopStr k) ++ text " " ++ text (tyStr ty) ++ text " " ++ printValue l ++ text ", " ++
      printValue r
  | .ICmp c l r =>
    text "icmp " ++ text (icmpStr c) ++ text " " ++ printValue l ++ text ", " ++ printValue r
  | .ZExt src ty => text "zext " ++ printValue src ++ text " to " ++ text (tyStr ty)
  | .SExt src ty => text "sext " ++ printValue src ++ text " to " ++ text (tyStr ty)
  | .Trunc src ty => text "trunc " ++ printValue src ++ text " to " ++ text (tyStr ty)
  | .Load base off ty =>
    text "load " ++ text (tyStr ty) ++ text ", base=" ++ printValue base ++ text ", off=" ++
      intText off.toInt
  | .Store v base off ty =>
    text "store " ++ text (tyStr ty) ++ text ", " ++ printValue v ++ text ", base=" ++
      printValue base ++ text ", off=" ++ intText off.toInt
  | .GetPC => text "get_pc"

def Instr.print (i : Instr) : List Char :=
  match i.dest with
  | some d => printValue d ++ text " = " ++ i.payload.print
  | none => i.payload.print

/-- `std::get` on the data of a terminator can fault. -/
def Terminator.print (t : Terminator) : Except Fault (List Char) :=
  match t.kind, t.data with
  | .None, _ => .ok (text "  term none")
  | .Trap, _ => .ok (text "  term trap")
  | .Ret, _ => .ok (text "  term ret")
  | .Br, .br target => .ok (text "  term br " ++ printAddr target)
  | .CBr, .cbr cond tt ff =>
    .ok (text "  term cbr " ++ printValue cond ++ text ", " ++ printAddr tt ++ text ", " ++
      printAddr ff)
  | .BrIndirect, .brIndirect target => .ok (text "  term br_indirect " ++ printValue target)
  | _, _ => .error .badVariantAccess

def Block.listing (bb : Block) : Except Fault (List (List Char)) := do
  let term ← bb.term.print
  return (text "block " ++ printAddr bb.start) :: bb.insts.map Instr.print ++ [term]

/-- `toString`. -/
def Block.toString (bb : Block) : Except Fault (List Char) := do return unlines (← bb.listing)

end Print

section Read

inductive Entry
  | block (start : BitVec 64)
  | instr (i : Instr)
  | term (t : Terminator)

def isIRSep (c : Char) : Bool := c = ' ' || c = ',' || c = '='

def readTy : List Char → Option TypeKind := findNamed [.I1, .I8, .I16, .I32, .I64] tyStr

def readBinop : List Char → Option BinOpKind :=
  findNamed [.Add, .Sub, .And, .Or, .Xor, .Shl, .LShr, .AShr] binopStr

def readIcmp : List Char → Option ICmpCond :=
  findNamed [.EQ, .NE, .ULT, .ULE, .UGT, .UGE, .SLT, .SLE, .SGT, .SGE] icmpStr

def readValue : List Char → Option ValueId
  | '%' :: s => readNat 10 s
  | _ => none

def readRegister : List Char → Option ℕ
  | 'x' :: s => readNat 10 s
  | _ => none

def readAddr : List Char → Option (BitVec 64)
  | '@' :: s => readHex 64 s
  | _ => none

def readOffset (w : List Char) : Option (BitVec 64) := (readInt w).map (BitVec.ofInt 64)

def readPayload : List (List Char) → Option Payload
  | [op] => if op = text "get_pc" then some .GetPC else none
  | [op, a] => if op = text "readreg" then (readRegister a).map .ReadReg else none
  | [op, a, b] =>
    if op = text "const" then do return .Const (← readTy a) (BitVec.ofNat 64 (← readNat 10 b))
    else if op = text "writereg" then do return .WriteReg (← readRegister a) (← readValue b)
    else none
  | [op, a, b, c] =>
    if op = text "icmp" then do return .ICmp (← readIcmp a) (← readValue b) (← readValue c)
    else if op = text "zext" then do return .ZExt (← readValue a) (← readTy c)
    else if op = text "sext" then do return .SExt (← readValue a) (← readTy c)
    else if op = text "trunc" then do return .Trunc (← readValue a) (← readTy c)
    else do return .BinOp (← readBinop op) (← readValue b) (← readValue c) (← readTy a)
  | [op, ty, _, base, _, off] =>
    if op = text "load" then do
      return .Load (← readValue base) (← readOffset off) (← readTy ty)
    else none
  | [op, ty, v, _, base, _, off] =>
    if op = text "store" then do
      return .Store (← readValue v) (← readValue base) (← readOffset off) (← readTy ty)
    else none
  | _ => none

def readTerminator : List (List Char) → Option Terminator
  | [k] =>
    if k = text "none" then some ⟨.None, .monostate⟩
    else if k = text "trap" then some ⟨.Trap, .monostate⟩
    else if k = text "ret" then some ⟨.Ret, .monostate⟩
    else none
  | [k, a] =>
    if k = text "br" then (readAddr a).map fun target => ⟨.Br, .br target⟩
    else if k = text "br_indirect" then (readValue a).map fun v => ⟨.BrIndirect, .brIndirect v⟩
    else none
  | [k, a, b, c] =>
    if k = text "cbr" then do
      return ⟨.CBr, .cbr (← readValue a) (← readAddr b) (← readAddr c)⟩
    else none
  | _ => none

def readStart : List (List Char) → Option (BitVec 64)
  | [a] => readAddr a
  | _ => none

def readEntry : List (List Char) → Option Entry
  | [] => none
  | w :: ws =>
    if w = text "block" then (readStart ws).map .block
    else if w = text "term" then (readTerminator ws).map .term
    else match readValue w with
      | some d => (readPayload ws).map fun p => .instr ⟨some d, p⟩
      | none => (readPayload (w :: ws)).map fun p => .instr ⟨none, p⟩

def readEntryLine (l : List Char) : Option (List Entry) :=
  if l = [] then some [] else (readEntry (tokens isIRSep l)).map fun e => [e]

def Entry.block? : Entry → Option (BitVec 64)
  | .block a => some a
  | _ => none

def Entry.instr? : Entry → Option Instr
  | .instr i => some i
  | _ => none

def Entry.term? : Entry → Option Terminator
  | .term t => some t
  | _ => none

def readListedBlock (part : BitVec 64 × List Entry) : Option Block :=
  (readBody Entry.instr? Entry.term? part.2).map fun (insts, term) => ⟨part.1, insts, term⟩

def readBlocks (s : List Char) : Option (List Block) := do
  (parts Entry.block? (← readText readEntryLine s)).mapM readListedBlock

end Read

section Words
variable {a c : Char} {w s : List Char}

def IsSolid (c : Char) : Prop := isIRSep c = false ∧ c ≠ '\n'

/-- A word of a listing has no separator and no line break. -/
structure Solid (w : List Char) : Prop where
  ne : w ≠ []
  solid : ∀ c ∈ w, IsSolid c

theorem isSolid_digit {b : ℕ} (h : isDigitOf b c = true) : IsSolid c := by
  have hspace := digit_ne h (by decide : digitVal ' ' = none)
  have hcomma := digit_ne h (by decide : digitVal ',' = none)
  have hequal := digit_ne h (by decide : digitVal '=' = none)
  exact ⟨by simp [isIRSep, hspace, hcomma, hequal], digit_ne h (by decide)⟩

theorem solid_digits {b n : ℕ} (hb : 1 < b) (hb' : b ≤ 16) : Solid (Nat.toDigits b n) :=
  ⟨Nat.toDigits_ne_nil, fun _ hc => isSolid_digit (isDigitOf_mem hb hb' hc)⟩

theorem Solid.cons (hc : IsSolid c) (h : Solid w) : Solid (c :: w) :=
  ⟨by simp, List.forall_mem_cons.mpr ⟨hc, h.solid⟩⟩

theorem solid_nat (n : ℕ) : Solid (Nat.toDigits 10 n) := solid_digits (by decide) (by decide)

theorem solid_value (v : ValueId) : Solid (printValue v) :=
  .cons (by simp [IsSolid, isIRSep]) (solid_nat v)

theorem solid_reg (r : ℕ) : Solid (printReg r) := .cons (by simp [IsSolid, isIRSep]) (solid_nat r)

theorem solid_addr (a : BitVec 64) : Solid (printAddr a) :=
  .cons (by simp [IsSolid, isIRSep]) (.cons (by simp [IsSolid, isIRSep])
    (.cons (by simp [IsSolid, isIRSep]) (solid_digits (by decide) (by decide))))

theorem solid_int (z : ℤ) : Solid (intText z) := by
  refine ⟨intText_ne_nil z, fun c hc => ?_⟩
  rcases intText_mem hc with rfl | hc
  · simp [IsSolid, isIRSep]
  · exact isSolid_digit hc

theorem solid_ty (ty : TypeKind) : Solid (tyStr ty).toList := by
  cases ty <;> constructor <;> simp [tyStr, IsSolid, isIRSep]

theorem solid_binop (k : BinOpKind) : Solid (binopStr k).toList := by
  cases k <;> constructor <;> simp [binopStr, IsSolid, isIRSep]

theorem solid_icmp (c : ICmpCond) : Solid (icmpStr c).toList := by
  cases c <;> constructor <;> simp [icmpStr, IsSolid, isIRSep]

theorem Solid.next (h : Solid w) (ha : isIRSep a = true) :
    scanTokens isIRSep [] (w ++ a :: s) = w :: scanTokens isIRSep [] s :=
  scanTokens_word h.ne (fun c hc => (h.solid c hc).1) ha

theorem Solid.last (h : Solid w) : scanTokens isIRSep [] w = [w] :=
  scanTokens_last h.ne fun c hc => (h.solid c hc).1

theorem Solid.oneLine (h : Solid w) : '\n' ∉ w := fun hc => (h.solid _ hc).2 rfl

end Words

section Entries

/-- The words of a payload. -/
def Payload.words : Payload → List (List Char)
  | .Const ty v => [text "const", text (tyStr ty), Nat.toDigits 10 v.toNat]
  | .ReadReg r => [text "readreg", printReg r]
  | .WriteReg r v => [text "writereg", printReg r, printValue v]
  | .BinOp k l r ty => [text (binopStr k), text (tyStr ty), printValue l, printValue r]
  | .ICmp c l r => [text "icmp", text (icmpStr c), printValue l, printValue r]
  | .ZExt src ty => [text "zext", printValue src, text "to", text (tyStr ty)]
  | .SExt src ty => [text "sext", printValue src, text "to", text (tyStr ty)]
  | .Trunc src ty => [text "trunc", printValue src, text "to", text (tyStr ty)]
  | .Load base off ty =>
    [text "load", text (tyStr ty), text "base", printValue base, text "off", intText off.toInt]
  | .Store v base off ty =>
    [text "store", text (tyStr ty), printValue v, text "base", printValue base, text "off",
      intText off.toInt]
  | .GetPC => [text "get_pc"]

theorem scan_payload (p : Payload) : scanTokens isIRSep [] p.print = p.words := by
  cases p <;>
    simp [Payload.print, Payload.words, text, scanTokens, isIRSep, (solid_ty _).next,
      (solid_ty _).last, (solid_value _).next, (solid_value _).last, (solid_reg _).next,
      (solid_reg _).last, (solid_int _).last, (solid_nat _).last, (solid_binop _).next,
      (solid_icmp _).next]

theorem payload_oneLine (p : Payload) : '\n' ∉ p.print := by
  cases p <;>
    simp [Payload.print, text, (solid_ty _).oneLine, (solid_value _).oneLine, (solid_reg _).oneLine,
      (solid_int _).oneLine, (solid_nat _).oneLine, (solid_binop _).oneLine, (solid_icmp _).oneLine]

section Words
variable (v : ValueId) (r : ℕ) (a : BitVec 64)

@[simp] theorem readValue_print : readValue (printValue v) = some v :=
  readNat_toDigits (by decide) (by decide) v

@[simp] theorem readRegister_print : readRegister (printReg r) = some r :=
  readNat_toDigits (by decide) (by decide) r

@[simp] theorem readAddr_print : readAddr (printAddr a) = some a := readHex_hexText a

@[simp] theorem readOffset_print : readOffset (intText a.toInt) = some a := by
  rw [readOffset, readInt_intText, Option.map_some, BitVec.ofInt_toInt]

@[simp] theorem readTy_str (ty : TypeKind) : readTy (text (tyStr ty)) = some ty := by
  cases ty <;> rfl

@[simp] theorem readBinop_str (k : BinOpKind) : readBinop (text (binopStr k)) = some k := by
  cases k <;> rfl

@[simp] theorem readIcmp_str (c : ICmpCond) : readIcmp (text (icmpStr c)) = some c := by
  cases c <;> rfl

end Words

theorem readPayload_words (p : Payload) : readPayload p.words = some p := by
  cases p with
  | Const ty v =>
    have hv : readNat 10 (Nat.toDigits 10 v.toNat) = some v.toNat :=
      readNat_toDigits (by decide) (by decide) _
    simp [Payload.words, readPayload, hv]
  | BinOp k l r ty =>
    have hop : binopStr k ≠ "icmp" ∧ binopStr k ≠ "zext" ∧ binopStr k ≠ "sext" ∧
        binopStr k ≠ "trunc" := by
      cases k <;> simp [binopStr]
    simp [Payload.words, readPayload, hop]
  | _ => simp [Payload.words, readPayload]

theorem words_head (p : Payload) : ∃ w ws, p.words = w :: ws ∧ readValue w = none ∧
    w ≠ text "block" ∧ w ≠ text "term" := by
  cases p with
  | BinOp k l r ty =>
    refine ⟨_, _, rfl, ?_, ?_, ?_⟩
    all_goals cases k <;> simp [binopStr, text, readValue]
  | _ => exact ⟨_, _, rfl, by simp [text, readValue], by simp, by simp⟩

theorem print_ne_nil (i : Instr) : i.print ≠ [] := by
  obtain ⟨dest, p⟩ := i
  cases dest with
  | some d => simp [Instr.print, printValue]
  | none =>
    intro h
    have hscan := scan_payload p
    obtain ⟨w, ws, hw, -⟩ := words_head p
    rw [show p.print = [] from h, hw] at hscan
    cases hscan

theorem reads_instr (i : Instr) : Reads readEntryLine [i.print] [.instr i] := by
  obtain ⟨dest, p⟩ := i
  obtain ⟨w, ws, hw, hvalue, hblock, hterm⟩ := words_head p
  have hread := readPayload_words p
  have hscan := scan_payload p
  refine Reads.one ?_ ?_
  · cases dest <;> simp [Instr.print, text, (solid_value _).oneLine, payload_oneLine]
  · rw [readEntryLine, if_neg (print_ne_nil _), tokens_eq_scan]
    cases dest with
    | none =>
      rw [Instr.print, hscan, hw, readEntry, if_neg hblock, if_neg hterm, hvalue, ← hw, hread]
      rfl
    | some d =>
      have htokens : scanTokens isIRSep [] (Instr.print ⟨some d, p⟩) = printValue d :: p.words := by
        simp [Instr.print, text, (solid_value d).next, scanTokens, isIRSep, hscan]
      have hd : printValue d ≠ text "block" ∧ printValue d ≠ text "term" := by
        simp [printValue, text]
      rw [htokens, readEntry, if_neg hd.1, if_neg hd.2, readValue_print, hread]
      rfl

/-- The data of a terminator is that of its kind. -/
def Terminator.Exact (t : Terminator) : Prop :=
  match t.kind, t.data with
  | .None, .monostate | .Trap, .monostate | .Ret, .monostate => True
  | .Br, .br _ | .CBr, .cbr .. | .BrIndirect, .brIndirect _ => True
  | _, _ => False

theorem reads_term {s : List Char} {ws : List (List Char)} {t : Terminator} (hline : '\n' ∉ s)
    (hs : scanTokens isIRSep [] s = text "term" :: ws) (ht : readTerminator ws = some t) :
    Reads readEntryLine [s] [.term t] := by
  have hne : s ≠ [] := by
    rintro rfl
    cases hs
  have hblock : text "term" ≠ text "block" := by
    simp
  refine Reads.one hline ?_
  rw [readEntryLine, if_neg hne, tokens_eq_scan, hs, readEntry, if_neg hblock, if_pos rfl, ht]
  rfl

theorem Terminator.Exact.reads {t : Terminator} (h : t.Exact) :
    ∃ s, t.print = .ok s ∧ Reads readEntryLine [s] [.term t] := by
  obtain ⟨kind, data⟩ := t
  match kind, data, h with
  | .None, .monostate, _ =>
    have hs : scanTokens isIRSep [] (text "  term none") = [text "term", text "none"] := rfl
    exact ⟨_, rfl, reads_term (by simp [text]) hs rfl⟩
  | .Trap, .monostate, _ =>
    have hs : scanTokens isIRSep [] (text "  term trap") = [text "term", text "trap"] := rfl
    exact ⟨_, rfl, reads_term (by simp [text]) hs rfl⟩
  | .Ret, .monostate, _ =>
    have hs : scanTokens isIRSep [] (text "  term ret") = [text "term", text "ret"] := rfl
    exact ⟨_, rfl, reads_term (by simp [text]) hs rfl⟩
  | .Br, .br a, _ =>
    have hs : scanTokens isIRSep [] (text "  term br " ++ printAddr a) =
        [text "term", text "br", printAddr a] := by
      simp [text, scanTokens, isIRSep, (solid_addr a).last]
    exact ⟨_, rfl,
      reads_term (by simp [text, (solid_addr a).oneLine]) hs (by simp [readTerminator])⟩
  | .CBr, .cbr c a b, _ =>
    have hs : scanTokens isIRSep [] (text "  term cbr " ++ printValue c ++ text ", " ++
        printAddr a ++ text ", " ++ printAddr b) =
        [text "term", text "cbr", printValue c, printAddr a, printAddr b] := by
      simp [text, scanTokens, isIRSep, (solid_value c).next, (solid_addr a).next,
        (solid_addr b).last]
    exact ⟨_, rfl, reads_term (by simp [text, (solid_value c).oneLine, (solid_addr _).oneLine]) hs
      (by simp [readTerminator])⟩
  | .BrIndirect, .brIndirect v, _ =>
    have hs : scanTokens isIRSep [] (text "  term br_indirect " ++ printValue v) =
        [text "term", text "br_indirect", printValue v] := by
      simp [text, scanTokens, isIRSep, (solid_value v).last]
    exact ⟨_, rfl, reads_term (by simp [text, (solid_value v).oneLine]) hs
      (by simp [readTerminator])⟩

theorem reads_start (a : BitVec 64) :
    Reads readEntryLine [text "block " ++ printAddr a] [.block a] := by
  refine Reads.one (by simp [text, (solid_addr a).oneLine]) ?_
  have htokens : scanTokens isIRSep [] (text "block " ++ printAddr a) =
      [text "block", printAddr a] := by
    simp [text, scanTokens, isIRSep, (solid_addr a).last]
  rw [readEntryLine, if_neg (by simp [text]), tokens_eq_scan, htokens]
  simp [readEntry, readStart]

/-- The lines of a block after the first. -/
def Block.entries (bb : Block) : List Entry := bb.insts.map Entry.instr ++ [.term bb.term]

theorem entries_no_block (bb : Block) : ∀ e ∈ bb.entries, e.block? = none := by
  intro e he
  rcases List.mem_append.mp he with he | he
  · obtain ⟨i, -, rfl⟩ := List.mem_map.mp he
    rfl
  · rw [List.mem_singleton.mp he]
    rfl

theorem readListedBlock_entries (bb : Block) :
    readListedBlock (bb.start, bb.entries) = some bb := by
  have hbody := readBody_map Entry.instr? Entry.term? Entry.instr Entry.term
    (fun _ => rfl) (fun _ => rfl) bb.insts bb.term
  rw [readListedBlock, Block.entries, hbody]
  rfl

theorem Block.text_reads {bb : Block} (h : bb.term.Exact) : ∃ ls, bb.toString = .ok (unlines ls) ∧
    Reads readEntryLine ls (.block bb.start :: bb.entries) := by
  obtain ⟨s, hs, hread⟩ := h.reads
  refine ⟨_, by rw [Block.toString, Block.listing, hs]; rfl, ?_⟩
  exact ((reads_start bb.start).append (.map fun i _ => reads_instr i)).append hread

theorem texts_read {bbs : List Block} (h : ∀ bb ∈ bbs, bb.term.Exact) :
    ∃ lss : List (List (List Char)), bbs.mapM Block.toString = .ok (lss.map unlines) ∧
      Reads readEntryLine lss.flatten
        (unparts .block (bbs.map fun bb => (bb.start, bb.entries))) := by
  induction bbs with
  | nil => exact ⟨[], rfl, Reads.nil⟩
  | cons bb bbs ih =>
    obtain ⟨ls, hls, hread⟩ := Block.text_reads (h bb (by simp))
    obtain ⟨lss, hlss, hreads⟩ := ih fun b hb => h b (List.mem_cons_of_mem _ hb)
    refine ⟨ls :: lss, by rw [List.mapM_cons, hls, hlss]; rfl, ?_⟩
    exact hread.append hreads

/-- Blocks are read back from what `toString` prints of them. -/
theorem toString_reads {bbs : List Block} (h : ∀ bb ∈ bbs, bb.term.Exact) :
    ∃ texts, bbs.mapM Block.toString = .ok texts ∧ readBlocks texts.flatten = some bbs := by
  obtain ⟨lss, hlss, hreads⟩ := texts_read h
  have hhead : ∀ a, Entry.block? (.block a) = some a := fun _ => rfl
  have hbodies : ∀ p ∈ bbs.map (fun bb => (bb.start, bb.entries)), ∀ e ∈ p.2,
      Entry.block? e = none :=
    List.forall_mem_map.mpr fun bb _ => entries_no_block bb
  have hempty : readEntryLine [] = some [] := rfl
  refine ⟨_, hlss, ?_⟩
  rw [readBlocks, ← unlines_flatten, hreads.text hempty]
  simp only [bind, Option.bind, parts_unparts hhead hbodies]
  exact mapM_map readListedBlock _ readListedBlock_entries bbs

end Entries

section Lifted
open RISCV
variable {mem : MemoryReader} {entry : BitVec 64} {cfg : CFG}

theorem liftTerm_exact (bb : BasicBlock) (is : List Instr) : (liftTerm bb is).Exact := by
  unfold liftTerm
  cases bb.term <;> trivial

theorem lifted_reads {bbs : List BasicBlock} (h : ∀ bb ∈ bbs, WellBuilt mem bb) :
    ∃ irs texts, bbs.mapM lift = .ok irs ∧ irs.mapM Block.toString = .ok texts ∧
      readBlocks texts.flatten = some irs := by
  have hlift : ∃ irs, bbs.mapM lift = .ok irs ∧ ∀ ir ∈ irs, ir.term.Exact := by
    induction bbs with
    | nil => exact ⟨[], rfl, by simp⟩
    | cons bb bbs ih =>
      obtain ⟨irs, hirs, hexact⟩ := ih fun b hb => h b (List.mem_cons_of_mem _ hb)
      refine ⟨_, by rw [List.mapM_cons, (h bb (by simp)).lift_eq, hirs]; rfl, ?_⟩
      exact List.forall_mem_cons.mpr ⟨liftTerm_exact bb _, hexact⟩
  obtain ⟨irs, hirs, hexact⟩ := hlift
  obtain ⟨texts, htexts, hread⟩ := toString_reads hexact
  exact ⟨irs, texts, hirs, htexts, hread⟩

/-- The blocks of a CFG are lifted, printed and read back. -/
theorem lifted_read_back (h : Builds mem entry cfg) :
    ∃ irs texts, cfg.blocks.mapM lift = .ok irs ∧ irs.mapM Block.toString = .ok texts ∧
      readBlocks texts.flatten = some irs :=
  lifted_reads h.sound.built

theorem back_lifted_read :
    ∃ irs texts, backCFG.blocks.mapM lift = .ok irs ∧ irs.mapM Block.toString = .ok texts ∧
      readBlocks texts.flatten = some irs :=
  lifted_read_back back_builds

end Lifted

end Riscy.IR
