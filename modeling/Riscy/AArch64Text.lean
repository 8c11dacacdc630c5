import Riscy.AArch64Runtime
import Riscy.TextScan

/-! The text of a module, as `Emitter::emit` prints it, and a reader of such text. -/
namespace Riscy.AArch64
open TextScan RISCV

section Print

def rx (p : PReg) : List Char := 'x' :: Nat.toDigits 10 p

def rw (p : PReg) : List Char := 'w' :: Nat.toDigits 10 p

def immText (v : BitVec 64) : List Char := '#' :: Nat.toDigits 10 v.toNat

def memText (base : PReg) (off : BitVec 32) : List Char :=
  '[' :: rx base ++ text ", #" ++ intText off.toInt ++ [']']

/-- A mnemonic and operands with commas between them. -/
def insn (mn : String) (ops : List (List Char)) : List Char :=
  text "  " ++ text mn ++ ' ' :: [',', ' '].intercalate ops

def Alu.mnemonic : Alu → String
  | .add => "add"
  | .sub => "sub"
  | .and => "and"
  | .orr => "orr"
  | .eor => "eor"
  | .lsl => "lsl"
  | .lsr => "lsr"
  | .asr => "asr"

def Cond.mnemonic : Cond → String
  | .eq => "eq"
  | .ne => "ne"
  | .lo => "lo"
  | .ls => "ls"
  | .hi => "hi"
  | .hs => "hs"
  | .lt => "lt"
  | .le => "le"
  | .gt => "gt"
  | .ge => "ge"

def Size.ldr : Size → String
  | .x | .w => "ldr"
  | .b => "ldrb"
  | .h => "ldrh"
  | .sw => "ldrsw"

/-- There is no sign-extending store. -/
def Size.str : Size → String
  | .x | .w => "str"
  | .b => "strb"
  | .h | .sw => "strh"

/-- The name of the register of an access: words and smaller ones are `w` registers. -/
def Size.reg (size : Size) (p : PReg) : List Char :=
  match size with
  | .x | .sw => rx p
  | .w | .b | .h => rw p

def Line.print : Line PReg → List Char
  | .mov d s => insn "mov" [rx d, rx s]
  | .movImm d v => insn "mov" [rx d, immText v]
  | .movz d v => insn "movz" [rx d, immText v]
  | .movk d v lsl => insn "movk" [rx d, immText v, text "lsl " ++ immText lsl]
  | .alu op d a b => insn op.mnemonic [rx d, rx a, rx b]
  | .ldr size d base off => insn size.ldr [size.reg d, memText base off]
  | .str size v base off => insn size.str [size.reg v, memText base off]
  | .cmp a b => insn "cmp" [rx a, rx b]
  | .cmpZero a => insn "cmp" [rx a, text "#0"]
  | .cset d c => insn "cset" [rx d, text c.mnemonic]
  | .sxtw d s => insn "sxtw" [rx d, rw s]
  | .uxtw d s => insn "uxtw" [rx d, rw s]

def Jump.print : Jump → List Char
  | .b t => insn "b" [t.toList]
  | .bne t => insn "b.ne" [t.toList]
  | .bl => insn "bl" [text "_riscy_indirect_jump"]
  | .ret => text "  ret"
  | .brk => insn "brk" [text "#0"]

def quad (w : List Char) : List Char := insn ".quad" [w]

def labelLine (l : List Char) : List Char := l ++ [':']

def AsmBlock.print (b : AsmBlock PReg) : List (List Char) :=
  labelLine b.label.toList :: b.lines.map Line.print ++ b.jumps.map Jump.print ++ [[]]

/-- A label that other files see. -/
def globalLabel (name : String) : List (List Char) :=
  [text ".global " ++ text name, labelLine (text name)]

/-- The lines before the blocks: the entry stub and the tables. -/
def ModuleAsm.header (m : ModuleAsm) : List (List Char) :=
  [text ".text", text ".global _riscy_entry",
    text "// x0 = struct RiscyGuestState*; x1 = start guest PC", labelLine (text "_riscy_entry"),
    text "  mov x19, x30", text "  bl _riscy_indirect_jump", text "  ret x19", [], text ".data",
    text ".align 3"] ++
  (globalLabel "_riscy_entry_pc" ++ [quad (hexText m.entryPc)]) ++
  (globalLabel "_riscy_num_blocks" ++ [quad (Nat.toDigits 10 m.blocks.length)]) ++
  (globalLabel "_riscy_block_addrs" ++ m.addrs.map fun a => quad (hexText a)) ++
  (globalLabel "_riscy_block_ptrs" ++ m.ptrs.map fun l => quad l.toList) ++ [[], text ".text"]

/-- `ModuleAsm::text`. -/
def ModuleAsm.print (m : ModuleAsm) : List Char :=
  unlines (m.header ++ m.blocks.flatMap AsmBlock.print)

end Print

section Read

/-- What a line stands for; directives leave nothing. -/
inductive Stmt
  | label (name : List Char)
  | line (l : Line PReg)
  | jump (j : Jump)
  | retReg (p : PReg)
  | num (v : BitVec 64)
  | sym (name : List Char)
  | directive
  deriving DecidableEq

def isSpacing (c : Char) : Bool := c = ' ' || c = ',' || c = '[' || c = ']'

def readReg (k : Char) : List Char → Option PReg
  | [] => none
  | c :: s => if c = k then readNat 10 s else none

def readImm : List Char → Option (BitVec 64)
  | '#' :: s => (readNat 10 s).map (BitVec.ofNat 64)
  | _ => none

def readOff : List Char → Option (BitVec 32)
  | '#' :: s => (readInt s).map (BitVec.ofInt 32)
  | _ => none

def readQuad (w : List Char) : Option Stmt :=
  match readHex 64 w, readNat 10 w with
  | some v, _ => some (.num v)
  | none, some n => some (.num (BitVec.ofNat 64 n))
  | none, none => some (.sym w)

def readAlu : List Char → Option Alu :=
  findNamed [.add, .sub, .and, .orr, .eor, .lsl, .lsr, .asr] Alu.mnemonic

def readCond : List Char → Option Cond :=
  findNamed [.eq, .ne, .lo, .ls, .hi, .hs, .lt, .le, .gt, .ge] Cond.mnemonic

/-- The register of an access, with the size that it and the mnemonic stand for. -/
def readAccess (name : Size → String) (all : List Size) (mn w : List Char) :
    Option (Size × PReg) :=
  all.findSome? fun size =>
    if text (name size) = mn then
      (readReg (if size = .x ∨ size = .sw then 'x' else 'w') w).map fun p => (size, p)
    else none

/-- A statement from the words of a line. -/
def readStmt : List (List Char) → Option Stmt
  | [w] =>
    if w = text "ret" then some (.jump .ret)
    else if w.head? = some '.' then some .directive
    else if w.getLast? = some ':' then some (.label w.dropLast)
    else none
  | [op, a] =>
    if op = text "b" then some (.jump (.b (String.ofList a)))
    else if op = text "b.ne" then some (.jump (.bne (String.ofList a)))
    else if op = text "bl" then
      if a = text "_riscy_indirect_jump" then some (.jump .bl) else none
    else if op = text "brk" then if a = text "#0" then some (.jump .brk) else none
    else if op = text "ret" then (readReg 'x' a).map .retReg
    else if op = text ".quad" then readQuad a
    else if op = text ".align" ∨ op = text ".global" then some .directive
    else none
  | [op, a, b] =>
    if op = text "mov" then do
      let d ← readReg 'x' a
      match readReg 'x' b with
      | some s => return .line (.mov d s)
      | none => return .line (.movImm d (← readImm b))
    else if op = text "movz" then do return .line (.movz (← readReg 'x' a) (← readImm b))
    else if op = text "cmp" then do
      let r ← readReg 'x' a
      match readReg 'x' b with
      | some s => return .line (.cmp r s)
      | none => if b = text "#0" then some (.line (.cmpZero r)) else none
    else if op = text "cset" then do return .line (.cset (← readReg 'x' a) (← readCond b))
    else if op = text "sxtw" then do return .line (.sxtw (← readReg 'x' a) (← readReg 'w' b))
    else if op = text "uxtw" then do return .line (.uxtw (← readReg 'x' a) (← readReg 'w' b))
    else none
  | [op, a, b, c] =>
    match readAlu op with
    | some alu => do return .line (.alu alu (← readReg 'x' a) (← readReg 'x' b) (← readReg 'x' c))
    | none =>
      match readAccess Size.ldr [.x, .w, .b, .h, .sw] op a with
      | some (size, d) => do return .line (.ldr size d (← readReg 'x' b) (← readOff c))
      | none => do
        let (size, v) ← readAccess Size.str [.x, .w, .b, .h] op a
        return .line (.str size v (← readReg 'x' b) (← readOff c))
  | [op, a, b, c, d] =>
    if op = text "movk" ∧ c = text "lsl" then do
      return .line (.movk (← readReg 'x' a) (← readImm b) (← readImm d))
    else none
  | _ => none

def isComment (l : List Char) : Bool := (text "//").isPrefixOf l

/-- The statement of a line, without directives. -/
def readLine (l : List Char) : Option (List Stmt) :=
  if l = [] ∨ isComment l then some []
  else (readStmt (tokens isSpacing l)).map fun s => if s = .directive then [] else [s]

def Stmt.label? : Stmt → Option (List Char)
  | .label name => some name
  | _ => none

def Stmt.line? : Stmt → Option (Line PReg)
  | .line l => some l
  | _ => none

def Stmt.jump? : Stmt → Option Jump
  | .jump j => some j
  | _ => none

def Stmt.num? : Stmt → Option (BitVec 64)
  | .num v => some v
  | _ => none

def Stmt.sym? : Stmt → Option String
  | .sym s => some (String.ofList s)
  | _ => none

/-- A block: lines, and then jumps. -/
def readBlock (part : List Char × List Stmt) : Option (AsmBlock PReg) := do
  let lines := (part.2.takeWhile fun s => s.line?.isSome).filterMap Stmt.line?
  let jumps ← (part.2.dropWhile fun s => s.line?.isSome).mapM Stmt.jump?
  return ⟨String.ofList part.1, lines, jumps⟩

/-- A program as an assembler reads it. -/
structure Program where
  stub : List Stmt
  numBlocks : BitVec 64
  asm : ModuleAsm

def readProgram (s : List Char) : Option Program := do
  match parts Stmt.label? (← readText readLine s) with
  | (e, stub) :: (p, [.num pc]) :: (n, [.num num]) :: (a, addrs) :: (b, ptrs) :: blocks =>
    if [e, p, n, a, b] = fixedLabels.map String.toList then
      return ⟨stub, num, pc, ← addrs.mapM Stmt.num?, ← ptrs.mapM Stmt.sym?,
        ← blocks.mapM readBlock⟩
    else none
  | _ => none

/-- `_riscy_entry`. -/
def entryStub : List Stmt := [.line (.mov 19 30), .jump .bl, .retReg 19]

end Read

end Riscy.AArch64
