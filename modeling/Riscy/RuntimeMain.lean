import Riscy.AArch64Dispatch
import Riscy.TextScan

/-! `main` of the runtime: the state that it sets up from its arguments, and what it prints. C
strings are lists of characters that end where the list ends. -/
namespace Riscy.RuntimeMain
open AArch64 TextScan

section Numbers

/-- `isspace` in the C locale. -/
def isSpace (c : Char) : Bool := c = ' ' || ('\t' ≤ c && c ≤ '\r')

def scanSign : List Char → Bool × List Char
  | '-' :: s => (true, s)
  | '+' :: s => (false, s)
  | s => (false, s)

/-- `0x` before a digit in base 16. -/
def skipPrefix (base : ℕ) : List Char → List Char
  | '0' :: x :: c :: s =>
    if base = 16 ∧ (x = 'x' ∨ x = 'X') ∧ isDigitOf 16 c then c :: s else '0' :: x :: c :: s
  | s => s

/-- The sign, the digits as a number and the text behind them, as `strtol` and `strtoull` read
them. Where no digit stands they read nothing. -/
def scanNumber (base : ℕ) (s : List Char) : Bool × ℕ × List Char :=
  let (neg, t) := scanSign (s.dropWhile isSpace)
  let t := skipPrefix base t
  if t.head?.any (isDigitOf base) then (neg, scanDigits base 0 t) else (false, 0, s)

def strtoull (base : ℕ) (s : List Char) : BitVec 64 × List Char :=
  let (neg, n, rest) := scanNumber base s
  -- A minus negates in the unsigned type; a number that does not fit is `ULLONG_MAX`.
  (if 2 ^ 64 ≤ n then BitVec.allOnes 64
    else if neg then -BitVec.ofNat 64 n else BitVec.ofNat 64 n, rest)

def strtol (s : List Char) : ℤ × List Char :=
  let (neg, n, rest) := scanNumber 10 s
  (if neg then max (-(n : ℤ)) (-2 ^ 63) else min (n : ℤ) (2 ^ 63 - 1), rest)

def parseBase : List Char → ℕ
  | '0' :: x :: _ => if x = 'x' ∨ x = 'X' then 16 else 10
  | _ => 10

def parseU64 (s : List Char) : Option (BitVec 64) :=
  let (v, rest) := strtoull (parseBase s) s
  if rest = [] then some v else none

end Numbers

/-- `RiscyGuestState`. -/
structure GuestState where
  x : ℕ → BitVec 64
  mem : BitVec 64
  memSize : BitVec 64

def GuestState.setX (st : GuestState) (r : ℕ) (v : BitVec 64) : GuestState :=
  { st with x := Function.update st.x r v }

/-- The variables of `main` between two arguments; `dumpRegs` are the first `dump_count` entries
of `dump_regs`. -/
structure MainState where
  st : GuestState
  verbose : Bool
  dumpRegs : List ℕ
  nextArgToA : ℕ

section Args

def isSep (c : Char) : Bool := c = ',' || c = ' '

/-- `xN` or `aN`. -/
def dumpReg : List Char → Option ℕ
  | [] => none
  | c :: num =>
    let (v, rest) := strtol num
    if c = 'x' ∨ c = 'X' then
      if rest = [] ∧ 0 ≤ v ∧ v < 32 then some v.toNat else none
    else if c = 'a' ∨ c = 'A' then
      if rest = [] ∧ 0 ≤ v ∧ v ≤ 7 then some (10 + v.toNat) else none
    else none

def pushDump (regs : List ℕ) (rx : ℕ) : List ℕ := if regs.length < 32 then regs ++ [rx] else regs

theorem dropWhile_token_lt {a : Char} {t : List Char} (ha : isSep a = false) :
    ((a :: t).dropWhile fun c => !isSep c).length < (a :: t).length := by
  rw [List.dropWhile_cons_of_pos (by simp [ha])]
  exact Nat.lt_succ_of_le (List.dropWhile_suffix _).length_le

/-- The loop over the tokens of a `--dump` list. An error is what `main` prints before it
returns 2. -/
def dumpLoop (regs : List ℕ) (p : List Char) : Except (List Char) (List ℕ) :=
  match _hp : p.dropWhile isSep with
  | [] => .ok regs
  | a :: t =>
    let regname := (a :: t).takeWhile fun c => !isSep c
    if 8 ≤ regname.length then .error (text "bad --dump token near: " ++ a :: t ++ ['\n'])
    else match dumpReg regname with
      | none => .error (text "unknown register in --dump: " ++ regname ++ ['\n'])
      | some rx => dumpLoop (pushDump regs rx) ((a :: t).dropWhile fun c => !isSep c)
termination_by p.length
decreasing_by
  have ha : isSep a = false := by
    have hh := List.head?_dropWhile_not isSep p
    rw [_hp] at hh
    simpa using hh
  refine (dropWhile_token_lt ha).trans_le ?_
  rw [← _hp]
  exact (List.dropWhile_suffix _).length_le

/-- The body of the loop over the arguments. -/
def mainArg (s : MainState) (arg : List Char) : Except (List Char) MainState :=
  if arg = text "--verbose" then .ok { s with verbose := true }
  else if (text "--dump=").isPrefixOf arg then do
    let regs ← dumpLoop s.dumpRegs (arg.drop 7)
    return { s with dumpRegs := regs }
  else match parseU64 arg with
    | some v =>
      if s.nextArgToA < 8 then
        .ok { s with st := s.st.setX (10 + s.nextArgToA) v, nextArgToA := s.nextArgToA + 1 }
      else .ok s
    | none => .ok s

def memSz : BitVec 64 := 64 * 1024 * 1024

/-- The state before the loop over the arguments: the guest memory starts at the first block, and
the stack ends below its top. -/
def mainInit (imageBase mem : BitVec 64) : MainState where
  st :=
    { x := fun r => if r = 2 ∨ r = 8 then imageBase + (memSz - 0x4000) else 0
      mem := mem - imageBase
      memSize := memSz }
  verbose := false
  dumpRegs := []
  nextArgToA := 0

/-- `main` up to the call of `riscy_entry`. -/
def mainSetup (imageBase mem : BitVec 64) (argv : List (List Char)) :
    Except (List Char) MainState :=
  (argv.drop 1).foldlM mainArg (mainInit imageBase mem)

end Args

section Output

/-- What `riscy_indirect_jump` prints before and after the call of a block. -/
inductive Chatter
  | ijump (target : BitVec 64) (idx : ℤ)
  | ijumpReturn (idx : ℤ)

def Chatter.line : Chatter → List Char
  | .ijump target idx => text "ijump target=0x" ++ hex target ++ text " idx=" ++ intText idx
  | .ijumpReturn idx => text "ijump return from idx=" ++ intText idx

def runnerLine (startPc imageBase sp : BitVec 64) (numBlocks : ℕ) : List Char :=
  text "runner: start_pc=0x" ++ hex startPc ++ text " image_base=0x" ++ hex imageBase ++
    text " blocks=" ++ Nat.toDigits 10 numBlocks ++ text " sp=0x" ++ hex sp

def retLine (x : ℕ → BitVec 64) : List Char := text "RET " ++ intText (x 10).toInt

def outLine (x : ℕ → BitVec 64) (rx : ℕ) : List Char :=
  text "OUT x" ++ Nat.toDigits 10 rx ++ '=' :: Nat.toDigits 10 (x rx).toNat

/-- `riscy_block_addrs[0]`; a module has at least the block at its entry. -/
def imageBase (m : ModuleAsm) : BitVec 64 := m.addrs.headD 0

/-- The lines on the standard output when the translated code leaves the guest registers `x`. -/
def mainLines (m : ModuleAsm) (s : MainState) (cs : List Chatter) (x : ℕ → BitVec 64) :
    List (List Char) :=
  (if s.verbose then [runnerLine m.entryPc (imageBase m) (s.st.x 2) m.numBlocks] else []) ++
    cs.map Chatter.line ++ retLine x :: s.dumpRegs.map (outLine x)

structure Proc where
  returncode : ℤ
  stdout : List Char
  stderr : List Char

/-- `main`, with the guest memory at `mem` and translated code that returns: what it leaves in the
guest registers, and what `riscy_indirect_jump` prints meanwhile. -/
def main (m : ModuleAsm) (mem : BitVec 64)
    (translated : GuestState → List Chatter × (ℕ → BitVec 64)) (argv : List (List Char)) : Proc :=
  match mainSetup (imageBase m) mem argv with
  | .error msg => ⟨2, [], msg⟩
  | .ok s =>
    let (cs, x) := translated s.st
    ⟨0, unlines (mainLines m s cs x), []⟩

end Output

section Setup
variable {s : MainState} {z : ℤ}

/-- What a decimal argument is read as. -/
def argValue (z : ℤ) : BitVec 64 :=
  if 2 ^ 64 ≤ z.natAbs then BitVec.allOnes 64 else BitVec.ofInt 64 z

theorem space_not_digit {c : Char} (h : isDigitOf 10 c = true) : isSpace c = false := by
  unfold isDigitOf digitVal at h
  unfold isSpace
  split_ifs at h with hd ha hA
  · have hne : c ≠ ' ' := by
      rintro rfl
      exact absurd hd (by decide)
    have hle : ¬ c ≤ '\r' := fun hc => absurd (hd.1.trans hc) (by decide)
    simp [hne, hle]
  · simp only [Option.any_some, decide_eq_true_eq] at h
    omega
  · simp only [Option.any_some, decide_eq_true_eq] at h
    omega
  · cases h

theorem skipPrefix_ten (t : List Char) : skipPrefix 10 t = t := by
  unfold skipPrefix
  split
  · rw [if_neg (by simp)]
  · rfl

theorem toDigits_head (n : ℕ) : ∃ c t, Nat.toDigits 10 n = c :: t ∧ isDigitOf 10 c = true := by
  obtain ⟨c, t, ht⟩ := List.exists_cons_of_ne_nil (Nat.toDigits_ne_nil (b := 10) (n := n))
  exact ⟨c, t, ht, isDigitOf_mem (by decide) (by decide) (ht ▸ List.mem_cons_self ..)⟩

/-- A printed integer is read as a sign and a magnitude. -/
theorem scanNumber_intText (z : ℤ) :
    scanNumber 10 (intText z) = (decide (z < 0), z.natAbs, []) := by
  have hscan := scanDigits_printed (by decide : 1 < 10) (by decide) z.natAbs (ends_nil (b := 10))
  rw [List.append_nil] at hscan
  obtain ⟨c, t, ht, hc⟩ := toDigits_head z.natAbs
  have hhead : (Nat.toDigits 10 z.natAbs).head?.any (isDigitOf 10) = true := by
    rw [ht]
    exact hc
  unfold intText
  split_ifs with hz
  · have hdrop : ('-' :: Nat.toDigits 10 z.natAbs).dropWhile isSpace =
        '-' :: Nat.toDigits 10 z.natAbs := List.dropWhile_cons_of_neg (by decide)
    rw [scanNumber, hdrop]
    simp only [scanSign, skipPrefix_ten, hhead, if_true, hscan, hz, decide_true]
  · have hdrop : (Nat.toDigits 10 z.natAbs).dropWhile isSpace = Nat.toDigits 10 z.natAbs := by
      rw [ht]
      exact List.dropWhile_cons_of_neg (by simp [space_not_digit hc])
    have hsign : scanSign (Nat.toDigits 10 z.natAbs) = (false, Nat.toDigits 10 z.natAbs) := by
      rw [ht]
      unfold scanSign
      split
      · rename_i hs
        exact absurd ((List.cons.inj hs).1 ▸ hc) (by decide)
      · rename_i hs
        exact absurd ((List.cons.inj hs).1 ▸ hc) (by decide)
      · rfl
    rw [scanNumber, hdrop, hsign]
    simp only [skipPrefix_ten, hhead, if_true, hscan, hz, decide_false]

theorem intText_second {c d : Char} {t : List Char} (h : intText z = c :: d :: t) :
    isDigitOf 10 d = true := by
  unfold intText at h
  split_ifs at h
  · obtain ⟨-, ht⟩ := List.cons.inj h
    exact isDigitOf_mem (by decide) (by decide) (ht ▸ List.mem_cons_self ..)
  · exact isDigitOf_mem (by decide) (by decide) (h ▸ List.mem_cons_of_mem _ (List.mem_cons_self ..))

theorem parseU64_intText (z : ℤ) : parseU64 (intText z) = some (argValue z) := by
  have hbase : parseBase (intText z) = 10 := by
    unfold parseBase
    split
    · rename_i x t hx
      have hd := intText_second hx
      refine if_neg ?_
      rintro (rfl | rfl) <;> exact absurd hd (by decide)
    · rfl
  have hval : (if 2 ^ 64 ≤ z.natAbs then BitVec.allOnes 64
      else if decide (z < 0) = true then -BitVec.ofNat 64 z.natAbs else BitVec.ofNat 64 z.natAbs) =
      argValue z := by
    rw [argValue]
    congr 1
    split_ifs with hz
    · have habs : z = -(z.natAbs : ℤ) := by
        have hneg := of_decide_eq_true hz
        omega
      conv_rhs => rw [habs, BitVec.ofInt_neg, BitVec.ofInt_natCast]
    · have habs : z = (z.natAbs : ℤ) := by
        have hnonneg : ¬ z < 0 := fun hz' => hz (decide_eq_true hz')
        omega
      conv_rhs => rw [habs, BitVec.ofInt_natCast]
  have hscan : strtoull 10 (intText z) = (argValue z, []) := by
    rw [← hval, strtoull, scanNumber_intText]
  rw [parseU64, hbase, hscan]
  rfl

/-- The argument registers, from the one at `k` on. -/
def argRegs (x : ℕ → BitVec 64) (k : ℕ) (inputs : List ℤ) (r : ℕ) : BitVec 64 :=
  if 10 + k ≤ r ∧ r < 18 then (inputs[r - (10 + k)]?).elim (x r) argValue else x r

theorem argRegs_cons (x : ℕ → BitVec 64) {k : ℕ} (hk : k < 8) (z : ℤ) (inputs : List ℤ) :
    argRegs (Function.update x (10 + k) (argValue z)) (k + 1) inputs =
      argRegs x k (z :: inputs) := by
  funext r
  unfold argRegs
  rcases lt_trichotomy r (10 + k) with hr | rfl | hr
  · rw [if_neg (by omega), if_neg (by omega), Function.update_of_ne hr.ne]
  · rw [if_neg (by omega), if_pos (by omega), Function.update_self, Nat.sub_self]
    rfl
  · have hget : (z :: inputs)[r - (10 + k)]? = inputs[r - (10 + (k + 1))]? := by
      have hsub : r - (10 + k) = r - (10 + (k + 1)) + 1 := by omega
      rw [hsub, List.getElem?_cons_succ]
    rw [hget, Function.update_of_ne hr.ne']
    congr 1
    exact propext ⟨fun h => by omega, fun h => by omega⟩

theorem mainArg_int (s : MainState) (z : ℤ) : mainArg s (intText z) = .ok
    (if s.nextArgToA < 8 then
      { s with
        st := s.st.setX (10 + s.nextArgToA) (argValue z)
        nextArgToA := s.nextArgToA + 1 }
    else s) := by
  have hdash : ∀ t, intText z ≠ '-' :: '-' :: t := fun t h =>
    absurd (intText_second h) (by decide)
  have hverbose : intText z ≠ text "--verbose" := hdash (text "verbose")
  have hdump : ¬ (text "--dump=").isPrefixOf (intText z) = true := by
    intro h
    obtain ⟨t, ht⟩ := List.isPrefixOf_iff_prefix.mp h
    exact hdash (text "dump=" ++ t) ht.symm
  rw [mainArg, if_neg hverbose, if_neg hdump, parseU64_intText]
  simp only
  split_ifs <;> rfl

/-- The loop over decimal arguments fills the argument registers. -/
theorem mainArgs_ints (inputs : List ℤ) {s : MainState} (hs : s.nextArgToA ≤ 8) :
    ∃ n, (inputs.map intText).foldlM mainArg s = .ok { s with
      st := { s.st with x := argRegs s.st.x s.nextArgToA inputs }, nextArgToA := n } := by
  induction inputs generalizing s with
  | nil =>
    refine ⟨s.nextArgToA, ?_⟩
    have hx : argRegs s.st.x s.nextArgToA [] = s.st.x := by
      funext r
      simp [argRegs]
    rw [hx]
    rfl
  | cons z inputs ih =>
    rw [List.map_cons, List.foldlM_cons, mainArg_int]
    rcases Nat.lt_or_ge s.nextArgToA 8 with hlt | hge
    · rw [if_pos hlt]
      obtain ⟨n, hn⟩ := ih (s := { s with
        st := s.st.setX (10 + s.nextArgToA) (argValue z), nextArgToA := s.nextArgToA + 1 }) hlt
      refine ⟨n, hn.trans ?_⟩
      simp only [GuestState.setX, argRegs_cons _ hlt]
    · rw [if_neg (by omega)]
      obtain ⟨n, hn⟩ := ih hs
      refine ⟨n, hn.trans ?_⟩
      have hnone : ∀ l, argRegs s.st.x s.nextArgToA l = s.st.x := by
        intro l
        funext r
        exact if_neg (by omega)
      rw [hnone, hnone]

/-- The loop over a list goes through its tokens. -/
theorem dumpLoop_eq (regs : List ℕ) (p : List Char) : dumpLoop regs p =
    match p.dropWhile isSep with
    | [] => .ok regs
    | a :: t =>
      let regname := (a :: t).takeWhile fun c => !isSep c
      if 8 ≤ regname.length then .error (text "bad --dump token near: " ++ a :: t ++ ['\n'])
      else match dumpReg regname with
        | none => .error (text "unknown register in --dump: " ++ regname ++ ['\n'])
        | some rx => dumpLoop (pushDump regs rx) ((a :: t).dropWhile fun c => !isSep c) := by
  rw [dumpLoop]
  split <;> rename_i hp <;> simp only [hp]

/-- A list is taken if every token of it names a register. -/
theorem dumpLoop_ok {regs rs : List ℕ} {p : List Char} (h : List.Forall₂
    (fun w r => w.length < 8 ∧ dumpReg w = some r) (tokens isSep p) rs) :
    dumpLoop regs p = .ok (rs.foldl pushDump regs) := by
  induction rs generalizing regs p with
  | nil =>
    rw [List.forall₂_nil_right_iff, tokens_scan] at h
    rw [dumpLoop_eq]
    split at h
    · rename_i hd
      rw [hd]
      rfl
    · cases h
  | cons r rs ih =>
    rw [tokens_scan] at h
    rw [dumpLoop_eq]
    split at h
    · cases h
    · rename_i a t hd
      obtain ⟨⟨hlen, hreg⟩, hrest⟩ := List.forall₂_cons.mp h
      rw [hd]
      simp only [hreg]
      rw [if_neg (by omega), ih hrest]
      rfl

theorem foldl_pushDump {regs : List ℕ} (rs : List ℕ) (h : regs.length ≤ 32) :
    rs.foldl pushDump regs = (regs ++ rs).take 32 := by
  induction rs generalizing regs with
  | nil => rw [List.foldl_nil, List.append_nil, List.take_of_length_le h]
  | cons r rs ih =>
    rw [List.foldl_cons, pushDump]
    split_ifs with hlt
    · rw [ih (by rw [List.length_append]; exact hlt), List.append_assoc]
      rfl
    · have hlen : regs.length = 32 := by omega
      rw [ih h, ← hlen, List.take_left, List.take_left]

end Setup

end Riscy.RuntimeMain
