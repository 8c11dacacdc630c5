import Riscy.RuntimeMain

/-! `run_function` and `run_binary_with_inputs` of the lowering tool: what they pass to a
translated binary, and what they read from its output. -/
namespace Riscy.Lower
open TextScan
open RuntimeMain (Proc)

section Python

/-- `str.isspace` of a character. -/
def isSpace (c : Char) : Bool :=
  (9 ≤ c.toNat && c.toNat ≤ 13) || (28 ≤ c.toNat && c.toNat ≤ 32) ||
    (0x2000 ≤ c.toNat && c.toNat ≤ 0x200a) ||
    [0x85, 0xa0, 0x1680, 0x2028, 0x2029, 0x202f, 0x205f, 0x3000].contains c.toNat

def isLineBreak (c : Char) : Bool :=
  (10 ≤ c.toNat && c.toNat ≤ 13) || (28 ≤ c.toNat && c.toNat ≤ 30) ||
    [0x85, 0x2028, 0x2029].contains c.toNat

def strip (s : List Char) : List Char := (s.dropWhile isSpace).rdropWhile isSpace

/-- `str.splitlines`; `subprocess` has made `\n` of `\r\n`. -/
def splitlines (s : List Char) : List (List Char) :=
  let ls := s.splitOnP isLineBreak
  if ls.getLast? = some [] then ls.dropLast else ls

/-- The digits of Unicode, in the version that an interpreter comes with: the characters with
`str.isdigit`, and the values of those that are decimal. -/
class UnicodeDigits where
  isDigit : Char → Bool
  decimal : Char → Option ℕ
  isDigit_ascii : ∀ c : Char, c.toNat < 128 → isDigit c = c.isDigit
  decimal_ascii : ∀ c : Char, c.toNat < 128 →
    decimal c = if c.isDigit then some (c.toNat - 48) else none

/-- The decimal zeros of Unicode 14; nine digits follow each of them. -/
def decimalZeros : List ℕ :=
  [0x30, 0x660, 0x6f0, 0x7c0, 0x966, 0x9e6, 0xa66, 0xae6, 0xb66, 0xbe6, 0xc66, 0xce6, 0xd66, 0xde6,
   0xe50, 0xed0, 0xf20, 0x1040, 0x1090, 0x17e0, 0x1810, 0x1946, 0x19d0, 0x1a80, 0x1a90, 0x1b50,
   0x1bb0, 0x1c40, 0x1c50, 0xa620, 0xa8d0, 0xa900, 0xa9d0, 0xa9f0, 0xaa50, 0xabf0, 0xff10, 0x104a0,
   0x10d30, 0x11066, 0x110f0, 0x11136, 0x111d0, 0x112f0, 0x11450, 0x114d0, 0x11650, 0x116c0,
   0x11730, 0x118e0, 0x11950, 0x11c50, 0x11d50, 0x11da0, 0x16a60, 0x16ac0, 0x16b50, 0x1d7ce,
   0x1d7d8, 0x1d7e2, 0x1d7ec, 0x1d7f6, 0x1e140, 0x1e2f0, 0x1e950, 0x1fbf0]

/-- The digits of Unicode 14 that are not decimal. -/
def otherDigits : List (ℕ × ℕ) :=
  [(0xb2, 0xb3), (0xb9, 0xb9), (0x1369, 0x1371), (0x19da, 0x19da), (0x2070, 0x2070),
   (0x2074, 0x2079), (0x2080, 0x2089), (0x2460, 0x2468), (0x2474, 0x247c), (0x2488, 0x2490),
   (0x24ea, 0x24ea), (0x24f5, 0x24fd), (0x24ff, 0x24ff), (0x2776, 0x277e), (0x2780, 0x2788),
   (0x278a, 0x2792), (0x10a40, 0x10a43), (0x10e60, 0x10e68), (0x11052, 0x1105a),
   (0x1f100, 0x1f10a)]

def decimal14 (n : ℕ) : Option ℕ :=
  (decimalZeros.find? fun z => z ≤ n ∧ n < z + 10).map fun z => n - z

def isDigit14 (n : ℕ) : Bool :=
  (decimal14 n).isSome || otherDigits.any fun r => r.1 ≤ n ∧ n ≤ r.2

theorem isDigit_toNat (c : Char) : c.isDigit = decide (48 ≤ c.toNat ∧ c.toNat ≤ 57) := by
  simp only [Char.isDigit, ge_iff_le, UInt32.le_iff_toNat_le, Bool.decide_and]
  rfl

instance unicode14 : UnicodeDigits where
  isDigit c := isDigit14 c.toNat
  decimal c := decimal14 c.toNat
  isDigit_ascii c hc := by
    have h : ∀ n < 128, isDigit14 n = decide (48 ≤ n ∧ n ≤ 57) := by decide
    rw [isDigit_toNat, h _ hc]
  decimal_ascii c hc := by
    have h : ∀ n < 128, decimal14 n =
        if decide (48 ≤ n ∧ n ≤ 57) then some (n - 48) else none := by decide
    rw [isDigit_toNat, h _ hc]

section Int
variable [UnicodeDigits]

/-- `str.isdigit`. -/
def pyIsDigit (s : List Char) : Bool := !s.isEmpty && s.all UnicodeDigits.isDigit

/-- Decimal digits with single underscores between them. -/
def pyDigits (s : List Char) : Option ℕ :=
  if (s.splitOnP (· = '_')).all fun g => !g.isEmpty then
    ((s.filter (· ≠ '_')).mapM UnicodeDigits.decimal).map (·.foldl (fun n d => 10 * n + d) 0)
  else none

/-- The white space around a number, without the separators that `str.strip` takes as well. -/
def isIntSpace (c : Char) : Bool := isSpace c && !(28 ≤ c.toNat && c.toNat ≤ 31)

/-- `int(s, 10)`; `none` is a `ValueError`. -/
def pyInt (s : List Char) : Option ℤ :=
  match (s.dropWhile isIntSpace).rdropWhile isIntSpace with
  | '-' :: t => (pyDigits t).map fun n : ℕ => -(n : ℤ)
  | '+' :: t => (pyDigits t).map fun n : ℕ => (n : ℤ)
  | t => (pyDigits t).map fun n : ℕ => (n : ℤ)

/-- What the `ValueError` of `int` says about a string of digits. -/
def invalidLiteral (s : List Char) : List Char :=
  text "invalid literal for int() with base 10: " ++ (text "'" ++ s ++ text "'").take 200

end Int

end Python

section RunFunction
variable [UnicodeDigits]

abbrev Outs := AList fun _ : List Char => ℤ

inductive RunError
  | notFound
  | failed (stdout stderr : List Char)
  | noRet (stdout : List Char)

/-- The argument vector of the binary. -/
def runArgs (bin : List Char) (inputs : List ℤ) (dump : List (List Char)) : List (List Char) :=
  bin :: inputs.map intText ++
    if dump = [] then [] else [text "--dump=" ++ [','].intercalate dump]

/-- The variables `ret` and `outs`. -/
structure Parsed where
  ret : Option ℤ
  outs : Outs

def parseLine (p : Parsed) (ln : List Char) : Parsed :=
  let ln := strip ln
  if (text "RET ").isPrefixOf ln then
    match pyInt (ln.dropWhile (· ≠ ' ')).tail with
    | some v => { p with ret := some v }
    | none => p
  else if (text "OUT ").isPrefixOf ln ∧ '=' ∈ ln then
    let body := ln.drop 4
    let name := strip (body.takeWhile (· ≠ '='))
    match pyInt (body.dropWhile (· ≠ '=')).tail with
    | some v => { p with outs := p.outs.insert name v }
    | none => p
  else p

def parseStdout (out : List Char) : Parsed := (splitlines out).foldl parseLine ⟨none, ∅⟩

/-- `run_function`; `run` is `none` where the binary does not exist. -/
def runFunction (run : List (List Char) → Option Proc) (bin : List Char) (inputs : List ℤ)
    (dump : List (List Char)) : Except RunError (ℤ × Outs) :=
  match run (runArgs bin inputs dump) with
  | none => .error .notFound
  | some proc =>
    if proc.returncode ≠ 0 then .error (.failed proc.stdout proc.stderr)
    else
      let p := parseStdout proc.stdout
      match p.ret with
      | none => .error (.noRet proc.stdout)
      | some r => .ok (r, p.outs)

end RunFunction

section Inputs
variable [UnicodeDigits]

/-- `int` of a string of digits, or the message of its `ValueError`. -/
def intOfDigits (t : List Char) : Except (List Char) ℤ :=
  match pyInt t with
  | some i => .ok i
  | none => .error (invalidLiteral t)

/-- The variable `idx` for a key without white space around it. -/
def keyIndex (k : List Char) : Except (List Char) (Option ℕ) :=
  match k with
  | 'a' :: t =>
    if pyIsDigit t then
      (intOfDigits t).map fun i => if 0 ≤ i ∧ i ≤ 7 then some i.toNat else none
    else .ok none
  | 'x' :: t =>
    if pyIsDigit t then
      (intOfDigits t).map fun i => if 10 ≤ i ∧ i ≤ 17 then some (i - 10).toNat else none
    else .ok none
  | _ => .ok none

/-- The argument register that a key names. -/
def inputIndex (k : List Char) : Except (List Char) ℕ :=
  match keyIndex (strip k) with
  | .error msg => .error msg
  | .ok none => .error (text "unsupported input register key: " ++ strip k)
  | .ok (some idx) => .ok idx

/-- The lists `vals` and `seen`. -/
structure Normalized where
  vals : List ℤ
  seen : List Bool

def setInput (s : Normalized) (entry : List Char × ℤ) : Except (List Char) Normalized :=
  match inputIndex entry.1 with
  | .error msg => .error msg
  | .ok idx => .ok ⟨s.vals.set idx entry.2, s.seen.set idx true⟩

/-- The last position of `seen` that is set. -/
def lastSeen (seen : List Bool) : Option ℕ :=
  (List.range 8).reverse.find? fun i => seen.getD i false

/-- `_normalize_inputs_dict`, over the entries of the dict in order. -/
def normalizeInputsDict (inputs : List (List Char × ℤ)) : Except (List Char) (List ℤ) := do
  let s ← inputs.foldlM setInput ⟨List.replicate 8 0, List.replicate 8 false⟩
  match lastSeen s.seen with
  | some last => return s.vals.take (last + 1)
  | none => return []

inductive BinaryError
  | key (message : List Char)
  | run (e : RunError)

/-- `run_binary_with_inputs`. -/
def runBinaryWithInputs (run : List (List Char) → Option Proc) (bin : List Char)
    (inputs : List (List Char × ℤ)) (dump : List (List Char)) : Except BinaryError Outs :=
  match normalizeInputsDict inputs with
  | .error msg => .error (.key msg)
  | .ok pos => match runFunction run bin pos dump with
    | .error e => .error (.run e)
    | .ok (ret, outs) =>
      let x10 := text "x10"
      .ok (if x10 ∈ outs then outs else outs.insert x10 ret)

end Inputs

end Riscy.Lower
