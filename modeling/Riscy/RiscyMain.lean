import Riscy.AArch64TextRead
import Riscy.RISCVListing
import Riscy.IRListing
import Riscy.RISCVWorklist
import Riscy.ELFLoad

/-! `main` of the `riscy` tool: flags, the image, the listings and the assembly file. -/
namespace Riscy
open TextScan RISCV AArch64

section Main

structure Options where
  dumpCfg : Bool
  dumpIR : Bool
  outAsm : List Char

/-- What a run leaves behind: the exit code, both streams, and the file that it writes. -/
structure Outcome where
  code : ℕ
  stdout : List Char
  stderr : List Char
  file : Option (List Char × List Char)

def Outcome.failed (err : List Char) : Outcome := ⟨1, [], err, none⟩

def usage : List Char := text "usage: riscy [--cfg] [--ir] [--aarch64 <out.s>] <input-elf>\n"

/-- The flag loop; what is left starts with an argument that is no flag. -/
def parseFlags : Options → List (List Char) → Except (List Char) (Options × List (List Char))
  | o, [] => .ok (o, [])
  | o, flag :: args =>
    if flag.head? ≠ some '-' then .ok (o, flag :: args)
    else if flag = text "--cfg" then parseFlags { o with dumpCfg := true } args
    else if flag = text "--ir" then parseFlags { o with dumpIR := true } args
    else if flag = text "--aarch64" then
      match args with
      | [] => .error (text "--aarch64 requires an output path argument\n")
      | out :: args => parseFlags { o with outAsm := out } args
    else .error (text "unknown flag: " ++ flag ++ ['\n'] ++ usage)

/-- What a run finds around it: the paths for which an output file opens, `RISCY_DUMP_LIVENESS`,
the order in which a map of live ranges is gone through, and the words that a read gets which runs
past the bytes of a section. -/
structure Environment where
  canOpen : List Char → Bool
  dumpLive : Bool
  iteration : AArch64.Block → LivenessMap → List (VReg × LiveRange)
  iterates : ∀ blk live, (iteration blk live).Perm (live.entries.map fun e => (e.1, e.2))
  beyond : BitVec 64 → BitVec 32

/-- The words that the decoder gets. -/
def ELFImage.reader (img : ELFImage) (beyond : BitVec 64 → BitVec 32) : MemoryReader := fun a =>
  match img.read32 a with
  | .ok word => word
  | .error _ => some (beyond a)

def dumpBlock (o : Options) (bb : BasicBlock) : Except Fault (List Char) := do
  let listed := if o.dumpCfg then formatBlock bb else []
  if o.dumpIR then return listed ++ (← (← lift bb).toString)
  return listed

def dumpAt (o : Options) (cfg : CFG) (a : BitVec 64) : Except Fault (List Char) :=
  match cfg.blockAt a with
  | some bb => dumpBlock o bb
  | none => .error .operandOutOfRange

/-- The loop over the blocks that prints listings. -/
def dumpBlocks (o : Options) (cfg : CFG) : Except Fault (List Char) :=
  if o.dumpCfg || o.dumpIR then do return (← (addresses cfg).mapM (dumpAt o cfg)).flatten
  else return []

def rangeText (e : VReg × LiveRange) : List Char :=
  text "  v" ++ Nat.toDigits 10 e.1 ++ text ": [" ++ Nat.toDigits 10 e.2.start ++ text ", " ++
    Nat.toDigits 10 e.2.last ++ text "]\n"

/-- What is printed for the block at `a` where `RISCY_DUMP_LIVENESS` is set. -/
def livenessText (a : BitVec 64) (blk : AArch64.Block) (ranges : List (VReg × LiveRange)) :
    List Char :=
  text "-- Liveness for block 0x" ++ hex a ++ text " (" ++ Nat.toDigits 10 blk.instrs.length ++
    text " instrs)\n" ++ ranges.flatMap rangeText

def dumpLiveAt (env : Environment) (cfg : CFG) (a : BitVec 64) : Except Fault (List Char) :=
  match cfg.blockAt a with
  | some bb => do
    let blk ← select (← lift bb)
    let live ← analyze blk
    return livenessText a blk (env.iteration blk live)
  | none => .error .operandOutOfRange

/-- What the loop that translates the blocks prints. -/
def dumpLiveness (env : Environment) (cfg : CFG) : Except Fault (List Char) :=
  if env.dumpLive then do return (← (addresses cfg).mapM (dumpLiveAt env cfg)).flatten
  else return []

/-- The part of `main` for `--aarch64`, after `printed` went to the output. -/
def writeAsm (orders : ItemOrders) (env : Environment) (out : List Char) (cfg : CFG)
    (printed : List Char) : Except Fault Outcome :=
  if out = [] then return ⟨0, printed, [], none⟩
  else do
    let live ← dumpLiveness env cfg
    let m ← translate orders cfg
    if env.canOpen out then
      return ⟨0, printed ++ live ++ text "wrote AArch64 assembly to " ++ out ++ ['\n'], [],
        some (out, m.print)⟩
    return ⟨1, printed ++ live, text "failed to open output asm: " ++ out ++ ['\n'], none⟩

/-- `main` on the arguments after the program's name. -/
def main (fuel : ℕ) (orders : ItemOrders) (reader : ElfReader) (env : Environment)
    (argv : List (List Char)) : Option (Except Fault Outcome) :=
  match parseFlags ⟨false, false, []⟩ argv with
  | .error err => some (.ok (.failed err))
  | .ok (_, []) => some (.ok (.failed usage))
  | .ok (o, path :: _) =>
    match ImageState.initial.load reader path with
    | (_, err, false) => some (.ok (.failed (err ++ ['\n'])))
    | (img, _, true) =>
      (build fuel (img.image.reader env.beyond) img.entry).map fun r => do
        let cfg ← r
        let printed ← dumpBlocks o cfg
        writeAsm orders env o.outAsm cfg printed

end Main

section Flags

inductive Flag
  | cfg
  | ir
  | aarch64 (out : List Char)
  deriving DecidableEq

def Flag.args : Flag → List (List Char)
  | .cfg => [text "--cfg"]
  | .ir => [text "--ir"]
  | .aarch64 out => [text "--aarch64", out]

def Flag.apply (o : Options) : Flag → Options
  | .cfg => { o with dumpCfg := true }
  | .ir => { o with dumpIR := true }
  | .aarch64 out => { o with outAsm := out }

/-- Flags in any order, the path of the program, and arguments that are not looked at. -/
structure Parsed (argv : List (List Char)) (flags : List Flag) (path : List Char)
    (extra : List (List Char)) : Prop where
  eq : argv = flags.flatMap Flag.args ++ path :: extra
  path : path.head? ≠ some '-'

/-- The path of the last `--aarch64`, or nothing. -/
def lastOut (flags : List Flag) : List Char :=
  (flags.foldl Flag.apply ⟨false, false, []⟩).outAsm

variable {o o' : Options} {argv rest : List (List Char)} {flags : List Flag}

theorem parseFlags_flags (flags : List Flag) (o : Options) (rest : List (List Char)) :
    parseFlags o (flags.flatMap Flag.args ++ rest) =
      parseFlags (flags.foldl Flag.apply o) rest := by
  induction flags generalizing o with
  | nil => rfl
  | cons flag flags ih =>
    rw [List.flatMap_cons, List.append_assoc, List.foldl_cons, ← ih]
    cases flag with
    | cfg =>
      rw [Flag.args, List.singleton_append, parseFlags.eq_def]
      exact (if_neg (by simp [text])).trans (if_pos rfl)
    | ir =>
      rw [Flag.args, List.singleton_append, parseFlags.eq_def]
      exact (if_neg (by simp [text])).trans ((if_neg (by simp)).trans (if_pos rfl))
    | aarch64 out => rfl

theorem parseFlags_ok (h : parseFlags o argv = .ok (o', rest)) :
    ∃ flags : List Flag, argv = flags.flatMap Flag.args ++ rest ∧ o' = flags.foldl Flag.apply o ∧
      ∀ a ∈ rest.head?, a.head? ≠ some '-' := by
  fun_induction parseFlags o argv with
  | case1 o =>
    cases h
    exact ⟨[], rfl, rfl, by simp⟩
  | case2 o flag args hflag =>
    cases h
    exact ⟨[], rfl, rfl, by simpa using hflag⟩
  | case3 o args hd ih =>
    obtain ⟨flags, rfl, ho, hrest⟩ := ih h
    exact ⟨.cfg :: flags, rfl, ho, hrest⟩
  | case4 o args hd hne ih =>
    obtain ⟨flags, rfl, ho, hrest⟩ := ih h
    exact ⟨.ir :: flags, rfl, ho, hrest⟩
  | case5 => cases h
  | case6 o out args h0 h1 h2 ih =>
    obtain ⟨flags, rfl, ho, hrest⟩ := ih h
    exact ⟨.aarch64 out :: flags, rfl, ho, hrest⟩
  | case7 => cases h

theorem parseFlags_error {err : List Char} (h : parseFlags o argv = .error err) : err ≠ [] := by
  fun_induction parseFlags o argv with
  | case1 => cases h
  | case2 => cases h
  | case3 o args hd ih => exact ih h
  | case4 o args hd hne ih => exact ih h
  | case5 =>
    cases h
    simp [text]
  | case6 o hd h1 h2 out args ih => exact ih h
  | case7 =>
    cases h
    simp [text]

end Flags

section Outcomes
variable {fuel : ℕ} {orders : ItemOrders} {reader : ElfReader} {env : Environment}
  {argv : List (List Char)} {flags : List Flag} {path : List Char} {extra : List (List Char)}
  {cfg : CFG} {mem : MemoryReader} {entry : BitVec 64} {o : Options} {printed : List Char}
  {out : Outcome}

theorem apply_foldl (flags : List Flag) (o : Options) :
    ((flags.foldl Flag.apply o).dumpCfg ↔ o.dumpCfg ∨ .cfg ∈ flags) ∧
      ((flags.foldl Flag.apply o).dumpIR ↔ o.dumpIR ∨ .ir ∈ flags) := by
  induction flags generalizing o with
  | nil => simp
  | cons flag flags ih =>
    rw [List.foldl_cons, (ih _).1, (ih _).2]
    cases flag <;> simp [Flag.apply]

/-- The blocks of a CFG in the order of their addresses. -/
def InOrder (cfg : CFG) (bbs : List BasicBlock) : Prop :=
  (addresses cfg).map cfg.blockAt = bbs.map some

theorem exists_inOrder (h : cfg.Sound mem entry) :
    ∃ bbs, InOrder cfg bbs ∧ ∀ bb ∈ bbs, bb ∈ cfg.blocks := by
  have hall : ∀ as : List (BitVec 64), (∀ a ∈ as, a ∈ addresses cfg) →
      ∃ bbs : List BasicBlock, as.map cfg.blockAt = bbs.map some ∧ ∀ bb ∈ bbs, bb ∈ cfg.blocks := by
    intro as has
    induction as with
    | nil => exact ⟨[], rfl, by simp⟩
    | cons a as ih =>
      obtain ⟨bbs, hbbs, hmem⟩ := ih fun x hx => has x (List.mem_cons_of_mem _ hx)
      obtain ⟨bb, hbb⟩ := h.blockAt_of_mem (mem_addresses.mp (has a (by simp)))
      refine ⟨bb :: bbs, by rw [List.map_cons, hbb, hbbs]; rfl, ?_⟩
      exact List.forall_mem_cons.mpr ⟨((h.blockAt_iff a bb).mp hbb).1, hmem⟩
  exact hall (addresses cfg) fun a ha => ha

/-- The output for a block, with the text of its lifted form. -/
def listedText (flags : List Flag) (bb : BasicBlock) (ir : List Char) : List Char :=
  (if .cfg ∈ flags then formatBlock bb else []) ++ if .ir ∈ flags then ir else []

/-- What is printed before the assembly is written: the listings that were asked for, block by
block in the order of the addresses. -/
structure Listed (flags : List Flag) (cfg : CFG) (printed : List Char) : Prop where
  blocks : ∃ bbs irs texts, InOrder cfg bbs ∧ bbs.mapM lift = .ok irs ∧
    irs.mapM IR.Block.toString = .ok texts ∧
    printed = (List.zipWith (listedText flags) bbs texts).flatten

theorem dumpBlock_eq {bb : BasicBlock} (h : WellBuilt mem bb) (flags : List Flag) :
    ∃ ir s, lift bb = .ok ir ∧ ir.toString = .ok s ∧
      dumpBlock (flags.foldl Flag.apply ⟨false, false, []⟩) bb = .ok (listedText flags bb s) := by
  obtain ⟨ir, hlift, hexact⟩ : ∃ ir, lift bb = .ok ir ∧ ir.term.Exact :=
    ⟨_, h.lift_eq, IR.liftTerm_exact bb _⟩
  obtain ⟨ls, hs, -⟩ := IR.Block.text_reads hexact
  have hcfg := (apply_foldl flags ⟨false, false, []⟩).1
  have hir := (apply_foldl flags ⟨false, false, []⟩).2
  simp only [Bool.false_eq_true, false_or] at hcfg hir
  refine ⟨ir, _, hlift, hs, ?_⟩
  by_cases hc : Flag.cfg ∈ flags <;> by_cases hi : Flag.ir ∈ flags <;>
    simp [dumpBlock, listedText, hcfg, hir, hc, hi, hlift, hs, bind, Except.bind, pure, Except.pure]

/-- A pass over the addresses is one over the blocks. -/
theorem mapM_blocks {f : BitVec 64 → Except Fault (List Char)}
    {f' : BasicBlock → Except Fault (List Char)}
    (hf : ∀ a bb, cfg.blockAt a = some bb → f a = f' bb) {as : List (BitVec 64)}
    {bbs : List BasicBlock} (h : as.map cfg.blockAt = bbs.map some) : as.mapM f = bbs.mapM f' := by
  induction as generalizing bbs with
  | nil =>
    cases bbs with
    | nil => rfl
    | cons bb bbs => cases h
  | cons a as ih =>
    cases bbs with
    | nil => cases h
    | cons bb bbs =>
      obtain ⟨hb, hrest⟩ := List.cons_eq_cons.mp h
      rw [List.mapM_cons, List.mapM_cons, hf a bb hb, ih hrest]

theorem dumpAt_eq {a : BitVec 64} {bb : BasicBlock} (h : cfg.blockAt a = some bb) :
    dumpAt o cfg a = dumpBlock o bb := by
  rw [dumpAt, h]

theorem dumpAll_eq {bbs : List BasicBlock} (h : ∀ bb ∈ bbs, WellBuilt mem bb) (flags : List Flag) :
    ∃ irs texts, bbs.mapM lift = .ok irs ∧ irs.mapM IR.Block.toString = .ok texts ∧
      bbs.mapM (dumpBlock (flags.foldl Flag.apply ⟨false, false, []⟩)) =
        .ok (List.zipWith (listedText flags) bbs texts) := by
  induction bbs with
  | nil => exact ⟨[], [], rfl, rfl, rfl⟩
  | cons bb bbs ih =>
    obtain ⟨ir, s, hir, hs, hdump⟩ := dumpBlock_eq (h bb (by simp)) flags
    obtain ⟨irs, texts, hirs, htexts, hall⟩ := ih fun b hb => h b (List.mem_cons_of_mem _ hb)
    refine ⟨ir :: irs, s :: texts, ?_, ?_, ?_⟩
    · rw [List.mapM_cons, hir, hirs]
      rfl
    · rw [List.mapM_cons, hs, htexts]
      rfl
    · rw [List.mapM_cons, hdump, hall]
      rfl

theorem dumpBlocks_listed (h : cfg.Sound mem entry) (flags : List Flag) :
    ∃ printed, dumpBlocks (flags.foldl Flag.apply ⟨false, false, []⟩) cfg = .ok printed ∧
      Listed flags cfg printed := by
  obtain ⟨bbs, hbbs, hmem⟩ := exists_inOrder h
  obtain ⟨irs, texts, hirs, htexts, hall⟩ := dumpAll_eq (fun bb hb => h.built bb (hmem bb hb)) flags
  have hcfg := (apply_foldl flags ⟨false, false, []⟩).1
  have hir := (apply_foldl flags ⟨false, false, []⟩).2
  simp only [Bool.false_eq_true, false_or] at hcfg hir
  refine ⟨_, ?_, ⟨bbs, irs, texts, hbbs, hirs, htexts, rfl⟩⟩
  rw [dumpBlocks]
  split_ifs with hasked
  · rw [mapM_blocks (fun a bb => dumpAt_eq) hbbs, hall]
    rfl
  · have hc : .cfg ∉ flags := fun hc => hasked (by simp [hcfg.mpr hc])
    have hi : .ir ∉ flags := fun hi => hasked (by simp [hir.mpr hi])
    have hnil : (List.zipWith (listedText flags) bbs texts).flatten = [] := by
      rw [← List.map_uncurry_zip_eq_zipWith]
      refine List.flatten_eq_nil_iff.mpr fun s hs => ?_
      obtain ⟨p, -, rfl⟩ := List.mem_map.mp hs
      simp [Function.uncurry, listedText, hc, hi]
    rw [hnil]
    rfl

/-- The live ranges that are printed while the blocks are translated: nothing, or block by block
every range of its map once. -/
structure LiveListed (env : Environment) (cfg : CFG) (live : List Char) : Prop where
  unset : env.dumpLive = false → live = []
  set : env.dumpLive = true → ∃ bbs ranges, InOrder cfg bbs ∧
    List.Forall₂ (fun bb rs => rs.Perm ((pipelineLive bb).entries.map fun e => (e.1, e.2)))
      bbs ranges ∧
    live = (List.zipWith (fun bb rs => livenessText bb.start (pipelineBlock bb) rs) bbs
      ranges).flatten

theorem dumpLiveAt_eq (h : cfg.Sound mem entry) {bb : BasicBlock} {a : BitVec 64}
    (hat : cfg.blockAt a = some bb) : dumpLiveAt env cfg a =
      .ok (livenessText bb.start (pipelineBlock bb)
        (env.iteration (pipelineBlock bb) (pipelineLive bb))) := by
  obtain ⟨hbb, hstart⟩ := (h.blockAt_iff a bb).mp hat
  have hsel := select_lifted bb
  have hlive := analyze_pipeline bb
  simp only [dumpLiveAt, hat, (h.built bb hbb).lift_eq]
  change (select (lifted bb) >>= _) = _
  simp only [hsel, hlive, hstart, bind, Except.bind]
  rfl

theorem dumpLiveness_listed (h : cfg.Sound mem entry) (env : Environment) :
    ∃ live, dumpLiveness env cfg = .ok live ∧ LiveListed env cfg live := by
  obtain ⟨bbs, hbbs, -⟩ := exists_inOrder h
  rw [dumpLiveness]
  split_ifs with hset
  · let ranges := fun bb => env.iteration (pipelineBlock bb) (pipelineLive bb)
    have hall : (addresses cfg).mapM (dumpLiveAt env cfg) = .ok (bbs.map fun bb =>
        livenessText bb.start (pipelineBlock bb) (ranges bb)) :=
      (mapM_blocks (fun a bb => dumpLiveAt_eq h) hbbs).trans List.mapM_pure
    rw [hall]
    refine ⟨_, rfl, fun hunset => absurd (hset.symm.trans hunset) Bool.true_eq_false.mp,
      fun _ => ⟨bbs, bbs.map ranges, hbbs, ?_, ?_⟩⟩
    · exact List.forall₂_map_right_iff.mpr (List.forall₂_same.mpr fun bb _ => env.iterates ..)
    · rw [List.zipWith_map_right, List.zipWith_self]
  · exact ⟨[], rfl, fun _ => rfl, fun hset' => absurd hset' hset⟩

/-- What becomes of the file and of the end of the output. -/
inductive Written (orders : ItemOrders) (env : Environment) (path : List Char) (cfg : CFG)
    (printed : List Char) : Outcome → Prop
  | unasked (hp : path = []) : Written orders env path cfg printed ⟨0, printed, [], none⟩
  | written {m live} (hp : path ≠ []) (hm : translate orders cfg = .ok m) (ho : env.canOpen path)
    (hl : LiveListed env cfg live) : Written orders env path cfg printed
      ⟨0, printed ++ live ++ text "wrote AArch64 assembly to " ++ path ++ ['\n'], [],
        some (path, m.print)⟩
  | refused {m live} (hp : path ≠ []) (hm : translate orders cfg = .ok m)
    (ho : env.canOpen path = false) (hl : LiveListed env cfg live) :
    Written orders env path cfg printed
      ⟨1, printed ++ live, text "failed to open output asm: " ++ path ++ ['\n'], none⟩

theorem writeAsm_written {path : List Char} (hs : cfg.Sound mem entry)
    (h : writeAsm orders env path cfg printed = .ok out) :
    Written orders env path cfg printed out := by
  by_cases hp : path = []
  · rw [writeAsm, if_pos hp] at h
    cases h
    exact .unasked hp
  · obtain ⟨live, hlive, hl⟩ := dumpLiveness_listed hs env
    rw [writeAsm, if_neg hp, hlive] at h
    cases hm : translate orders cfg with
    | error e =>
      rw [hm] at h
      cases h
    | ok m =>
      rw [hm] at h
      simp only [bind, Except.bind] at h
      cases ho : env.canOpen path with
      | true =>
        rw [ho, if_pos rfl] at h
        cases h
        exact .written hp hm ho hl
      | false =>
        rw [ho, if_neg Bool.false_ne_true] at h
        cases h
        exact .refused hp hm ho hl

/-- The code that is reached is read as it stands in the sections. -/
def ReadsExactly (f : ElfFile) : Prop :=
  ∀ a, StaticReach (exactWord f.spans) f.entry a → WrapsOutside f.spans a

/-- Runs that translate a program. -/
structure Translates (fuel : ℕ) (orders : ItemOrders) (env : Environment)
    (flags : List Flag) (f : ElfFile) (out : Outcome) : Prop where
  run : ∃ cfg printed,
    build fuel ((ELFImage.mk f.spans true).reader env.beyond) f.entry = some (.ok cfg) ∧
    (ReadsExactly f → Builds (exactWord f.spans) f.entry cfg) ∧
    Listed flags cfg printed ∧ Written orders env (lastOut flags) cfg printed out

theorem ReadsExactly.builds {f : ElfFile} (h : ReadsExactly f)
    (hb : build fuel ((ELFImage.mk f.spans true).reader env.beyond) f.entry = some (.ok cfg)) :
    Builds (exactWord f.spans) f.entry cfg := by
  have halike : ∀ a, StaticReach (exactWord f.spans) f.entry a →
      DecodeAlike (exactWord f.spans) ((ELFImage.mk f.spans true).reader env.beyond) a := by
    intro a ha
    have hword : (ELFImage.mk f.spans true).reader env.beyond a = exactWord f.spans a := by
      rw [ELFImage.reader, image_exact (h a ha)]
    rw [DecodeAlike, decodeNext, decodeNext, hword]
  exact ⟨fuel, (buildLoop_alike halike .initial).symm.trans hb⟩

/-- Nothing is printed or written. -/
structure Outcome.Refuses (out : Outcome) : Prop where
  code : out.code = 1
  stdout : out.stdout = []
  stderr : out.stderr ≠ []
  file : out.file = none

theorem Parsed.parse (h : Parsed argv flags path extra) :
    parseFlags ⟨false, false, []⟩ argv =
      .ok (flags.foldl Flag.apply ⟨false, false, []⟩, path :: extra) := by
  rw [h.eq, parseFlags_flags, parseFlags.eq_def]
  exact if_pos h.path

theorem main_runnable {f : ElfFile} (hp : Parsed argv flags path extra) (hf : reader path = some f)
    (hrun : f.Runnable) : main fuel orders reader env argv =
      (build fuel ((ELFImage.mk f.spans true).reader env.beyond) f.entry).map fun r => (do
        let cfg ← r
        let printed ← dumpBlocks (flags.foldl Flag.apply ⟨false, false, []⟩) cfg
        writeAsm orders env (lastOut flags) cfg printed) := by
  rw [main, hp.parse]
  simp only [ImageState.load_runnable hf hrun]
  rfl

/-- Programs that can be translated are. -/
theorem main_total {f : ElfFile} (hp : Parsed argv flags path extra) (hf : reader path = some f)
    (hrun : f.Runnable)
    (hb : build fuel ((ELFImage.mk f.spans true).reader env.beyond) f.entry = some (.ok cfg))
    (hsize : ∀ bb ∈ cfg.blocks, irSize bb.insts < 2 ^ 31) :
    ∃ out, main fuel orders reader env argv = some (.ok out) := by
  have hsound := Builds.sound ⟨fuel, hb⟩
  obtain ⟨printed, hprinted, -⟩ := dumpBlocks_listed hsound flags
  obtain ⟨m, hm, -⟩ := translates_short hsound hsize orders
  obtain ⟨live, hlive, -⟩ := dumpLiveness_listed hsound env
  have hwrite : ∃ out, writeAsm orders env (lastOut flags) cfg printed = .ok out := by
    rw [writeAsm, hlive, hm]
    simp only [bind, Except.bind]
    split_ifs <;> exact ⟨_, rfl⟩
  obtain ⟨out, hout⟩ := hwrite
  refine ⟨out, ?_⟩
  rw [main_runnable hp hf hrun, hb, Option.map_some]
  simp only [bind, Except.bind, hprinted, hout]

theorem main_translates {f : ElfFile} (hp : Parsed argv flags path extra)
    (hf : reader path = some f) (hrun : f.Runnable)
    (h : main fuel orders reader env argv = some (.ok out)) :
    Translates fuel orders env flags f out := by
  rw [main_runnable hp hf hrun] at h
  obtain ⟨r, hb, hr⟩ := Option.map_eq_some_iff.mp h
  cases r with
  | error e => cases hr
  | ok cfg =>
    have hsound := Builds.sound ⟨fuel, hb⟩
    obtain ⟨printed, hprinted, hlisted⟩ := dumpBlocks_listed hsound flags
    simp only [bind, Except.bind, hprinted] at hr
    exact ⟨cfg, printed, hb, fun hexact => hexact.builds hb, hlisted, writeAsm_written hsound hr⟩

/-- A run either refuses its arguments, or translates the program that they name. -/
inductive RunOutcome (fuel : ℕ) (orders : ItemOrders) (reader : ElfReader)
    (env : Environment) (argv : List (List Char)) (out : Outcome) : Prop
  | refuses (h : out.Refuses) (hno : ∀ flags path extra f, Parsed argv flags path extra →
      reader path = some f → ¬ f.Runnable)
  | translates {flags path extra f} (hp : Parsed argv flags path extra) (hf : reader path = some f)
      (hrun : f.Runnable) (h : Translates fuel orders env flags f out)

theorem Parsed.path_eq {flags' : List Flag} {path' : List Char} {extra' : List (List Char)}
    (h : Parsed argv flags path extra) (h' : Parsed argv flags' path' extra') : path' = path := by
  have hparse := h.parse
  rw [h'.parse] at hparse
  injection hparse with hpair
  exact (List.cons_eq_cons.mp (Prod.mk.inj hpair).2).1

/-- What a run of `main` comes to, whatever its arguments are. -/
theorem main_outcomes (h : main fuel orders reader env argv = some (.ok out)) :
    RunOutcome fuel orders reader env argv out := by
  cases hparse : parseFlags ⟨false, false, []⟩ argv with
  | error err =>
    rw [main, hparse] at h
    cases h
    refine .refuses ⟨rfl, rfl, parseFlags_error hparse, rfl⟩ fun flags path extra f hp => ?_
    rw [hp.parse] at hparse
    cases hparse
  | ok r =>
    obtain ⟨o, rest⟩ := r
    obtain ⟨flags, hargv, rfl, hhead⟩ := parseFlags_ok hparse
    cases rest with
    | nil =>
      rw [main, hparse] at h
      cases h
      refine .refuses ⟨rfl, rfl, by simp [Outcome.failed, usage, text], rfl⟩
        fun flags path extra f hp => ?_
      rw [hp.parse] at hparse
      injection hparse with hpair
      cases (Prod.mk.inj hpair).2
    | cons path extra =>
      have hp : Parsed argv flags path extra := ⟨hargv, hhead path rfl⟩
      obtain ⟨img, err, ok, hload⟩ :
          ∃ img err ok, ImageState.initial.load reader path = (img, err, ok) := ⟨_, _, _, rfl⟩
      rcases ImageState.load_cases hload with ⟨f, hf, hrun, -, -, -⟩ | ⟨hno, rfl, -, -⟩
      · exact .translates hp hf hrun (main_translates hp hf hrun h)
      · rw [main, hparse] at h
        simp only [hload] at h
        cases h
        refine .refuses ⟨rfl, rfl, by simp [Outcome.failed], rfl⟩
          fun flags' path' extra' f hp' hf => ?_
        rw [hp.path_eq hp'] at hf
        exact hno f hf

/-- `ecall` at address 4096. -/
def ecallFile : ElfFile :=
  ⟨2, 243, 1, 4096, [none, some ⟨6, 4096, some [0x73, 0, 0, 0], fun _ => by decide⟩]⟩

def ecallCFG : CFG :=
  ⟨4096, [⟨4096, [⟨4096, 0x73, .ECALL, []⟩], .Trap, []⟩], AList.insert 4096 0 ∅⟩

def ecallReader : ElfReader := fun _ => some ecallFile

/-- All files open, and live ranges are printed in the order of the map. -/
def plainEnv : Environment where
  canOpen _ := true
  dumpLive := true
  iteration _ live := live.entries.map fun e => (e.1, e.2)
  iterates _ _ := .refl _
  beyond _ := 0

theorem ecall_outcome : ∃ out, main 2 default ecallReader plainEnv
      [text "--cfg", text "--aarch64", text "a.s", text "a.elf"] = some (.ok out) ∧
    RunOutcome 2 default ecallReader plainEnv
      [text "--cfg", text "--aarch64", text "a.s", text "a.elf"] out := by
  have hp : Parsed [text "--cfg", text "--aarch64", text "a.s", text "a.elf"]
      [.cfg, .aarch64 (text "a.s")] (text "a.elf") [] := ⟨rfl, by simp [text]⟩
  have hf : ecallReader (text "a.elf") = some ecallFile := rfl
  have hb : build 2 ((ELFImage.mk ecallFile.spans true).reader plainEnv.beyond) 4096 =
      some (.ok ecallCFG) := rfl
  obtain ⟨out, hout⟩ := main_total hp hf ⟨rfl, rfl, rfl, by decide⟩ hb (by decide)
  exact ⟨out, hout, main_outcomes hout⟩

end Outcomes

end Riscy
