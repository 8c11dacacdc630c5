import Riscy.LowerRun

/-! `run_function` and `main` understand each other: arguments arrive in the registers they are
meant for, and what `main` prints is what the caller reads, whatever else stands on the output. -/
namespace Riscy.Lower
open TextScan RuntimeMain
open AArch64 (ModuleAsm)

/-- The registers that a dump list may name. -/
inductive RegName
  | x (n : Fin 32)
  | a (n : Fin 8)

def RegName.index : RegName → ℕ
  | .x n => n
  | .a n => 10 + n

def RegName.text : RegName → List Char
  | .x n => 'x' :: Nat.toDigits 10 n
  | .a n => 'a' :: Nat.toDigits 10 n

section Arguments
variable {s : MainState} {rn : RegName}

theorem strtol_toDigits (n : ℕ) (h : n < 2 ^ 62) : strtol (Nat.toDigits 10 n) = ((n : ℤ), []) := by
  have hz : intText (n : ℤ) = Nat.toDigits 10 n := if_neg (by omega)
  have hneg : ¬ (n : ℤ) < 0 := by omega
  have hmin : min (n : ℤ) (2 ^ 63 - 1) = n := by omega
  rw [← hz, strtol, scanNumber_intText]
  simp only [hneg, decide_false, Bool.false_eq_true, if_false, Int.natAbs_natCast, hmin]

theorem dumpReg_text (rn : RegName) : dumpReg rn.text = some rn.index := by
  cases rn with
  | x n =>
    rw [RegName.text, dumpReg, strtol_toDigits n (by omega)]
    simp only [if_true, true_or]
    exact if_pos ⟨trivial, by omega, by omega⟩
  | a n =>
    rw [RegName.text, dumpReg, strtol_toDigits n (by omega)]
    have ha : ¬ ('a' = 'x' ∨ 'a' = 'X') := by decide
    simp only [ha, if_false, true_or, if_true]
    exact if_pos ⟨trivial, by omega, by omega⟩

theorem text_length (rn : RegName) : rn.text.length < 8 := by
  have hlen : ∀ n < 32, (Nat.toDigits 10 n).length ≤ 2 :=
    fun n hn => (Nat.length_toDigits_le_iff (by decide) (by decide)).mpr (by omega)
  cases rn with
  | x n =>
    have h := hlen n n.isLt
    simp only [RegName.text, List.length_cons]
    omega
  | a n =>
    have h := hlen n (by omega)
    simp only [RegName.text, List.length_cons]
    omega

theorem digit_not_sep {c : Char} (h : isDigitOf 10 c = true) : isSep c = false := by
  rw [isSep, Bool.or_eq_false_iff]
  constructor
  · refine decide_eq_false ?_
    rintro rfl
    exact absurd h (by decide)
  · refine decide_eq_false ?_
    rintro rfl
    exact absurd h (by decide)

theorem text_not_sep (rn : RegName) : ∀ c ∈ rn.text, isSep c = false := by
  intro c hc
  cases rn with
  | x n | a n =>
    rcases List.mem_cons.mp hc with rfl | hc
    · decide
    · exact digit_not_sep (isDigitOf_mem (by decide) (by decide) hc)

theorem text_ne_nil (rn : RegName) : rn.text ≠ [] := by
  cases rn <;> exact List.cons_ne_nil _ _

theorem mainArg_dump (s : MainState) (dump : List RegName) :
    mainArg s (text "--dump=" ++ [','].intercalate (dump.map RegName.text)) =
      .ok { s with dumpRegs := (dump.map RegName.index).foldl pushDump s.dumpRegs } := by
  have htokens : tokens isSep ([','].intercalate (dump.map RegName.text)) =
      dump.map RegName.text := by
    rw [tokens_intercalate (by simp) (by simp [isSep])]
    exact flatMap_tokens (List.forall_mem_map.mpr fun rn _ => text_ne_nil rn)
      (List.forall_mem_map.mpr fun rn _ => text_not_sep rn)
  have hloop : dumpLoop s.dumpRegs ([','].intercalate (dump.map RegName.text)) =
      .ok ((dump.map RegName.index).foldl pushDump s.dumpRegs) := by
    refine dumpLoop_ok ?_
    rw [htokens]
    refine List.forall₂_map_left_iff.mpr (List.forall₂_map_right_iff.mpr ?_)
    exact List.forall₂_same.mpr fun rn _ => ⟨text_length rn, dumpReg_text rn⟩
  have hverbose : text "--dump=" ++ [','].intercalate (dump.map RegName.text) ≠
      text "--verbose" := by
    intro h
    have hget : some 'd' = some 'v' := congrArg (fun l : List Char => l[2]?) h
    exact absurd hget (by decide)
  have hprefix : (text "--dump=").isPrefixOf
      (text "--dump=" ++ [','].intercalate (dump.map RegName.text)) = true :=
    List.isPrefixOf_iff_prefix.mpr (List.prefix_append ..)
  have hdrop : (text "--dump=" ++ [','].intercalate (dump.map RegName.text)).drop 7 =
      [','].intercalate (dump.map RegName.text) := rfl
  rw [mainArg, if_neg hverbose, if_pos hprefix, hdrop, hloop]
  rfl

/-- The state in which translated code starts for the arguments of `run_function`. -/
def startState (imageBase mem : BitVec 64) (inputs : List ℤ) : GuestState :=
  { (mainInit imageBase mem).st with x := argRegs (mainInit imageBase mem).st.x 0 inputs }

theorem mainSetup_runArgs (imageBase mem : BitVec 64) (bin : List Char) (inputs : List ℤ)
    (dump : List RegName) :
    ∃ n, mainSetup imageBase mem (runArgs bin inputs (dump.map RegName.text)) =
      .ok ⟨startState imageBase mem inputs, false, (dump.map RegName.index).take 32, n⟩ := by
  obtain ⟨n, hn⟩ := mainArgs_ints inputs (s := mainInit imageBase mem) (Nat.zero_le 8)
  refine ⟨n, ?_⟩
  change ((inputs.map intText ++ _).foldlM mainArg _) = _
  rw [List.foldlM_append, hn]
  cases dump with
  | nil => rfl
  | cons d ds =>
    rw [if_neg (by simp)]
    change (mainArg _ _ >>= pure) = _
    rw [mainArg_dump]
    simp only [mainInit, foldl_pushDump _ (show ([] : List ℕ).length ≤ 32 by simp), List.nil_append]
    rfl

end Arguments

section Output
variable {l : List Char} {x : ℕ → BitVec 64}

theorem break_is_space {c : Char} (h : isSpace c = false) : isLineBreak c = false := by
  unfold isSpace at h
  unfold isLineBreak
  simp only [List.contains_cons, List.contains_nil, Bool.or_false, Bool.or_eq_false_iff,
    Bool.and_eq_false_iff, decide_eq_false_iff_not, beq_eq_false_iff_ne] at h ⊢
  omega

theorem isIntSpace_of_isSpace {c : Char} (h : isSpace c = false) : isIntSpace c = false := by
  rw [isIntSpace, h, Bool.false_and]

theorem digit_not_space {b : ℕ} {c : Char} (h : isDigitOf b c = true) : isSpace c = false := by
  have hr : '0' ≤ c ∧ c ≤ 'f' := by
    unfold isDigitOf digitVal at h
    split_ifs at h with hd ha hA
    · exact ⟨hd.1, hd.2.trans (by decide)⟩
    · exact ⟨le_trans (by decide) ha.1, ha.2⟩
    · exact ⟨le_trans (by decide) hA.1, hA.2.trans (by decide)⟩
    · cases h
  have hlo : 48 ≤ c.toNat := hr.1
  have hhi : c.toNat ≤ 102 := hr.2
  unfold isSpace
  simp only [List.contains_cons, List.contains_nil, Bool.or_false, Bool.or_eq_false_iff,
    Bool.and_eq_false_iff, decide_eq_false_iff_not, beq_eq_false_iff_ne]
  omega

theorem trim_of_ends {f : Char → Bool} (h : ∀ c ∈ l.head?, f c = false)
    (h' : ∀ c ∈ l.getLast?, f c = false) : (l.dropWhile f).rdropWhile f = l := by
  have hd : l.dropWhile f = l := by
    cases l with
    | nil => rfl
    | cons c l => exact List.dropWhile_cons_of_neg (by simp [h c rfl])
  rw [hd, List.rdropWhile_eq_self_iff]
  intro hne
  rw [h' _ (List.getLast?_eq_some_getLast hne)]
  exact Bool.false_ne_true

theorem strip_of_ends (h : ∀ c ∈ l.head?, isSpace c = false)
    (h' : ∀ c ∈ l.getLast?, isSpace c = false) : strip l = l := trim_of_ends h h'

theorem intText_last (z : ℤ) : ∀ c ∈ (intText z).getLast?, isSpace c = false := by
  intro c hc
  rcases intText_mem (List.mem_of_mem_getLast? hc) with rfl | hd
  · decide
  · exact digit_not_space hd

/-- Text that ends in a number. -/
theorem strip_intText {pre : List Char} {z : ℤ}
    (h : ∀ c ∈ (pre ++ intText z).head?, isSpace c = false) :
    strip (pre ++ intText z) = pre ++ intText z := by
  refine strip_of_ends h fun c hc => ?_
  rw [List.getLast?_append_of_ne_nil _ (intText_ne_nil z)] at hc
  exact intText_last z c hc

theorem intText_natCast (n : ℕ) : intText (n : ℤ) = Nat.toDigits 10 n := if_neg (by omega)

theorem ascii_of_isDigit {c : Char} (h : c.isDigit = true) : c.toNat < 128 := by
  rw [isDigit_toNat, decide_eq_true_eq] at h
  omega

theorem splitlines_unlines {ls : List (List Char)}
    (h : ∀ l ∈ ls, ∀ c ∈ l, isLineBreak c = false) : splitlines (unlines ls) = ls := by
  have hsplit : (unlines ls).splitOnP isLineBreak = ls ++ [[]] := splitOnP_terminate (by decide) h
  rw [splitlines, hsplit]
  simp

/-- The name under which a register is printed. -/
def outName (rx : ℕ) : List Char := 'x' :: Nat.toDigits 10 rx

theorem outName_inj {r r' : ℕ} (h : outName r = outName r') : r = r' := by
  have hdigits : Nat.toDigits 10 r = Nat.toDigits 10 r' := (List.cons.inj h).2
  rw [← Nat.ofDigitChars_ten_toDigits (n := r), hdigits, Nat.ofDigitChars_ten_toDigits]

theorem outName_plain {r : ℕ} {c : Char} (h : c ∈ outName r) : isSpace c = false ∧ c ≠ '=' := by
  rcases List.mem_cons.mp h with rfl | h
  · decide
  · have hd := isDigitOf_mem (by decide) (by decide) h
    refine ⟨digit_not_space hd, ?_⟩
    rintro rfl
    exact absurd hd (by decide)

theorem foldl_insert_lookup (x : ℕ → BitVec 64) (rs : List ℕ) (o : Outs) (name : List Char)
    (y : ℤ) :
    (rs.foldl (fun o r => o.insert (outName r) ((x r).toNat : ℤ)) o).lookup name = some y ↔
      (∃ r ∈ rs, name = outName r ∧ y = (x r).toNat) ∨
        (∀ r ∈ rs, name ≠ outName r) ∧ o.lookup name = some y := by
  induction rs generalizing o with
  | nil => simp
  | cons r rs ih =>
    rw [List.foldl_cons, ih]
    by_cases hr : name = outName r
    · subst hr
      have hsame : ∀ r' ∈ rs, outName r = outName r' → r' = r := fun r' _ h => (outName_inj h).symm
      rw [AList.lookup_insert]
      constructor
      · rintro (⟨r', hr', hn, rfl⟩ | ⟨-, hy⟩)
        · exact Or.inl ⟨r', List.mem_cons_of_mem _ hr', hn, rfl⟩
        · exact Or.inl ⟨r, by simp, rfl, (Option.some.inj hy).symm⟩
      · rintro (⟨r', hr', hn, rfl⟩ | ⟨hne, -⟩)
        · rw [← outName_inj hn]
          by_cases hin : r ∈ rs
          · exact Or.inl ⟨r, hin, rfl, rfl⟩
          · exact Or.inr ⟨fun r'' h'' he => hin (hsame r'' h'' he ▸ h''), rfl⟩
        · exact absurd rfl (hne r (by simp))
    · rw [AList.lookup_insert_ne hr]
      simp [hr]

/-- Text on one line. -/
def OneLine (l : List Char) : Prop := ∀ c ∈ l, isLineBreak c = false

theorem OneLine.append {l l' : List Char} (h : OneLine l) (h' : OneLine l') : OneLine (l ++ l') :=
  fun c hc => (List.mem_append.mp hc).elim (h c) (h' c)

theorem oneLine_of_all (h : l.all (fun c => !isLineBreak c) = true) : OneLine l :=
  fun c hc => by simpa using List.all_eq_true.mp h c hc

theorem oneLine_digits {b : ℕ} (hb : 1 < b) (hb' : b ≤ 16) (n : ℕ) :
    OneLine (Nat.toDigits b n) :=
  fun _ hc => break_is_space (digit_not_space (isDigitOf_mem hb hb' hc))

theorem oneLine_intText (z : ℤ) : OneLine (intText z) := by
  intro c hc
  rcases intText_mem hc with rfl | hd
  · decide
  · exact break_is_space (digit_not_space hd)

theorem mainLines_oneLine {m : ModuleAsm} {s : MainState} {cs : List Chatter} :
    ∀ l ∈ mainLines m s cs x, OneLine l := by
  have hhex : ∀ v : BitVec 64, OneLine (hex v) := fun v => oneLine_digits (by decide) (by decide) _
  have hdec : ∀ n, OneLine (Nat.toDigits 10 n) := oneLine_digits (by decide) (by decide)
  have hrunner : OneLine (runnerLine m.entryPc (imageBase m) (s.st.x 2) m.numBlocks) := by
    unfold runnerLine
    refine ((((((OneLine.append ?_ (hhex _)).append ?_).append (hhex _)).append ?_).append
      (hdec _)).append ?_).append (hhex _) <;> exact oneLine_of_all rfl
  have hchatter : ∀ c : Chatter, OneLine c.line := by
    rintro (⟨t, i⟩ | i)
    · refine ((OneLine.append ?_ (hhex _)).append ?_).append (oneLine_intText _) <;>
        exact oneLine_of_all rfl
    · exact OneLine.append (oneLine_of_all rfl) (oneLine_intText _)
  have hret : OneLine (retLine x) := OneLine.append (oneLine_of_all rfl) (oneLine_intText _)
  have hout : ∀ r, OneLine (outLine x r) := by
    intro r
    exact ((oneLine_of_all rfl).append (hdec _)).append
      (OneLine.append (l := ['=']) (oneLine_of_all rfl) (hdec _))
  intro l hl
  rw [mainLines, List.mem_append, List.mem_append, List.mem_cons] at hl
  rcases hl with (hl | hl) | rfl | hl
  · split_ifs at hl
    · rw [List.mem_singleton.mp hl]
      exact hrunner
    · cases hl
  · obtain ⟨c, -, rfl⟩ := List.mem_map.mp hl
    exact hchatter c
  · exact hret
  · obtain ⟨r, -, rfl⟩ := List.mem_map.mp hl
    exact hout r

theorem runnerLine_ends (a b sp : BitVec 64) (n : ℕ) : (runnerLine a b sp n).head? = some 'r' ∧
    (runnerLine a b sp n).getLast? = (hex sp).getLast? := by
  have hne : hex sp ≠ [] := Nat.toDigits_ne_nil
  refine ⟨?_, List.getLast?_append_of_ne_nil _ hne⟩
  simp only [runnerLine, List.append_assoc]
  rfl

end Output

section Parse
variable [UnicodeDigits] {p : Parsed} {x : ℕ → BitVec 64}

theorem mapM_decimal {l : List Char} (h : ∀ c ∈ l, c.isDigit = true) :
    l.mapM UnicodeDigits.decimal = some (l.map fun c => c.toNat - 48) := by
  induction l with
  | nil => rfl
  | cons c l ih =>
    have hc : c.isDigit = true := h c (by simp)
    rw [List.mapM_cons, UnicodeDigits.decimal_ascii c (ascii_of_isDigit hc), if_pos hc,
      ih fun d hd => h d (List.mem_cons_of_mem _ hd)]
    rfl

theorem pyDigits_toDigits (n : ℕ) : pyDigits (Nat.toDigits 10 n) = some n := by
  have hus : ∀ c ∈ Nat.toDigits 10 n, decide (c = '_') = false := by
    intro c hc
    refine decide_eq_false ?_
    rintro rfl
    exact Nat.underscore_not_in_toDigits hc
  have hfilter : (Nat.toDigits 10 n).filter (· ≠ '_') = Nat.toDigits 10 n :=
    List.filter_eq_self.mpr fun c hc => by simpa using hus c hc
  have hvalue : (Nat.toDigits 10 n).foldl (fun v c => 10 * v + (c.toNat - 48)) 0 = n :=
    Nat.ofDigitChars_eq_foldl.symm.trans Nat.ofDigitChars_ten_toDigits
  rw [pyDigits, List.splitOnP_eq_singleton hus, hfilter, if_pos (by simp),
    mapM_decimal fun c hc => Nat.isDigit_of_mem_toDigits (by decide) (by decide) hc,
    Option.map_some, List.foldl_map, hvalue]

theorem pyInt_intText (z : ℤ) : pyInt (intText z) = some z := by
  have hstrip : ((intText z).dropWhile isIntSpace).rdropWhile isIntSpace = intText z := by
    refine trim_of_ends (fun c hc => ?_) fun c hc => isIntSpace_of_isSpace (intText_last z c hc)
    rcases intText_mem (List.mem_of_mem_head? hc) with rfl | hd
    · decide
    · exact isIntSpace_of_isSpace (digit_not_space hd)
  rw [pyInt, hstrip]
  rcases lt_or_ge z 0 with hz | hz
  · have habs : -(z.natAbs : ℤ) = z := by omega
    rw [intText, if_pos hz]
    simp only [pyDigits_toDigits, Option.map_some, habs]
  · have habs : (z.natAbs : ℤ) = z := by omega
    obtain ⟨c, t, ht, hc⟩ := toDigits_head z.natAbs
    have hdigits := pyDigits_toDigits z.natAbs
    rw [intText, if_neg (by omega)]
    rw [ht] at hdigits ⊢
    split
    · rename_i hs
      exact absurd ((List.cons.inj hs).1 ▸ hc) (by decide)
    · rename_i hs
      exact absurd ((List.cons.inj hs).1 ▸ hc) (by decide)
    · rw [hdigits, Option.map_some, habs]

/-- Lines that begin with another letter are not looked at. -/
theorem parseLine_other {c : Char} {l : List Char} (hl : l.head? = some c)
    (hstrip : strip l = l) (hR : c ≠ 'R') (hO : c ≠ 'O') : parseLine p l = p := by
  obtain ⟨l, rfl⟩ := List.head?_eq_some_iff.mp hl
  have hprefix : ∀ k w, c ≠ k → (k :: w).isPrefixOf (c :: l) = false := by
    intro k w hk
    rw [List.isPrefixOf_cons_cons, beq_eq_false_iff_ne.mpr (Ne.symm hk), Bool.false_and]
  have hret := hprefix 'R' (text "ET ") hR
  have hout := hprefix 'O' (text "UT ") hO
  change (text "RET ").isPrefixOf _ = false at hret
  change (text "OUT ").isPrefixOf _ = false at hout
  simp only [parseLine, hstrip, hret, hout, Bool.false_eq_true, false_and, if_false]

theorem parseLine_chatter (cs : List Chatter) (p : Parsed) :
    (cs.map Chatter.line).foldl parseLine p = p := by
  induction cs with
  | nil => rfl
  | cons c cs ih =>
    have hc : parseLine p c.line = p := by
      cases c with
      | ijump target idx | ijumpReturn idx =>
        refine parseLine_other (c := 'i') rfl ?_ (by decide) (by decide)
        refine strip_intText fun d hd => ?_
        cases hd
        decide
    rw [List.map_cons, List.foldl_cons, hc, ih]

theorem parseLine_ret (p : Parsed) (x : ℕ → BitVec 64) :
    parseLine p (retLine x) = { p with ret := some (x 10).toInt } := by
  have hstrip : strip (retLine x) = retLine x := strip_intText fun d hd => by
    cases hd
    decide
  have hprefix : (text "RET ").isPrefixOf (retLine x) = true :=
    List.isPrefixOf_iff_prefix.mpr (List.prefix_append ..)
  have htail : ((retLine x).dropWhile (· ≠ ' ')).tail = intText (x 10).toInt := rfl
  rw [parseLine]
  simp only [hstrip, hprefix, htail, pyInt_intText, if_true]

theorem parseLine_out (p : Parsed) (x : ℕ → BitVec 64) (rx : ℕ) :
    parseLine p (outLine x rx) = { p with outs := p.outs.insert (outName rx) (x rx).toNat } := by
  have hline : outLine x rx = text "OUT " ++ (outName rx ++ '=' :: intText ((x rx).toNat : ℤ)) := by
    rw [intText_natCast, outLine, List.append_assoc]
    rfl
  have hstrip : strip (outLine x rx) = outLine x rx := by
    have hassoc : outLine x rx =
        (text "OUT " ++ outName rx ++ ['=']) ++ intText ((x rx).toNat : ℤ) := by
      rw [hline]
      simp
    rw [hassoc]
    refine strip_intText fun d hd => ?_
    cases hd
    decide
  have hret : (text "RET ").isPrefixOf (outLine x rx) = false := by
    rw [hline]
    rfl
  have hout : (text "OUT ").isPrefixOf (outLine x rx) = true := by
    rw [hline]
    exact List.isPrefixOf_iff_prefix.mpr (List.prefix_append ..)
  have heq : '=' ∈ outLine x rx := by
    rw [hline]
    simp
  have hdrop : (outLine x rx).drop 4 = outName rx ++ '=' :: intText ((x rx).toNat : ℤ) := by
    rw [hline]
    rfl
  have hne : ∀ c ∈ outName rx, decide (c ≠ '=') = true :=
    fun c hc => decide_eq_true (outName_plain hc).2
  have hname : strip (outName rx) = outName rx :=
    strip_of_ends (fun c hc => (outName_plain (List.mem_of_mem_head? hc)).1)
      fun c hc => (outName_plain (List.mem_of_mem_getLast? hc)).1
  rw [parseLine]
  simp only [hstrip, hret, hout, heq, hdrop, Bool.false_eq_true, if_false, and_self, if_true]
  rw [List.takeWhile_append_of_pos hne, List.dropWhile_append_of_pos hne]
  simp only [List.takeWhile_cons, List.dropWhile_cons, ne_eq, not_true_eq_false, decide_false,
    Bool.false_eq_true, if_false, List.append_nil, List.tail_cons, pyInt_intText, hname]

theorem parseLine_outs (rs : List ℕ) (p : Parsed) (x : ℕ → BitVec 64) :
    (rs.map (outLine x)).foldl parseLine p = { p with
      outs := rs.foldl (fun o r => o.insert (outName r) ((x r).toNat : ℤ)) p.outs } := by
  induction rs generalizing p with
  | nil => rfl
  | cons r rs ih => rw [List.map_cons, List.foldl_cons, parseLine_out, ih, List.foldl_cons]

/-- What is read from the output of `main`. -/
theorem parseStdout_main (m : ModuleAsm) (s : MainState) (cs : List Chatter) (x : ℕ → BitVec 64) :
    parseStdout (unlines (mainLines m s cs x)) = ⟨some (x 10).toInt,
      s.dumpRegs.foldl (fun o r => o.insert (outName r) ((x r).toNat : ℤ)) ∅⟩ := by
  have hrunner : ∀ p : Parsed,
      ((if s.verbose then [runnerLine m.entryPc (imageBase m) (s.st.x 2) m.numBlocks]
        else []).foldl parseLine p) = p := by
    intro p
    split_ifs
    · rw [List.foldl_cons, List.foldl_nil]
      obtain ⟨hhead, hlast⟩ := runnerLine_ends m.entryPc (imageBase m) (s.st.x 2) m.numBlocks
      refine parseLine_other hhead (strip_of_ends (fun d hd => ?_) fun d hd => ?_) (by decide)
        (by decide)
      · rw [hhead] at hd
        cases hd
        decide
      · rw [hlast] at hd
        exact digit_not_space (isDigitOf_mem (by decide) (by decide) (List.mem_of_mem_getLast? hd))
    · rfl
  rw [parseStdout, splitlines_unlines mainLines_oneLine, mainLines, List.foldl_append,
    List.foldl_append, hrunner, parseLine_chatter, List.foldl_cons, parseLine_ret, parseLine_outs]

end Parse

section Calls
variable {mem : BitVec 64} {dump : List RegName}

/-- The registers as they are read from the output. -/
def readOuts (dump : List RegName) (x : ℕ → BitVec 64) : Outs :=
  ((dump.map RegName.index).take 32).foldl (fun o r => o.insert (outName r) ((x r).toNat : ℤ)) ∅

theorem readOuts_lookup (dump : List RegName) (x : ℕ → BitVec 64) (name : List Char) (v : ℤ) :
    (readOuts dump x).lookup name = some v ↔
      ∃ rn ∈ dump.take 32, name = outName rn.index ∧ v = (x rn.index).toNat := by
  rw [readOuts, foldl_insert_lookup, ← List.map_take]
  constructor
  · rintro (⟨r, hr, hn, hv⟩ | ⟨-, hv⟩)
    · obtain ⟨rn, hrn, rfl⟩ := List.mem_map.mp hr
      exact ⟨rn, hrn, hn, hv⟩
    · rw [AList.lookup_empty] at hv
      cases hv
  · rintro ⟨rn, hrn, hn, hv⟩
    exact Or.inl ⟨_, List.mem_map_of_mem hrn, hn, hv⟩

/-- The guest registers that translated code starts with. -/
def startRegs (imageBase : BitVec 64) (value : ℕ → BitVec 64) (r : ℕ) : BitVec 64 :=
  if 10 ≤ r ∧ r < 18 then value (r - 10)
  else if r = 2 ∨ r = 8 then imageBase + (memSz - 0x4000)
  else 0

theorem startState_x (imageBase mem : BitVec 64) (inputs : List ℤ) :
    (startState imageBase mem inputs).x =
      startRegs imageBase fun i => (inputs[i]?).elim 0 argValue := by
  funext r
  have hinit : 10 ≤ r → (mainInit imageBase mem).st.x r = 0 := fun hr => if_neg (by omega)
  change argRegs (mainInit imageBase mem).st.x 0 inputs r = _
  unfold argRegs startRegs
  by_cases hr : 10 ≤ r ∧ r < 18
  · rw [if_pos hr, if_pos hr, hinit hr.1]
  · rw [if_neg hr, if_neg hr]
    rfl

/-- What comes back from a call, when translated code takes the registers to `x`. -/
structure Returned (dump : List RegName) (x : ℕ → BitVec 64) (ret : ℤ) (outs : Outs) : Prop where
  ret : ret = (x 10).toInt
  outs : ∀ name v, outs.lookup name = some v ↔
    ∃ rn ∈ dump.take 32, name = outName rn.index ∧ v = (x rn.index).toNat

variable [UnicodeDigits]

/-- A call of `run_function` for a binary that returns. -/
theorem runFunction_main {m : ModuleAsm} {bin : List Char} {inputs : List ℤ}
    {translated : GuestState → List Chatter × (ℕ → BitVec 64)} {cs : List Chatter}
    {x : ℕ → BitVec 64}
    (h : translated (startState (imageBase m) mem inputs) = (cs, x)) :
    runFunction (fun argv => some (RuntimeMain.main m mem translated argv)) bin inputs
      (dump.map RegName.text) = .ok ((x 10).toInt, readOuts dump x) := by
  obtain ⟨n, hn⟩ := mainSetup_runArgs (imageBase m) mem bin inputs dump
  have hmain : RuntimeMain.main m mem translated (runArgs bin inputs (dump.map RegName.text)) =
      ⟨0, unlines (mainLines m ⟨startState (imageBase m) mem inputs, false,
        (dump.map RegName.index).take 32, n⟩ cs x), []⟩ := by
    rw [RuntimeMain.main, hn]
    simp only [h]
  rw [runFunction]
  simp only [hmain, ne_eq, not_true_eq_false, if_false, parseStdout_main]
  rfl

/-- A call passes its inputs in the argument registers, modulo 2^64 or saturated, and returns `a0`
as a signed number and the registers asked for as unsigned ones, whatever the code prints. -/
theorem run_function_returns (m : ModuleAsm) (mem : BitVec 64)
    (translated : GuestState → List Chatter × (ℕ → BitVec 64)) (bin : List Char)
    (inputs : List ℤ) (dump : List RegName) : ∃ st ret outs,
      st.x = startRegs (imageBase m) (fun i => (inputs[i]?).elim 0 argValue) ∧
        st.mem = mem - imageBase m ∧ st.memSize = memSz ∧
      runFunction (fun argv => some (RuntimeMain.main m mem translated argv)) bin inputs
        (dump.map RegName.text) = .ok (ret, outs) ∧ Returned dump (translated st).2 ret outs :=
  ⟨startState (imageBase m) mem inputs, _, _, startState_x .., rfl, rfl, runFunction_main rfl, rfl,
    fun _ _ => readOuts_lookup ..⟩

end Calls

section Dict

theorem lastSeen_max {seen : List Bool} {last i : ℕ} (h : lastSeen seen = some last) (hi : i < 8)
    (hseen : seen.getD i false = true) : i ≤ last := by
  obtain ⟨-, as, bs, heq, has⟩ := List.find?_eq_some_iff_append.mp h
  have hmem : i ∈ as ++ last :: bs := heq ▸ (by simpa using hi)
  have hsorted : (as ++ last :: bs).Pairwise (· > ·) := heq ▸ (by decide)
  rcases List.mem_append.mp hmem with hmem | hmem
  · have hno := has i hmem
    rw [hseen] at hno
    cases hno
  · rcases List.mem_cons.mp hmem with rfl | hmem
    · exact le_rfl
    · exact ((List.pairwise_cons.mp (List.pairwise_append.mp hsorted).2.1).1 i hmem).le

theorem argValue_zero : argValue 0 = 0 := by decide

theorem startRegs_congr {imageBase : BitVec 64} {f g : ℕ → BitVec 64} (h : ∀ i < 8, f i = g i) :
    startRegs imageBase f = startRegs imageBase g := by
  funext r
  unfold startRegs
  split_ifs with hr
  · exact h _ (by omega)
  · rfl
  · rfl

theorem mem_readOuts {dump : List RegName} {x : ℕ → BitVec 64} {r : ℕ} :
    outName r ∈ readOuts dump x ↔ ∃ rn ∈ dump.take 32, rn.index = r := by
  rw [← AList.lookup_isSome, Option.isSome_iff_exists]
  constructor
  · rintro ⟨v, hv⟩
    obtain ⟨rn, hrn, hn, -⟩ := (readOuts_lookup ..).mp hv
    exact ⟨rn, hrn, (outName_inj hn).symm⟩
  · rintro ⟨rn, hrn, hn⟩
    exact ⟨_, (readOuts_lookup ..).mpr ⟨rn, hrn, by rw [hn], rfl⟩⟩

/-- `outs.setdefault("x10", ret)`. -/
theorem setdefault_lookup (dump : List RegName) (x : ℕ → BitVec 64) (name : List Char) (v : ℤ) :
    (if outName 10 ∈ readOuts dump x then readOuts dump x
      else (readOuts dump x).insert (outName 10) (x 10).toInt).lookup name = some v ↔
      (∃ rn ∈ dump.take 32, name = outName rn.index ∧ v = (x rn.index).toNat) ∨
        (∀ rn ∈ dump.take 32, rn.index ≠ 10) ∧ name = outName 10 ∧ v = (x 10).toInt := by
  split_ifs with hin
  · rw [readOuts_lookup]
    obtain ⟨rn, hrn, hn⟩ := mem_readOuts.mp hin
    refine (or_iff_left ?_).symm
    rintro ⟨hno, -⟩
    exact hno rn hrn hn
  · have hno : ∀ rn ∈ dump.take 32, rn.index ≠ 10 :=
      fun rn hrn hn => hin (mem_readOuts.mpr ⟨rn, hrn, hn⟩)
    by_cases hn : name = outName 10
    · subst hn
      rw [AList.lookup_insert]
      constructor
      · intro hv
        exact Or.inr ⟨hno, rfl, (Option.some.inj hv).symm⟩
      · rintro (⟨rn, hrn, hn, -⟩ | ⟨-, -, rfl⟩)
        · exact absurd (outName_inj hn).symm (hno rn hrn)
        · rfl
    · rw [AList.lookup_insert_ne hn, readOuts_lookup]
      simp [hn]

theorem startState_values {imageBase mem : BitVec 64} {vals : List ℤ} {value : ℕ → ℤ}
    (h : ∀ i < 8, vals[i]?.getD 0 = value i) :
    (startState imageBase mem vals).x = startRegs imageBase fun i => argValue (value i) := by
  rw [startState_x]
  refine startRegs_congr fun i hi => ?_
  rw [← h i hi]
  cases vals[i]? with
  | none => exact argValue_zero.symm
  | some v => rfl

variable [UnicodeDigits] {entries : List (List Char × ℤ)}

/-- The keys for an argument register: a letter and a number, in digits of any script. -/
inductive Names (k : List Char) (i : ℕ) : Prop
  | a {t : List Char} (hk : strip k = 'a' :: t) (ht : pyIsDigit t = true)
    (hn : pyInt t = some (i : ℤ)) (hi : i < 8)
  | x {t : List Char} (hk : strip k = 'x' :: t) (ht : pyIsDigit t = true)
    (hn : pyInt t = some (10 + i : ℤ)) (hi : i < 8)

/-- The messages about other keys. -/
inductive Refused (k : List Char) : List Char → Prop
  | unsupported (h : ∀ i, ¬ Names k i) :
    Refused k (text "unsupported input register key: " ++ strip k)
  | literal {c : Char} {t : List Char} (hk : strip k = c :: t) (hc : c = 'a' ∨ c = 'x')
    (ht : pyIsDigit t = true) (hn : pyInt t = none) : Refused k (invalidLiteral t)

theorem intOfDigits_map {t : List Char} {f : ℤ → Option ℕ} {r : Option ℕ}
    (h : (intOfDigits t).map f = .ok r) : ∃ z, pyInt t = some z ∧ f z = r := by
  unfold intOfDigits at h
  cases hz : pyInt t with
  | none =>
    rw [hz] at h
    cases h
  | some z =>
    rw [hz] at h
    exact ⟨z, rfl, Except.ok.inj h⟩

theorem intOfDigits_error {t msg : List Char} {f : ℤ → Option ℕ}
    (h : (intOfDigits t).map f = .error msg) : pyInt t = none ∧ msg = invalidLiteral t := by
  unfold intOfDigits at h
  cases hz : pyInt t with
  | none =>
    rw [hz] at h
    exact ⟨rfl, (Except.error.inj h).symm⟩
  | some z =>
    rw [hz] at h
    cases h

theorem inputIndex_ok_iff {k : List Char} {i : ℕ} : inputIndex k = .ok i ↔ Names k i := by
  constructor
  · intro h
    unfold inputIndex at h
    split at h
    · cases h
    · cases h
    · rename_i idx hk
      cases h
      unfold keyIndex at hk
      split at hk
      · rename_i t hs
        split_ifs at hk with ht
        · obtain ⟨z, hz, hf⟩ := intOfDigits_map hk
          split_ifs at hf with hr
          cases hf
          exact .a hs ht (by rw [hz, Int.toNat_of_nonneg hr.1]) (by omega)
        · cases hk
      · rename_i t hs
        split_ifs at hk with ht
        · obtain ⟨z, hz, hf⟩ := intOfDigits_map hk
          split_ifs at hf with hr
          cases hf
          have hadd : z = 10 + ((z - 10).toNat : ℤ) := by omega
          exact .x hs ht (hz.trans (congrArg some hadd)) (by omega)
        · cases hk
      · cases hk
  · rintro (⟨hk, ht, hn, hi⟩ | ⟨hk, ht, hn, hi⟩)
    · have hr : (0 : ℤ) ≤ i ∧ (i : ℤ) ≤ 7 := by omega
      simp only [inputIndex, hk, keyIndex, ht, if_true, intOfDigits, hn, Except.map, if_pos hr,
        Int.toNat_natCast]
    · have hr : (10 : ℤ) ≤ 10 + i ∧ (10 + i : ℤ) ≤ 17 := by omega
      have hsub : (10 + i - 10 : ℤ).toNat = i := by omega
      simp only [inputIndex, hk, keyIndex, ht, if_true, intOfDigits, hn, Except.map, if_pos hr,
        hsub]

theorem inputIndex_error {k msg : List Char} (h : inputIndex k = .error msg) :
    Refused k msg := by
  have hno : ∀ i, ¬ Names k i := by
    intro i hi
    rw [inputIndex_ok_iff.mpr hi] at h
    cases h
  unfold inputIndex at h
  split at h
  · rename_i msg' hk
    cases h
    unfold keyIndex at hk
    split at hk
    · rename_i t hs
      split_ifs at hk with ht
      obtain ⟨hn, rfl⟩ := intOfDigits_error hk
      exact .literal hs (Or.inl rfl) ht hn
    · rename_i t hs
      split_ifs at hk with ht
      obtain ⟨hn, rfl⟩ := intOfDigits_error hk
      exact .literal hs (Or.inr rfl) ht hn
    · cases hk
  · cases h
    exact .unsupported hno
  · cases h

theorem inputIndex_lt {k : List Char} {i : ℕ} (h : inputIndex k = .ok i) : i < 8 := by
  cases inputIndex_ok_iff.mp h with
  | a _ _ _ hi | x _ _ _ hi => exact hi

theorem pyIsDigit_toDigits (n : ℕ) : pyIsDigit (Nat.toDigits 10 n) = true := by
  rw [pyIsDigit, Bool.and_eq_true, List.all_eq_true]
  refine ⟨by simp, fun c hc => ?_⟩
  have hd : c.isDigit = true := Nat.isDigit_of_mem_toDigits (by decide) (by decide) hc
  have hlt : c.toNat < 128 := ascii_of_isDigit hd
  rw [UnicodeDigits.isDigit_ascii c hlt, hd]

/-- `a0` to `a7` and `x10` to `x17`. -/
theorem inputIndex_text {rn : RegName} (h : 10 ≤ rn.index) (h' : rn.index < 18) :
    inputIndex rn.text = .ok (rn.index - 10) := by
  have hint : ∀ n : ℕ, pyInt (Nat.toDigits 10 n) = some (n : ℤ) := fun n => by
    rw [← intText_natCast, pyInt_intText]
  have hlast : ∀ n, ∀ c ∈ (Nat.toDigits 10 n).getLast?, isSpace c = false := fun n => by
    rw [← intText_natCast]
    exact intText_last n
  have hstrip : strip rn.text = rn.text := by
    refine strip_of_ends (fun c hc => ?_) fun c hc => ?_
    · cases rn <;> cases hc <;> decide
    · cases rn with
      | x n | a n =>
        rw [RegName.text, List.getLast?_cons_of_ne_nil Nat.toDigits_ne_nil] at hc
        exact hlast _ c hc
  refine inputIndex_ok_iff.mpr ?_
  cases rn with
  | x n =>
    refine .x hstrip (pyIsDigit_toDigits n) ?_ (by omega)
    rw [hint]
    simp only [RegName.index] at h h' ⊢
    congr 1
    omega
  | a n =>
    refine .a hstrip (pyIsDigit_toDigits n) ?_ (by omega)
    rw [hint]
    simp only [RegName.index]
    congr 1
    omega

/-- The last value that is given for an argument register. -/
def lastInput (entries : List (List Char × ℤ)) (i : ℕ) : ℤ :=
  ((entries.filter fun e => (inputIndex e.1).toOption = some i).getLast?.map Prod.snd).getD 0

theorem lastInput_snoc (entries : List (List Char × ℤ)) {e : List Char × ℤ} {idx : ℕ}
    (he : inputIndex e.1 = .ok idx) (i : ℕ) :
    lastInput (entries ++ [e]) i = if idx = i then e.2 else lastInput entries i := by
  have hopt : (inputIndex e.1).toOption = some idx := by rw [he]; rfl
  unfold lastInput
  rw [List.filter_append]
  split_ifs with h
  · rw [List.filter_cons_of_pos (by simp [hopt, h]), List.filter_nil, List.getLast?_concat]
    rfl
  · rw [List.filter_cons_of_neg (by simp [hopt, h]), List.filter_nil, List.append_nil]

theorem lastInput_unset {i : ℕ} (h : ∀ e ∈ entries, inputIndex e.1 ≠ .ok i) :
    lastInput entries i = 0 := by
  have hnil : (entries.filter fun e => decide ((inputIndex e.1).toOption = some i)) = [] := by
    refine List.filter_eq_nil_iff.mpr fun e he hi => ?_
    cases hk : inputIndex e.1 with
    | error msg =>
      rw [hk] at hi
      cases of_decide_eq_true hi
    | ok j =>
      rw [hk] at hi
      cases of_decide_eq_true hi
      exact h e he hk
  rw [lastInput, hnil]
  rfl

/-- The lists after some entries. -/
structure Normalizes (done : List (List Char × ℤ)) (s : Normalized) : Prop where
  vals : s.vals.length = 8
  seen : s.seen.length = 8
  value : ∀ i < 8, s.vals.getD i 0 = lastInput done i
  set : ∀ i < 8, s.seen.getD i false = true ↔ ∃ e ∈ done, inputIndex e.1 = .ok i

theorem Normalizes.setInput {done : List (List Char × ℤ)} {s : Normalized} (h : Normalizes done s)
    {e : List Char × ℤ} {idx : ℕ} (he : inputIndex e.1 = .ok idx) :
    ∃ s', Lower.setInput s e = .ok s' ∧ Normalizes (done ++ [e]) s' := by
  have hidx := inputIndex_lt he
  refine ⟨⟨s.vals.set idx e.2, s.seen.set idx true⟩, by rw [Lower.setInput, he], ?_⟩
  refine ⟨by simpa using h.vals, by simpa using h.seen, fun i hi => ?_, fun i hi => ?_⟩
  · rw [lastInput_snoc done he, List.getD_eq_getElem?_getD, List.getElem?_set]
    by_cases hii : idx = i
    · have hlt : i < s.vals.length := by rw [h.vals]; exact hi
      simp [hii, hlt]
    · rw [if_neg hii, if_neg hii, ← List.getD_eq_getElem?_getD, h.value i hi]
  · rw [List.getD_eq_getElem?_getD, List.getElem?_set]
    by_cases hii : idx = i
    · have hlt : i < s.seen.length := by rw [h.seen]; exact hi
      simp only [hii, if_true, hlt, Option.getD_some, true_iff]
      exact ⟨e, by simp, hii ▸ he⟩
    · rw [if_neg hii, ← List.getD_eq_getElem?_getD, h.set i hi]
      constructor
      · rintro ⟨e', he', hi'⟩
        exact ⟨e', List.mem_append_left _ he', hi'⟩
      · rintro ⟨e', he', hi'⟩
        rcases List.mem_append.mp he' with he' | he'
        · exact ⟨e', he', hi'⟩
        · rw [List.mem_singleton.mp he', he] at hi'
          exact absurd (Except.ok.inj hi') hii

theorem Normalizes.run {done rest : List (List Char × ℤ)} {s : Normalized} (h : Normalizes done s)
    (hkeys : ∀ e ∈ rest, ∃ i, inputIndex e.1 = .ok i) :
    ∃ s', rest.foldlM Lower.setInput s = .ok s' ∧ Normalizes (done ++ rest) s' := by
  induction rest generalizing done s with
  | nil => exact ⟨s, rfl, by rwa [List.append_nil]⟩
  | cons e rest ih =>
    obtain ⟨idx, he⟩ := hkeys e (by simp)
    obtain ⟨s₁, hs₁, h₁⟩ := h.setInput he
    obtain ⟨s', hs', h'⟩ := ih h₁ fun e' he' => hkeys e' (List.mem_cons_of_mem _ he')
    refine ⟨s', ?_, by rwa [List.append_assoc] at h'⟩
    rw [List.foldlM_cons, hs₁]
    exact hs'

theorem normalizes_nil : Normalizes [] ⟨List.replicate 8 0, List.replicate 8 false⟩ := by
  refine ⟨rfl, rfl, fun i hi => ?_, fun i hi => ?_⟩
  · rw [List.getD_replicate _ hi]
    rfl
  · rw [List.getD_replicate _ hi]
    simp

/-- Values arrive at the positions of their registers, the last one for a register. -/
theorem normalize_value (hkeys : ∀ e ∈ entries, ∃ i, inputIndex e.1 = .ok i) :
    ∃ vals, normalizeInputsDict entries = .ok vals ∧
      ∀ i < 8, (vals[i]?).getD 0 = lastInput entries i := by
  obtain ⟨s, hs, h⟩ := normalizes_nil.run hkeys
  rw [List.nil_append] at h
  have hnone (hl : lastSeen s.seen = none) : normalizeInputsDict entries = .ok [] := by
    rw [normalizeInputsDict, hs]
    simp only [bind, Except.bind, hl]
    rfl
  have hsome {last} (hl : lastSeen s.seen = some last) :
      normalizeInputsDict entries = .ok (s.vals.take (last + 1)) := by
    rw [normalizeInputsDict, hs]
    simp only [bind, Except.bind, hl]
    rfl
  have hunseen : ∀ i < 8, s.seen.getD i false ≠ true → lastInput entries i = 0 := by
    intro i hi hns
    exact lastInput_unset fun e he hi' => hns ((h.set i hi).mpr ⟨e, he, hi'⟩)
  cases hl : lastSeen s.seen with
  | none =>
    refine ⟨[], hnone hl, fun i hi => (hunseen i hi ?_).symm⟩
    exact List.find?_eq_none.mp hl i (by simpa using hi)
  | some last =>
    refine ⟨_, hsome hl, fun i hi => ?_⟩
    rw [List.getElem?_take]
    split_ifs with hle
    · rw [← List.getD_eq_getElem?_getD, h.value i hi]
    · refine (hunseen i hi fun hseen => hle ?_).symm
      exact Nat.lt_succ_of_le (lastSeen_max hl hi hseen)

/-- The first key that names no argument register is reported. -/
theorem normalize_bad {done rest : List (List Char × ℤ)} {e : List Char × ℤ} {msg : List Char}
    (hdone : ∀ e ∈ done, ∃ i, inputIndex e.1 = .ok i) (he : inputIndex e.1 = .error msg) :
    normalizeInputsDict (done ++ e :: rest) = .error msg := by
  have hfold : ∀ s, (done ++ e :: rest).foldlM Lower.setInput s = .error msg := by
    induction done with
    | nil =>
      intro s
      have hset : Lower.setInput s e = .error msg := by rw [Lower.setInput, he]
      rw [List.nil_append, List.foldlM_cons, hset]
      rfl
    | cons d done ih =>
      intro s
      obtain ⟨idx, hd⟩ := hdone d (by simp)
      have hset : Lower.setInput s d = .ok ⟨s.vals.set idx d.2, s.seen.set idx true⟩ := by
        rw [Lower.setInput, hd]
      rw [List.cons_append, List.foldlM_cons, hset]
      exact ih (fun d' hd' => hdone d' (List.mem_cons_of_mem _ hd')) _
  rw [normalizeInputsDict, hfold]
  rfl

/-- What `run_binary_with_inputs` does with a dict: `a0` is unsigned where it was asked for, and
signed where it was not. -/
structure DictCall (m : ModuleAsm) (mem : BitVec 64)
    (translated : GuestState → List Chatter × (ℕ → BitVec 64)) (bin : List Char)
    (entries : List (List Char × ℤ)) (dump : List RegName) : Prop where
  names : ∀ rn : RegName, 10 ≤ rn.index → rn.index < 18 →
    inputIndex rn.text = .ok (rn.index - 10)
  returns : (∀ e ∈ entries, ∃ i, inputIndex e.1 = .ok i) → ∃ st outs,
    st.x = startRegs (imageBase m) (fun i => argValue (lastInput entries i)) ∧
      st.mem = mem - imageBase m ∧ st.memSize = memSz ∧
    runBinaryWithInputs (fun argv => some (RuntimeMain.main m mem translated argv)) bin entries
      (dump.map RegName.text) = .ok outs ∧
    ∀ name v, outs.lookup name = some v ↔
      (∃ rn ∈ dump.take 32, name = outName rn.index ∧ v = ((translated st).2 rn.index).toNat) ∨
        (∀ rn ∈ dump.take 32, rn.index ≠ 10) ∧ name = outName 10 ∧ v = ((translated st).2 10).toInt
  refuses : ∀ done e rest msg, entries = done ++ e :: rest →
    (∀ d ∈ done, ∃ i, inputIndex d.1 = .ok i) → inputIndex e.1 = .error msg → Refused e.1 msg ∧
      runBinaryWithInputs (fun argv => some (RuntimeMain.main m mem translated argv)) bin entries
        (dump.map RegName.text) = .error (.key msg)

/-- A dict of inputs, in any order and with any names for the argument registers. -/
theorem run_binary_returns (m : ModuleAsm) (mem : BitVec 64)
    (translated : GuestState → List Chatter × (ℕ → BitVec 64)) (bin : List Char)
    (entries : List (List Char × ℤ)) (dump : List RegName) :
    DictCall m mem translated bin entries dump where
  names rn h h' := inputIndex_text h h'
  returns hkeys := by
    obtain ⟨vals, hvals, hvalue⟩ := normalize_value hkeys
    obtain ⟨cs, x, hx⟩ : ∃ cs x, translated (startState (imageBase m) mem vals) = (cs, x) :=
      ⟨_, _, rfl⟩
    have hrun : runFunction (fun argv => some (RuntimeMain.main m mem translated argv)) bin vals
        (dump.map RegName.text) = .ok ((x 10).toInt, readOuts dump x) := runFunction_main hx
    have hname : text "x10" = outName 10 := rfl
    refine ⟨startState (imageBase m) mem vals, if outName 10 ∈ readOuts dump x then readOuts dump x
      else (readOuts dump x).insert (outName 10) (x 10).toInt, startState_values hvalue, rfl, rfl,
      ?_, fun name v => ?_⟩
    · rw [runBinaryWithInputs, hvals]
      simp only [hrun, hname]
    · rw [hx]
      exact setdefault_lookup dump x name v
  refuses done e rest msg heq hdone he := by
    refine ⟨inputIndex_error he, ?_⟩
    rw [runBinaryWithInputs, heq, normalize_bad hdone he]

end Dict

end Riscy.Lower
