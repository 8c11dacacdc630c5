import Mathlib

/-! Text as lists of characters: words between separators, and numbers in a base up to 16. What
is printed is read again. -/
namespace Riscy.TextScan

section Tokens
variable {α : Type*} (sep : α → Bool)

/-- The longest runs without a separator. -/
def tokens (s : List α) : List (List α) := (s.splitOnP sep).filter fun w => !w.isEmpty

variable {sep} {a : α} {w s : List α}

@[simp] theorem tokens_nil : tokens sep [] = [] := by
  simp [tokens]

theorem tokens_sep (ha : sep a = true) : tokens sep (a :: s) = tokens sep s := by
  rw [tokens, List.splitOnP_cons_eq_if_modifyHead, if_pos ha, List.filter_cons_of_neg (by simp)]
  rfl

theorem tokens_last (hne : w ≠ []) (hw : ∀ x ∈ w, sep x = false) : tokens sep w = [w] := by
  rw [tokens, List.splitOnP_eq_singleton hw, List.filter_cons_of_pos (by simpa using hne),
    List.filter_nil]

theorem tokens_word (hne : w ≠ []) (hw : ∀ x ∈ w, sep x = false) (ha : sep a = true) :
    tokens sep (w ++ a :: s) = w :: tokens sep s := by
  rw [tokens, List.splitOnP_append_cons_of_forall_mem hw a ha,
    List.filter_cons_of_pos (by simpa using hne)]
  rfl

theorem tokens_append {u : List α} (ha : sep a = true) :
    tokens sep (u ++ a :: s) = tokens sep u ++ tokens sep s := by
  rw [tokens, List.splitOnP_append_cons u s ha, List.filter_append]
  rfl

theorem tokens_seps {u : List α} (hu : ∀ x ∈ u, sep x = true) :
    tokens sep (u ++ s) = tokens sep s := by
  induction u with
  | nil => rfl
  | cons a u ih =>
    rw [List.cons_append, tokens_sep (hu a (by simp)),
      ih fun x hx => hu x (List.mem_cons_of_mem _ hx)]

/-- A word and the separators behind it. -/
theorem tokens_words {u : List α} (hne : w ≠ []) (hw : ∀ x ∈ w, sep x = false) (hu : u ≠ [])
    (hsep : ∀ x ∈ u, sep x = true) : tokens sep (w ++ (u ++ s)) = w :: tokens sep s := by
  obtain ⟨a, u, rfl⟩ := List.exists_cons_of_ne_nil hu
  rw [List.cons_append, tokens_word hne hw (hsep a (by simp)),
    tokens_seps fun x hx => hsep x (List.mem_cons_of_mem _ hx)]

/-- Texts that are joined with separators. -/
theorem tokens_intercalate {u : List α} (hu : u ≠ []) (hsep : ∀ x ∈ u, sep x = true)
    (ws : List (List α)) : tokens sep (u.intercalate ws) = ws.flatMap (tokens sep) := by
  induction ws with
  | nil => exact tokens_nil
  | cons w ws ih =>
    cases ws with
    | nil => rw [List.intercalate_singleton, List.flatMap_singleton]
    | cons v ws =>
      obtain ⟨a, u, rfl⟩ := List.exists_cons_of_ne_nil hu
      rw [List.intercalate_cons_cons, List.append_assoc, List.cons_append,
        tokens_append (hsep a (by simp)),
        tokens_seps fun x hx => hsep x (List.mem_cons_of_mem _ hx), ih]
      rfl

theorem mem_intercalate {u : List α} {ws : List (List α)} (h : a ∈ u.intercalate ws) :
    a ∈ u ∨ ∃ w ∈ ws, a ∈ w := by
  induction ws with
  | nil => cases h
  | cons w ws ih =>
    cases ws with
    | nil => exact Or.inr ⟨w, by simp, by simpa using h⟩
    | cons v ws =>
      rw [List.intercalate_cons_cons, List.append_assoc, List.mem_append, List.mem_append] at h
      rcases h with h | h | h
      · exact Or.inr ⟨w, by simp, h⟩
      · exact Or.inl h
      · rcases ih h with h | ⟨x, hx, h⟩
        · exact Or.inl h
        · exact Or.inr ⟨x, List.mem_cons_of_mem _ hx, h⟩

theorem flatMap_tokens {ws : List (List α)} (hne : ∀ w ∈ ws, w ≠ [])
    (hsep : ∀ w ∈ ws, ∀ x ∈ w, sep x = false) : ws.flatMap (tokens sep) = ws := by
  induction ws with
  | nil => rfl
  | cons w ws ih =>
    rw [List.flatMap_cons, tokens_last (hne w (by simp)) (hsep w (by simp)),
      ih (fun v hv => hne v (List.mem_cons_of_mem _ hv))
        fun v hv => hsep v (List.mem_cons_of_mem _ hv)]
    rfl

/-- Words are found one by one: skip separators, then take what is none. -/
theorem tokens_scan (s : List α) : tokens sep s = match s.dropWhile sep with
    | [] => []
    | a :: t => (a :: t).takeWhile (fun x => !sep x) ::
        tokens sep ((a :: t).dropWhile fun x => !sep x) := by
  have hskip : tokens sep s = tokens sep (s.dropWhile sep) := by
    conv_lhs => rw [← List.takeWhile_append_dropWhile (p := sep) (l := s)]
    exact tokens_seps fun x hx => List.mem_takeWhile_imp hx
  rw [hskip]
  cases hd : s.dropWhile sep with
  | nil => rfl
  | cons a t =>
    have ha : sep a = false := by
      have hh := List.head?_dropWhile_not sep s
      rw [hd] at hh
      simpa using hh
    simp only
    obtain ⟨w, hw⟩ : ∃ w, w = (a :: t).takeWhile fun x => !sep x := ⟨_, rfl⟩
    obtain ⟨r, hr⟩ : ∃ r, r = (a :: t).dropWhile fun x => !sep x := ⟨_, rfl⟩
    have hne : w ≠ [] := by
      rw [hw, List.takeWhile_cons_of_pos (by simp [ha])]
      simp
    have hwords : ∀ x ∈ w, sep x = false := by
      intro x hx
      rw [hw] at hx
      simpa using List.mem_takeWhile_imp hx
    rw [← hw, ← hr]
    conv_lhs => rw [← List.takeWhile_append_dropWhile (p := fun x => !sep x) (l := a :: t), ← hw,
      ← hr]
    cases hr' : r with
    | nil => rw [List.append_nil, tokens_last hne hwords, tokens_nil]
    | cons b u =>
      have hb : sep b = true := by
        have hh := List.head?_dropWhile_not (fun x => !sep x) (a :: t)
        rw [← hr, hr'] at hh
        simpa using hh
      rw [tokens_word hne hwords hb, tokens_sep hb]

/-- Words found in one pass; `w` is the word so far. -/
def scanTokens (sep : α → Bool) : List α → List α → List (List α)
  | w, [] => if w = [] then [] else [w]
  | w, a :: s =>
    if sep a then if w = [] then scanTokens sep [] s else w :: scanTokens sep [] s
    else scanTokens sep (w ++ [a]) s

theorem tokens_scanTokens (hw : ∀ x ∈ w, sep x = false) :
    tokens sep (w ++ s) = scanTokens sep w s := by
  induction s generalizing w with
  | nil =>
    rw [List.append_nil, scanTokens]
    split_ifs with h
    · rw [h, tokens_nil]
    · exact tokens_last h hw
  | cons a s ih =>
    rw [scanTokens]
    split_ifs with ha h
    · rw [h, List.nil_append, tokens_sep ha, ← ih (by simp), List.nil_append]
    · rw [tokens_word h hw ha, ← ih (by simp), List.nil_append]
    · rw [← ih, List.append_assoc, List.singleton_append]
      exact List.forall_mem_append.mpr ⟨hw, by simpa using ha⟩

/-- The pass from the start of a text. -/
theorem tokens_eq_scan (s : List α) : tokens sep s = scanTokens sep [] s :=
  tokens_scanTokens (w := []) (by simp)

theorem scanTokens_word (hne : w ≠ []) (hw : ∀ x ∈ w, sep x = false) (ha : sep a = true) :
    scanTokens sep [] (w ++ a :: s) = w :: scanTokens sep [] s := by
  rw [← tokens_eq_scan, tokens_word hne hw ha, tokens_eq_scan]

theorem scanTokens_last (hne : w ≠ []) (hw : ∀ x ∈ w, sep x = false) :
    scanTokens sep [] w = [w] := by
  rw [← tokens_eq_scan, tokens_last hne hw]

/-- Each list with `a` behind it. -/
def terminate (a : α) (ls : List (List α)) : List α := ls.flatMap fun l => l ++ [a]

theorem splitOnP_terminate (ha : sep a = true) {ls : List (List α)}
    (h : ∀ l ∈ ls, ∀ x ∈ l, sep x = false) : (terminate a ls).splitOnP sep = ls ++ [[]] := by
  induction ls with
  | nil => exact List.splitOnP_nil
  | cons l ls ih =>
    have hcons : terminate a (l :: ls) = l ++ a :: terminate a ls := by
      simp [terminate]
    rw [hcons, List.splitOnP_append_cons_of_forall_mem (h l (by simp)) _ ha,
      ih fun l' hl' => h l' (List.mem_cons_of_mem _ hl')]
    rfl

end Tokens

/-- The characters of a literal. -/
def text (s : String) : List Char := s.toList

@[simp] theorem text_inj {s t : String} : text s = text t ↔ s = t := String.toList_inj

/-- Lines of text. -/
def unlines (ls : List (List Char)) : List Char := terminate '\n' ls

theorem unlines_flatten (lss : List (List (List Char))) :
    unlines lss.flatten = (lss.map unlines).flatten := by
  induction lss with
  | nil => rfl
  | cons ls lss ih =>
    rw [List.map_cons, List.flatten_cons, List.flatten_cons, ← ih]
    exact List.flatMap_append

section Numbers
variable {b n : ℕ} {c : Char} {s : List Char}

def digitVal (c : Char) : Option ℕ :=
  if '0' ≤ c ∧ c ≤ '9' then some (c.toNat - '0'.toNat)
  else if 'a' ≤ c ∧ c ≤ 'f' then some (c.toNat - 'a'.toNat + 10)
  else if 'A' ≤ c ∧ c ≤ 'F' then some (c.toNat - 'A'.toNat + 10)
  else none

def isDigitOf (b : ℕ) (c : Char) : Bool := (digitVal c).any (· < b)

/-- The value of the longest run of digits at the start, and what is behind it. -/
def scanDigits (b : ℕ) : ℕ → List Char → ℕ × List Char
  | v, [] => (v, [])
  | v, c :: s => match digitVal c with
    | some d => if d < b then scanDigits b (v * b + d) s else (v, c :: s)
    | none => (v, c :: s)

/-- A text that is all digits. -/
def readNat (b : ℕ) (s : List Char) : Option ℕ :=
  if s ≠ [] ∧ (scanDigits b 0 s).2 = [] then some (scanDigits b 0 s).1 else none

def intText (z : ℤ) : List Char :=
  if z < 0 then '-' :: Nat.toDigits 10 z.natAbs else Nat.toDigits 10 z.natAbs

def readInt : List Char → Option ℤ
  | '-' :: s => (readNat 10 s).map fun n : ℕ => -(n : ℤ)
  | s => (readNat 10 s).map fun n : ℕ => (n : ℤ)

theorem digitVal_digitChar (h : n < 16) : digitVal n.digitChar = some n := by
  have hall : ∀ m < 16, digitVal (Nat.digitChar m) = some m := by decide
  exact hall n h

theorem digit_ne {d : Char} (h : isDigitOf b c = true) (hd : digitVal d = none) : c ≠ d := by
  rintro rfl
  rw [isDigitOf, hd] at h
  cases h

theorem isDigitOf_mem (hb : 1 < b) (hb' : b ≤ 16) (hc : c ∈ Nat.toDigits b n) :
    isDigitOf b c = true := by
  induction n using Nat.strong_induction_on with
  | h n ih =>
    have hdigit : ∀ m < b, isDigitOf b m.digitChar = true := by
      intro m hm
      rw [isDigitOf, digitVal_digitChar (by omega)]
      simpa using hm
    rw [Nat.toDigits_eq_if hb] at hc
    split_ifs at hc with hn
    · rw [List.mem_singleton.mp hc]
      exact hdigit n hn
    · rcases List.mem_append.mp hc with hc | hc
      · exact ih (n / b) (Nat.div_lt_self (by omega) hb) hc
      · rw [List.mem_singleton.mp hc]
        exact hdigit _ (Nat.mod_lt _ (by omega))

/-- Digits end where the text ends, or something else stands. -/
def Ends (b : ℕ) (s : List Char) : Prop := ∀ c ∈ s.head?, isDigitOf b c = false

theorem scanDigits_stop (h : Ends b s) (v : ℕ) : scanDigits b v s = (v, s) := by
  cases s with
  | nil => rfl
  | cons c s =>
    have hc := h c rfl
    rw [scanDigits]
    cases hd : digitVal c with
    | none => rfl
    | some d =>
      rw [isDigitOf, hd] at hc
      exact if_neg (by simpa using hc)

theorem scanDigits_toDigits (hb : 1 < b) (hb' : b ≤ 16) (n v : ℕ) (s : List Char) :
    scanDigits b v (Nat.toDigits b n ++ s) =
      scanDigits b (v * b ^ (Nat.toDigits b n).length + n) s := by
  induction n using Nat.strong_induction_on generalizing v s with
  | h n ih =>
    have hone : ∀ m < b, ∀ v s, scanDigits b v (m.digitChar :: s) = scanDigits b (v * b + m) s := by
      intro m hm v s
      rw [scanDigits, digitVal_digitChar (by omega)]
      exact if_pos hm
    rw [Nat.toDigits_eq_if hb]
    split_ifs with hn
    · rw [List.singleton_append, hone n hn, List.length_singleton, pow_one]
    · rw [List.append_assoc, ih (n / b) (Nat.div_lt_self (by omega) hb), List.singleton_append,
        hone _ (Nat.mod_lt _ (by omega)), List.length_append, List.length_singleton, pow_succ]
      congr 1
      rw [Nat.add_mul, Nat.mul_assoc, Nat.add_assoc, Nat.mul_comm (n / b), Nat.div_add_mod]

/-- A printed number is read back, and the rest is left. -/
theorem scanDigits_printed (hb : 1 < b) (hb' : b ≤ 16) (n : ℕ) (h : Ends b s) :
    scanDigits b 0 (Nat.toDigits b n ++ s) = (n, s) := by
  rw [scanDigits_toDigits hb hb', scanDigits_stop h, Nat.zero_mul, Nat.zero_add]

theorem ends_nil : Ends b [] := fun c hc => by cases hc

theorem readNat_toDigits (hb : 1 < b) (hb' : b ≤ 16) (n : ℕ) :
    readNat b (Nat.toDigits b n) = some n := by
  have h := scanDigits_printed hb hb' n (ends_nil (b := b))
  rw [List.append_nil] at h
  rw [readNat, h, if_pos ⟨Nat.toDigits_ne_nil, rfl⟩]

def hex {w : ℕ} (v : BitVec w) : List Char := Nat.toDigits 16 v.toNat

def hexText {w : ℕ} (v : BitVec w) : List Char := '0' :: 'x' :: hex v

def readHex (w : ℕ) : List Char → Option (BitVec w)
  | '0' :: 'x' :: s => (readNat 16 s).map (BitVec.ofNat w)
  | _ => none

theorem readHex_hexText {w : ℕ} (v : BitVec w) : readHex w (hexText v) = some v := by
  rw [hexText, readHex, hex, readNat_toDigits (by decide) (by decide), Option.map_some,
    BitVec.ofNat_toNat, BitVec.setWidth_eq]

theorem hexText_mem {w : ℕ} {v : BitVec w} (hc : c ∈ hexText v) :
    c = 'x' ∨ isDigitOf 16 c = true := by
  rcases List.mem_cons.mp hc with rfl | hc
  · exact Or.inr (by decide)
  · exact (List.mem_cons.mp hc).imp_right fun hc => isDigitOf_mem (by decide) (by decide) hc

theorem digitVal_minus : digitVal '-' = none := by decide

theorem toDigits_no_minus (n : ℕ) : (Nat.toDigits 10 n).head? ≠ some '-' := by
  intro h
  have hm := isDigitOf_mem (by decide : 1 < 10) (by decide) (List.mem_of_mem_head? h)
  rw [isDigitOf, digitVal_minus] at hm
  cases hm

theorem readInt_intText (z : ℤ) : readInt (intText z) = some z := by
  have hread := readNat_toDigits (by decide : 1 < 10) (by decide) z.natAbs
  unfold intText
  split_ifs with hz
  · have habs : -(z.natAbs : ℤ) = z := by omega
    rw [readInt, hread, Option.map_some, habs]
  · have hne := toDigits_no_minus z.natAbs
    unfold readInt
    split
    · rename_i s hs
      rw [hs] at hne
      exact absurd rfl hne
    · have habs : (z.natAbs : ℤ) = z := by omega
      rw [hread, Option.map_some, habs]

theorem intText_ne_nil (z : ℤ) : intText z ≠ [] := by
  unfold intText
  split_ifs <;> simp

theorem intText_mem {z : ℤ} (hc : c ∈ intText z) : c = '-' ∨ isDigitOf 10 c = true := by
  unfold intText at hc
  split_ifs at hc
  · rcases List.mem_cons.mp hc with rfl | hc
    · exact Or.inl rfl
    · exact Or.inr (isDigitOf_mem (by decide) (by decide) hc)
  · exact Or.inr (isDigitOf_mem (by decide) (by decide) hc)

end Numbers

section Named
variable {α : Type*}

/-- The member of a list that has a name. -/
def findNamed (all : List α) (name : α → String) (w : List Char) : Option α :=
  all.find? fun a => text (name a) = w

theorem mapM_map {β : Type*} (f : α → Option β) (g : β → α) (h : ∀ b, f (g b) = some b)
    (bs : List β) : (bs.map g).mapM f = some bs := by
  induction bs with
  | nil => rfl
  | cons b bs ih =>
    rw [List.map_cons, List.mapM_cons, h b, ih]
    rfl

end Named

section Lines
variable {α β : Type*} {read : List Char → Option (List β)} {ls ls' : List (List Char)}
  {bs bs' : List β}

/-- Every line on its own, one after another. -/
def readLines (read : List Char → Option (List β)) : List (List Char) → Option (List β)
  | [] => some []
  | l :: ls => do return (← read l) ++ (← readLines read ls)

def readText (read : List Char → Option (List β)) (s : List Char) : Option (List β) :=
  readLines read (s.splitOnP (· = '\n'))

/-- Lines, none of them broken, and what they are read as. -/
structure Reads (read : List Char → Option (List β)) (ls : List (List Char)) (bs : List β) :
    Prop where
  oneLine : ∀ l ∈ ls, '\n' ∉ l
  read : readLines read ls = some bs

theorem Reads.nil : Reads read [] [] := ⟨by simp, rfl⟩

theorem Reads.cons {l : List Char} {b : List β} (hl : '\n' ∉ l) (hb : read l = some b)
    (h : Reads read ls bs) : Reads read (l :: ls) (b ++ bs) where
  oneLine := List.forall_mem_cons.mpr ⟨hl, h.oneLine⟩
  read := by
    rw [readLines, hb, h.read]
    rfl

theorem Reads.one {l : List Char} {b : β} (hl : '\n' ∉ l) (hb : read l = some [b]) :
    Reads read [l] [b] :=
  Reads.cons hl hb .nil

theorem Reads.append (h : Reads read ls bs) (h' : Reads read ls' bs') :
    Reads read (ls ++ ls') (bs ++ bs') := by
  refine ⟨List.forall_mem_append.mpr ⟨h.oneLine, h'.oneLine⟩, ?_⟩
  have hread := h.read
  clear h
  induction ls generalizing bs with
  | nil =>
    cases hread
    exact h'.read
  | cons l ls ih =>
    rw [readLines] at hread
    obtain ⟨b, hb, hread⟩ := Option.bind_eq_some_iff.mp hread
    obtain ⟨bs, hbs, hread⟩ := Option.bind_eq_some_iff.mp hread
    cases hread
    rw [List.cons_append, readLines, hb, ih hbs, List.append_assoc]
    rfl

theorem Reads.flatMap {f : α → List (List Char)} {g : α → List β} {as : List α}
    (h : ∀ a ∈ as, Reads read (f a) (g a)) : Reads read (as.flatMap f) (as.flatMap g) := by
  induction as with
  | nil => exact Reads.nil
  | cons a as ih =>
    rw [List.flatMap_cons, List.flatMap_cons]
    exact (h a (by simp)).append (ih fun b hb => h b (List.mem_cons_of_mem _ hb))

theorem Reads.map {f : α → List Char} {g : α → β} {as : List α}
    (h : ∀ a ∈ as, Reads read [f a] [g a]) : Reads read (as.map f) (as.map g) := by
  rw [List.map_eq_flatMap, List.map_eq_flatMap]
  exact Reads.flatMap h

theorem Reads.text (hempty : read [] = some []) (h : Reads read ls bs) :
    readText read (unlines ls) = some bs := by
  have hsplit : (unlines ls).splitOnP (· = '\n') = ls ++ [[]] := by
    refine splitOnP_terminate (by simp) fun l hl c hc => ?_
    have hne : c ≠ '\n' := fun he => h.oneLine l hl (he ▸ hc)
    simpa using hne
  have hend : Reads read [[]] [] := Reads.cons (b := []) (by simp) hempty Reads.nil
  rw [readText, hsplit]
  simpa using (h.append hend).read

end Lines

section Parts
variable {β γ : Type*} {ι τ : Type} {head : β → Option γ} {label : γ → β}

/-- Every heading with what stands up to the next one. -/
def parts (head : β → Option γ) : List β → List (γ × List β)
  | [] => []
  | b :: bs => match head b with
    | some c => (c, bs.takeWhile fun x => (head x).isNone) :: parts head bs
    | none => parts head bs

def unparts (label : γ → β) (ps : List (γ × List β)) : List β :=
  ps.flatMap fun p => label p.1 :: p.2

theorem parts_skip {bs bs' : List β} (h : ∀ b ∈ bs, head b = none) :
    parts head (bs ++ bs') = parts head bs' := by
  induction bs with
  | nil => rfl
  | cons b bs ih =>
    rw [List.cons_append, parts, h b (by simp)]
    exact ih fun c hc => h c (List.mem_cons_of_mem _ hc)

theorem parts_unparts (hl : ∀ c, head (label c) = some c) {ps : List (γ × List β)}
    (h : ∀ p ∈ ps, ∀ b ∈ p.2, head b = none) : parts head (unparts label ps) = ps := by
  induction ps with
  | nil => rfl
  | cons p ps ih =>
    obtain ⟨c, body⟩ := p
    have hbody := h (c, body) (by simp)
    have htake : (body ++ unparts label ps).takeWhile (fun x => (head x).isNone) = body := by
      rw [List.takeWhile_append_of_pos fun b hb => by simp [hbody b hb]]
      cases ps with
      | nil => simp [unparts]
      | cons q ps => simp [unparts, hl]
    have hcons : unparts label ((c, body) :: ps) = label c :: (body ++ unparts label ps) := by
      simp [unparts]
    rw [hcons, parts, hl, htake, parts_skip hbody, ih fun q hq => h q (List.mem_cons_of_mem _ hq)]

/-- Items, and then one thing of another kind. -/
def readBody (item : β → Option ι) (last : β → Option τ) (bs : List β) : Option (List ι × τ) := do
  let t ← bs.getLast?.bind last
  return (← bs.dropLast.mapM item, t)

theorem readBody_map (item : β → Option ι) (last : β → Option τ) (f : ι → β) (g : τ → β)
    (hf : ∀ i, item (f i) = some i) (hg : ∀ t, last (g t) = some t) (is : List ι) (t : τ) :
    readBody item last (is.map f ++ [g t]) = some (is, t) := by
  simp [readBody, hg, mapM_map item f hf]

end Parts

end Riscy.TextScan
