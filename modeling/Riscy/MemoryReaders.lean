import Mathlib

/-! The readers of guest code: the executable sections of an ELF image, and one span of
bytes. Indexing outside the data is an explicit fault. -/
namespace Riscy

/-- A byte index outside the data of a section. -/
structure OutOfBounds where
  index : ℕ
  deriving DecidableEq, Repr

/-- An executable section, which ends below the top of the address space. -/
structure SectionSpan where
  va : BitVec 64
  data : List (BitVec 8)
  fits : va.toNat + data.length < 2 ^ 64

def SectionSpan.size (s : SectionSpan) : BitVec 64 := BitVec.ofNat 64 s.data.length

structure ELFImage where
  execSections : List SectionSpan
  loaded : Bool

/-- `data[i]`. -/
def byteAt (data : List (BitVec 8)) (i : ℕ) : Except OutOfBounds (BitVec 8) :=
  match data[i]? with
  | some b => .ok b
  | none => .error ⟨i⟩

/-- `memcpy` of `n` bytes from `data + off`. -/
def copy (data : List (BitVec 8)) (off n : ℕ) : Except OutOfBounds (List (BitVec 8)) :=
  (List.range n).mapM fun i => byteAt data (off + i)

/-- The loop over the sections in `ELFImage::read`, with its 64-bit sums. -/
def readFrom (va : BitVec 64) (n : ℕ) :
    List SectionSpan → Except OutOfBounds (Option (List (BitVec 8)))
  | [] => .ok none
  | s :: rest =>
    if va < s.va then readFrom va n rest
    else if va + BitVec.ofNat 64 n > s.va + s.size then readFrom va n rest
    else do return some (← copy s.data (va - s.va).toNat n)

def ELFImage.read (img : ELFImage) (va : BitVec 64) (n : ℕ) :
    Except OutOfBounds (Option (List (BitVec 8))) :=
  if img.loaded then readFrom va n img.execSections else .ok none

/-- Four bytes, the lowest first. -/
def assemble (b0 b1 b2 b3 : BitVec 8) : BitVec 32 :=
  b0.setWidth 32 ||| (b1.setWidth 32 <<< 8) ||| (b2.setWidth 32 <<< 16) |||
    (b3.setWidth 32 <<< 24)

/-- `ELFMemoryReader::read32`. -/
def ELFImage.read32 (img : ELFImage) (addr : BitVec 64) :
    Except OutOfBounds (Option (BitVec 32)) := do
  match ← img.read addr 4 with
  | none => return none
  | some buf =>
    let word := assemble (← byteAt buf 0) (← byteAt buf 1) (← byteAt buf 2) (← byteAt buf 3)
    return some word

structure SpanMemoryReader where
  base : BitVec 64
  data : List (BitVec 8)

def SpanMemoryReader.read32 (m : SpanMemoryReader) (addr : BitVec 64) :
    Except OutOfBounds (Option (BitVec 32)) :=
  if addr < m.base then .ok none
  else
    let off := addr - m.base
    if off + 4 > BitVec.ofNat 64 m.data.length then .ok none
    else do
      let p := off.toNat
      let word := assemble (← byteAt m.data p) (← byteAt m.data (p + 1))
        (← byteAt m.data (p + 2)) (← byteAt m.data (p + 3))
      return some word

section Spec

/-- The section holds the `n` bytes from `a` on, over the integers. -/
def SectionSpan.Covers (s : SectionSpan) (a : BitVec 64) (n : ℕ) : Prop :=
  s.va.toNat ≤ a.toNat ∧ a.toNat + n ≤ s.va.toNat + s.data.length

instance (s : SectionSpan) (a : BitVec 64) (n : ℕ) : Decidable (s.Covers a n) := by
  unfold SectionSpan.Covers
  infer_instance

/-- The little-endian word at an address of the section. -/
def SectionSpan.wordAt (s : SectionSpan) (a : BitVec 64) : BitVec 32 :=
  BitVec.ofNat 32 (Nat.ofDigits 256
    (((s.data.drop (a.toNat - s.va.toNat)).take 4).map BitVec.toNat))

/-- The word of the first section that holds it. -/
def exactWord (sections : List SectionSpan) (a : BitVec 64) : Option (BitVec 32) :=
  (sections.find? fun s => s.Covers a 4).map fun s => s.wordAt a

/-- Both readers return the exact word, and index no byte outside a section. -/
structure ReadersExact (sections : List SectionSpan) (a : BitVec 64) : Prop where
  image : (ELFImage.mk sections true).read32 a = .ok (exactWord sections a)
  span : ∀ s ∈ sections,
    (SpanMemoryReader.mk s.va s.data).read32 a = (ELFImage.mk [s] true).read32 a

/-- The sum `a + 4` does not wrap around to a value within a section that starts at or
below `a`. -/
def WrapsOutside (sections : List SectionSpan) (a : BitVec 64) : Prop :=
  ∀ s ∈ sections, s.va.toNat ≤ a.toNat →
    a.toNat + 4 < 2 ^ 64 ∨ s.va.toNat + s.data.length < a.toNat + 4 - 2 ^ 64

end Spec

section Bytes

theorem byteAt_ok {data : List (BitVec 8)} {i : ℕ} (h : i < data.length) :
    byteAt data i = .ok data[i] := by
  rw [byteAt, List.getElem?_eq_getElem h]

theorem byteAt_error {data : List (BitVec 8)} {i : ℕ} (h : data.length ≤ i) :
    byteAt data i = .error ⟨i⟩ := by
  rw [byteAt, List.getElem?_eq_none h]

theorem copy_four {data : List (BitVec 8)} {off : ℕ} (h : off + 4 ≤ data.length) :
    copy data off 4 = .ok [data[off], data[off + 1], data[off + 2], data[off + 3]] := by
  have h0 : byteAt data (off + 0) = .ok data[off] := byteAt_ok (by omega)
  have h1 : byteAt data (off + 1) = .ok data[off + 1] := byteAt_ok (by omega)
  have h2 : byteAt data (off + 2) = .ok data[off + 2] := byteAt_ok (by omega)
  have h3 : byteAt data (off + 3) = .ok data[off + 3] := byteAt_ok (by omega)
  have hrange : List.range 4 = [0, 1, 2, 3] := rfl
  simp only [copy, hrange, List.mapM_cons, List.mapM_nil, h0, h1, h2, h3, bind, Except.bind]
  rfl

/-- A copy that runs past the data faults. -/
theorem copy_past {data : List (BitVec 8)} {off : ℕ} (h : data.length < off + 4) :
    ∃ e, copy data off 4 = .error e := by
  have hrange : List.range 4 = [0, 1, 2, 3] := rfl
  have h3 : byteAt data (off + 3) = .error ⟨off + 3⟩ := byteAt_error (by omega)
  simp only [copy, hrange, List.mapM_cons, h3, bind, Except.bind]
  cases byteAt data (off + 0) with
  | error e => exact ⟨e, rfl⟩
  | ok b0 =>
    cases byteAt data (off + 1) with
    | error e => exact ⟨e, rfl⟩
    | ok b1 =>
      cases byteAt data (off + 2) with
      | error e => exact ⟨e, rfl⟩
      | ok b2 => exact ⟨_, rfl⟩

theorem or_shifted {x y i : ℕ} (hx : x < 2 ^ i) : x ||| y * 2 ^ i = x + 2 ^ i * y := by
  rw [Nat.mul_comm, Nat.lor_comm, ← Nat.two_pow_add_eq_or_of_lt hx, Nat.add_comm]

/-- The assembled bytes are the digits of the word to base 256. -/
theorem assemble_eq (b0 b1 b2 b3 : BitVec 8) : assemble b0 b1 b2 b3 =
    BitVec.ofNat 32 (Nat.ofDigits 256 ([b0, b1, b2, b3].map BitVec.toNat)) := by
  have h0 := b0.isLt
  have h1 := b1.isLt
  have h2 := b2.isLt
  have h3 := b3.isLt
  have hbyte : ∀ (b : BitVec 8) (k : ℕ), k ≤ 24 →
      (b.setWidth 32 <<< k).toNat = b.toNat * 2 ^ k := by
    intro b k hk
    have hb := b.isLt
    have hp := Nat.pow_le_pow_right (n := 2) (by omega) hk
    have hlt : b.toNat * 2 ^ k < 2 ^ 32 := by
      calc b.toNat * 2 ^ k < 2 ^ 8 * 2 ^ k := Nat.mul_lt_mul_of_pos_right hb (Nat.two_pow_pos k)
        _ ≤ 2 ^ 8 * 2 ^ 24 := Nat.mul_le_mul_left _ hp
    rw [BitVec.toNat_shiftLeft, BitVec.toNat_setWidth, Nat.shiftLeft_eq,
      Nat.mod_eq_of_lt (by omega : b.toNat < 2 ^ 32), Nat.mod_eq_of_lt hlt]
  apply BitVec.eq_of_toNat_eq
  have hlow : (b0.setWidth 32).toNat = b0.toNat := by
    rw [BitVec.toNat_setWidth]
    omega
  have hor1 : b0.toNat ||| b1.toNat * 2 ^ 8 = b0.toNat + 2 ^ 8 * b1.toNat := or_shifted h0
  have hor2 : (b0.toNat + 2 ^ 8 * b1.toNat) ||| b2.toNat * 2 ^ 16 =
      b0.toNat + 2 ^ 8 * b1.toNat + 2 ^ 16 * b2.toNat := or_shifted (by omega)
  have hor3 : (b0.toNat + 2 ^ 8 * b1.toNat + 2 ^ 16 * b2.toNat) ||| b3.toNat * 2 ^ 24 =
      b0.toNat + 2 ^ 8 * b1.toNat + 2 ^ 16 * b2.toNat + 2 ^ 24 * b3.toNat :=
    or_shifted (by omega)
  rw [assemble, BitVec.toNat_or, BitVec.toNat_or, BitVec.toNat_or, hlow, hbyte b1 8 (by omega),
    hbyte b2 16 (by omega), hbyte b3 24 (by omega), hor1, hor2, hor3, BitVec.toNat_ofNat]
  simp only [List.map_cons, List.map_nil, Nat.ofDigits_cons, Nat.ofDigits_nil]
  omega

/-- The word of a section at an offset within it. -/
theorem wordAt_eq {s : SectionSpan} {a : BitVec 64} {off : ℕ} (ho : a.toNat - s.va.toNat = off)
    (h : off + 4 ≤ s.data.length) : s.wordAt a =
      assemble s.data[off] s.data[off + 1] s.data[off + 2] s.data[off + 3] := by
  have hdrop : (s.data.drop off).take 4 =
      [s.data[off], s.data[off + 1], s.data[off + 2], s.data[off + 3]] := by
    rw [List.drop_eq_getElem_cons (by omega), List.drop_eq_getElem_cons (by omega),
      List.drop_eq_getElem_cons (by omega), List.drop_eq_getElem_cons (by omega)]
    rfl
  rw [SectionSpan.wordAt, ho, hdrop, assemble_eq]

end Bytes

section Exact
variable {sections : List SectionSpan} {s : SectionSpan} {a : BitVec 64}

/-- The distance to the start of a section, with and without wrapping. -/
theorem sub_start (h : s.va.toNat ≤ a.toNat) : (a - s.va).toNat = a.toNat - s.va.toNat := by
  have hs := s.va.isLt
  have ha := a.isLt
  rw [BitVec.toNat_sub]
  omega

/-- The test of the loop is the one over the integers, unless the sum wraps to an address
within the section. -/
theorem test_iff (hle : s.va.toNat ≤ a.toNat)
    (h : a.toNat + 4 < 2 ^ 64 ∨ s.va.toNat + s.data.length < a.toNat + 4 - 2 ^ 64) :
    a + BitVec.ofNat 64 4 > s.va + s.size ↔ ¬ s.Covers a 4 := by
  have hfits := s.fits
  have ha := a.isLt
  have hend : (s.va + s.size).toNat = s.va.toNat + s.data.length := by
    rw [BitVec.toNat_add, SectionSpan.size, BitVec.toNat_ofNat]
    omega
  rw [gt_iff_lt, BitVec.lt_def, hend, BitVec.toNat_add, BitVec.toNat_ofNat,
    SectionSpan.Covers]
  omega

theorem WrapsOutside.tail (h : WrapsOutside (s :: sections) a) : WrapsOutside sections a :=
  fun t ht => h t (List.mem_cons_of_mem _ ht)

/-- The loop copies from the first section that holds the four bytes. -/
theorem readFrom_eq (h : WrapsOutside sections a) : readFrom a 4 sections =
    match sections.find? fun s => s.Covers a 4 with
    | none => .ok none
    | some s => (copy s.data (a.toNat - s.va.toNat) 4).map some := by
  induction sections with
  | nil => rfl
  | cons s rest ih =>
    have hs := h s (by simp)
    rw [readFrom]
    by_cases hlt : a < s.va
    · have hno : ¬ s.Covers a 4 := fun hc => by
        have hlt' := BitVec.lt_def.mp hlt
        exact absurd hc.1 (by omega)
      rw [if_pos hlt, List.find?_cons_of_neg (by simpa using hno), ih h.tail]
    · have hle : s.va.toNat ≤ a.toNat := Nat.le_of_not_lt fun hc => hlt (BitVec.lt_def.mpr hc)
      rw [if_neg hlt]
      by_cases hc : s.Covers a 4
      · rw [if_neg ((test_iff hle (hs hle)).not.mpr (not_not.mpr hc)),
          List.find?_cons_of_pos (by simpa using hc), sub_start hle]
        rfl
      · rw [if_pos ((test_iff hle (hs hle)).mpr hc),
          List.find?_cons_of_neg (by simpa using hc), ih h.tail]

theorem image_exact (h : WrapsOutside sections a) :
    (ELFImage.mk sections true).read32 a = .ok (exactWord sections a) := by
  have hread : (ELFImage.mk sections true).read a 4 = _ := readFrom_eq h
  rw [ELFImage.read32, hread, exactWord]
  cases hf : sections.find? fun s => s.Covers a 4 with
  | none => rfl
  | some s =>
    have hc : s.Covers a 4 := by simpa using List.find?_some hf
    have hlen : a.toNat - s.va.toNat + 4 ≤ s.data.length := by
      have hle := hc.1
      have hend := hc.2
      omega
    simp only [copy_four hlen, Option.map_some, wordAt_eq rfl hlen]
    rfl

theorem span_exact (h : s.va.toNat ≤ a.toNat →
    a.toNat + 4 < 2 ^ 64 ∨ s.va.toNat + s.data.length < a.toNat + 4 - 2 ^ 64) :
    (SpanMemoryReader.mk s.va s.data).read32 a = .ok (exactWord [s] a) := by
  have hfits := s.fits
  have ha := a.isLt
  rw [SpanMemoryReader.read32, exactWord]
  by_cases hlt : a < s.va
  · have hno : ¬ s.Covers a 4 := fun hc => by
      have hlt' := BitVec.lt_def.mp hlt
      exact absurd hc.1 (by omega)
    rw [if_pos hlt, List.find?_cons_of_neg (by simpa using hno)]
    rfl
  · have hle : s.va.toNat ≤ a.toNat := Nat.le_of_not_lt fun hc => hlt (BitVec.lt_def.mpr hc)
    have hw := h hle
    have hsub := sub_start hle
    rw [if_neg hlt]
    dsimp only
    by_cases hc : s.Covers a 4
    · have hlen : a.toNat - s.va.toNat + 4 ≤ s.data.length := by
        have hend := hc.2
        omega
      have htest : ¬ (a - s.va + 4 > BitVec.ofNat 64 s.data.length) := by
        rw [gt_iff_lt, BitVec.lt_def, BitVec.toNat_add, hsub, BitVec.toNat_ofNat]
        change ¬ (_ < (_ + 4) % 2 ^ 64)
        omega
      rw [if_neg htest, List.find?_cons_of_pos (by simpa using hc), hsub]
      simp only [byteAt_ok (by omega : a.toNat - s.va.toNat < s.data.length),
        byteAt_ok (by omega : a.toNat - s.va.toNat + 1 < s.data.length),
        byteAt_ok (by omega : a.toNat - s.va.toNat + 2 < s.data.length),
        byteAt_ok (by omega : a.toNat - s.va.toNat + 3 < s.data.length), Option.map_some,
        wordAt_eq rfl hlen]
      rfl
    · have htest : a - s.va + 4 > BitVec.ofNat 64 s.data.length := by
        have hno : ¬ (a.toNat + 4 ≤ s.va.toNat + s.data.length) := fun he => hc ⟨hle, he⟩
        rw [gt_iff_lt, BitVec.lt_def, BitVec.toNat_add, hsub, BitVec.toNat_ofNat]
        change _ < (_ + 4) % 2 ^ 64
        omega
      rw [if_pos htest, List.find?_cons_of_neg (by simpa using hc)]
      rfl

/-- Only sums that wrap around are not harmless. -/
theorem last_four (h : ¬ WrapsOutside sections a) : 2 ^ 64 ≤ a.toNat + 4 := by
  by_contra hlt
  exact h fun s _ _ => Or.inl (Nat.lt_of_not_le hlt)

/-- A sum that wraps into a section makes the loop copy from past its data. -/
theorem readFrom_faults (h : ¬ WrapsOutside sections a) :
    ∃ e, readFrom a 4 sections = .error e := by
  have hlast := last_four h
  induction sections with
  | nil => exact absurd (fun s hs => by cases hs) h
  | cons s rest ih =>
    have hfits := s.fits
    rw [readFrom]
    by_cases hs : s.va.toNat ≤ a.toNat →
        a.toNat + 4 < 2 ^ 64 ∨ s.va.toNat + s.data.length < a.toNat + 4 - 2 ^ 64
    · have hrest : ¬ WrapsOutside rest a := fun hr => h fun t ht => by
        rcases List.mem_cons.mp ht with rfl | ht
        · exact hs
        · exact hr t ht
      by_cases hlt : a < s.va
      · rw [if_pos hlt]
        exact ih hrest
      · have hle : s.va.toNat ≤ a.toNat := Nat.le_of_not_lt fun hc => hlt (BitVec.lt_def.mpr hc)
        have hno : ¬ s.Covers a 4 := fun hc => by
          have hend := hc.2
          omega
        rw [if_neg hlt, if_pos ((test_iff hle (hs hle)).mpr hno)]
        exact ih hrest
    · obtain ⟨hle, hwrap⟩ := Classical.not_imp.mp hs
      have hlt : ¬ a < s.va := fun hc => absurd (BitVec.lt_def.mp hc) (by omega)
      have hend : (s.va + s.size).toNat = s.va.toNat + s.data.length := by
        rw [BitVec.toNat_add, SectionSpan.size, BitVec.toNat_ofNat]
        omega
      have ha := a.isLt
      have htest : ¬ (a + BitVec.ofNat 64 4 > s.va + s.size) := by
        rw [gt_iff_lt, BitVec.lt_def, hend, BitVec.toNat_add, BitVec.toNat_ofNat]
        omega
      obtain ⟨e, he⟩ : ∃ e, copy s.data (a - s.va).toNat 4 = .error e := copy_past (by
        rw [sub_start hle]
        omega)
      rw [if_neg hlt, if_neg htest, he]
      exact ⟨e, rfl⟩

/-- The readers are exact at an address exactly when its sum does not wrap into a section. -/
theorem readersExact_iff (sections : List SectionSpan) (a : BitVec 64) :
    ReadersExact sections a ↔ WrapsOutside sections a := by
  constructor
  · intro h
    by_contra hw
    obtain ⟨e, he⟩ := readFrom_faults hw
    have hread : (ELFImage.mk sections true).read a 4 = .error e := he
    have himage := h.image
    rw [ELFImage.read32, hread] at himage
    cases himage
  · intro h
    refine ⟨image_exact h, fun s hs => ?_⟩
    have hone : WrapsOutside [s] a := fun t ht => List.mem_singleton.mp ht ▸ h s hs
    rw [span_exact (h s hs), image_exact hone]

/-- `jal x0, -4`, at the bottom of the address space. -/
def lowSection : SectionSpan := ⟨0, [0x6f, 0xf0, 0xdf, 0xff], by decide⟩

/-- The target of the jump is the last word of the address space, read from before the data. -/
theorem low_not_exact : ¬ ∀ sections a, ReadersExact sections a := by
  intro h
  have himage := (h [lowSection] (-4)).image
  have hfault : readFrom (-4) 4 [lowSection] = .error ⟨2 ^ 64 - 4⟩ := by decide
  have hread : (ELFImage.mk [lowSection] true).read (-4) 4 = .error ⟨2 ^ 64 - 4⟩ := hfault
  rw [ELFImage.read32, hread] at himage
  cases himage

end Exact

end Riscy
