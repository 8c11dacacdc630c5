import Riscy.MemoryReaders
import Riscy.TextScan

/-! `ELFImage::load`. What the ELF library makes of the file at a path is a parameter. -/
namespace Riscy
open TextScan

/-- A section with its bytes, if the file has any for it. Code ends below the top of the address
space. -/
structure ElfSection where
  flags : BitVec 64
  address : BitVec 64
  data : Option (List (BitVec 8))
  fits : flags &&& 0x4 ≠ 0 → ∀ d, data = some d → address.toNat + d.length < 2 ^ 64

structure ElfFile where
  cls : ℕ
  machine : ℕ
  encoding : ℕ
  entry : BitVec 64
  sections : List (Option ElfSection)

/-- What a reader makes of the file at a path. -/
abbrev ElfReader := List Char → Option ElfFile

/-- `SHF_EXECINSTR`. -/
def ElfSection.exec (sec : ElfSection) : Bool := sec.flags &&& 0x4 ≠ 0

def ElfSection.span? (sec : ElfSection) : Option SectionSpan :=
  if hx : sec.exec then
    match h : sec.data with
    | some d => some ⟨sec.address, d, sec.fits (of_decide_eq_true hx) d h⟩
    | none => none
  else none

/-- The executable sections with data, in the order of the file. -/
def ElfFile.spans (f : ElfFile) : List SectionSpan :=
  f.sections.filterMap fun sec => sec.bind ElfSection.span?

/-- An `ELFImage` with its entry. -/
structure ImageState where
  image : ELFImage
  entry : BitVec 64

def ImageState.initial : ImageState := ⟨⟨[], false⟩, 0⟩

/-- The image is cleared first; the entry stays until a file of the right kind is found. -/
def ImageState.load (reader : ElfReader) (path : List Char) (s : ImageState) :
    ImageState × List Char × Bool :=
  let s : ImageState := { s with image := ⟨[], false⟩ }
  match reader path with
  | none => (s, text "Failed to load ELF file: " ++ path, false)
  | some f =>
    if f.cls ≠ 2 then (s, text "Unsupported ELF class (need ELF64)", false)
    else if f.machine ≠ 243 then (s, text "Unsupported machine (need RISC-V)", false)
    else if f.encoding ≠ 1 then (s, text "Unsupported endianness (need little-endian)", false)
    else if f.spans = [] then
      (⟨⟨[], false⟩, f.entry⟩, text "No executable sections found", false)
    else (⟨⟨f.spans, true⟩, f.entry⟩, [], true)

/-- A little-endian RISC-V file of 64 bits with code. -/
structure ElfFile.Runnable (f : ElfFile) : Prop where
  cls : f.cls = 2
  machine : f.machine = 243
  encoding : f.encoding = 1
  code : f.spans ≠ []

variable {reader : ElfReader} {path : List Char} {s t : ImageState} {err : List Char} {ok : Bool}

/-- A load succeeds on runnable files, and says why it does not on others. Whatever was loaded
before, the image holds the sections of this file or none. -/
theorem ImageState.load_cases (h : s.load reader path = (t, err, ok)) :
    (∃ f, reader path = some f ∧ f.Runnable ∧ ok = true ∧ err = [] ∧
        t = ⟨⟨f.spans, true⟩, f.entry⟩) ∨
      ((∀ f, reader path = some f → ¬ f.Runnable) ∧ ok = false ∧ err ≠ [] ∧
        t.image = ⟨[], false⟩) := by
  unfold ImageState.load at h
  cases hr : reader path with
  | none =>
    rw [hr] at h
    cases h
    exact Or.inr ⟨by simp, rfl, by simp [text], rfl⟩
  | some f =>
    rw [hr] at h
    dsimp only at h
    split_ifs at h with hc hm he hs
    · cases h
      exact Or.inr ⟨fun g hg hrun => hc ((Option.some.inj hg) ▸ hrun.cls), rfl, by simp [text], rfl⟩
    · cases h
      exact Or.inr ⟨fun g hg hrun => hm ((Option.some.inj hg) ▸ hrun.machine), rfl, by simp [text],
        rfl⟩
    · cases h
      exact Or.inr ⟨fun g hg hrun => he ((Option.some.inj hg) ▸ hrun.encoding), rfl, by simp [text],
        rfl⟩
    · cases h
      exact Or.inr ⟨fun g hg hrun => hrun.code ((Option.some.inj hg) ▸ hs), rfl, by simp [text],
        rfl⟩
    · cases h
      exact Or.inl ⟨f, rfl, ⟨not_not.mp hc, not_not.mp hm, not_not.mp he, hs⟩, rfl, rfl, rfl⟩

theorem ImageState.load_runnable {f : ElfFile} (hf : reader path = some f) (hrun : f.Runnable) :
    s.load reader path = (⟨⟨f.spans, true⟩, f.entry⟩, [], true) := by
  obtain ⟨t, err, ok, h⟩ : ∃ t err ok, s.load reader path = (t, err, ok) := ⟨_, _, _, rfl⟩
  rcases ImageState.load_cases h with ⟨g, hg, -, rfl, rfl, rfl⟩ | ⟨hno, -, -, -⟩
  · cases hf.symm.trans hg
    exact h
  · exact absurd hrun (hno f hf)

end Riscy
