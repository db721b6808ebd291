import LayerMount.Lib.Unicode

/-!
# Wide text and UTF-8

`WideToUtf8` and `Utf8ToWide`, of which `MetadataStore.cpp`, `SidecarMetadata.cpp` and
`LayerImageManager.cpp` each keep a copy.  Both count in `int`, and both give the empty
text where the count does not fit.  Then what the engine takes from the host to fold the
case of a text, and the marks of a text.
-/

namespace LayerMount

open Lib

def kIntMax : Nat := 2 ^ 31 - 1

/-- `WideToUtf8`.  A unit that is half of no pair becomes the replacement character. -/
def wideToUtf8 (wide : WideString) : List UInt8 :=
  if (encodeUtf8 (decodeUtf16 wide)).length ≤ kIntMax then encodeUtf8 (decodeUtf16 wide) else []

/-- `Utf8ToWide`. -/
def utf8ToWide (utf8 : List UInt8) : WideString :=
  if utf8.length ≤ kIntMax then encodeUtf16 (decodeUtf8 utf8) else []

/-- The UTF-8 form of a text can be counted in `int`. -/
def FitsInt (wide : WideString) : Prop := (encodeUtf8 (decodeUtf16 wide)).length ≤ kIntMax

instance (wide : WideString) : Decidable (FitsInt wide) := inferInstanceAs (Decidable (_ ≤ _))

/-- What comes back of a text is the text with its broken units replaced. -/
theorem utf8ToWide_wideToUtf8 {wide : WideString} (h : FitsInt wide) :
    utf8ToWide (wideToUtf8 wide) = encodeUtf16 (decodeUtf16 wide) := by
  have hutf8 : wideToUtf8 wide = encodeUtf8 (decodeUtf16 wide) := if_pos h
  unfold FitsInt at h
  rw [hutf8, utf8ToWide, if_pos h, decodeUtf8_encodeUtf8]

/-- A well-formed text comes back. -/
theorem utf8ToWide_of_wellFormed {wide : WideString} (hwf : WellFormedUtf16 wide)
    (h : FitsInt wide) : utf8ToWide (wideToUtf8 wide) = wide :=
  (utf8ToWide_wideToUtf8 h).trans hwf

/-! ## Case -/

def kStar : UInt16 := 0x2A

/-- `CharLowerBuffW`, which folds a text in place. -/
structure CaseFold where
  fold : WideString → WideString
  length_fold : ∀ s, (fold s).length = s.length
  fold_star : fold [kStar] = [kStar]

theorem CaseFold.fold_nil (F : CaseFold) : F.fold [] = [] :=
  List.length_eq_zero_iff.mp (F.length_fold [])

/-- `towlower` of the C locale. -/
def asciiLowerUnit (u : UInt16) : UInt16 := if 0x41 ≤ u ∧ u ≤ 0x5A then u + 0x20 else u

theorem asciiLowerUnit_lower (u : UInt16) :
    asciiLowerUnit (asciiLowerUnit u) = asciiLowerUnit u := by
  unfold asciiLowerUnit
  by_cases hu : 0x41 ≤ u ∧ u ≤ 0x5A
  · rw [if_pos hu]
    apply if_neg
    rw [UInt16.le_iff_toNat_le, UInt16.le_iff_toNat_le] at hu ⊢
    simp only [UInt16.toNat_add, UInt16.reduceToNat] at hu ⊢
    omega
  · rw [if_neg hu, if_neg hu]

/-- A letter becomes a letter. -/
theorem eq_of_asciiLowerUnit {u v : UInt16} (h : asciiLowerUnit v = u) (hlow : u.toNat < 0x61) :
    v = u := by
  unfold asciiLowerUnit at h
  split at h
  · next hletter =>
    rw [UInt16.le_iff_toNat_le, UInt16.le_iff_toNat_le] at hletter
    rw [← h, UInt16.toNat_add] at hlow
    simp only [UInt16.reduceToNat] at hletter hlow
    omega
  · exact h

/-- The folding of ASCII letters. -/
def asciiLower : CaseFold where
  fold := List.map asciiLowerUnit
  length_fold _ := List.length_map _
  fold_star := rfl

/-! ## Marks -/

/-- The first place of a mark. -/
theorem idxOf?_append_cons {mark : UInt16} {start : WideString} (h : mark ∉ start)
    (rest : WideString) : (start ++ mark :: rest).idxOf? mark = some start.length := by
  induction start with
  | nil => simp [List.idxOf?_cons]
  | cons u start ih =>
    rw [List.mem_cons, not_or] at h
    rw [List.cons_append, List.idxOf?_cons, ih h.2]
    simp [Ne.symm h.1]

/-- What follows the mark. -/
theorem drop_append_cons {mark : UInt16} (start rest : WideString) :
    (start ++ mark :: rest).drop (start.length + 1) = rest := by simp

theorem append_cons_inj {mark : UInt16} {start start' rest rest' : WideString} (h : mark ∉ start)
    (h' : mark ∉ start') (heq : start ++ mark :: rest = start' ++ mark :: rest') :
    start = start' ∧ rest = rest' := by
  have hindex := idxOf?_append_cons h rest
  rw [heq, idxOf?_append_cons h'] at hindex
  injection hindex with hlength
  obtain ⟨hstart, hrest⟩ := List.append_inj heq hlength.symm
  injection hrest with _ hrest
  exact ⟨hstart, hrest⟩

end LayerMount
