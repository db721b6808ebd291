import Mathlib.Data.List.TakeWhile
import LayerMount.Image.HostTree
import LayerMount.WideText

/-!
# Paths in an archive

An archive names an entry by the UTF-8 text of its path with forward slashes.  The packer
joins the names of a path (`relativeNameOf`).  The unpacker checks the bytes of the text
(`isValidUtf8`, `isValidArchivePath`), and the host splits it at both kinds of slash
(`pathOf`).

Both checks pass on the path of every entry of a tree, and the names come back
(`isValidArchivePath_of_names`, `pathOf_joinPath`).
-/

namespace LayerMount

open Lib

/-! ## The checks of the unpacker -/

/-- How many bytes follow a first byte. -/
def extraBytes (c : UInt8) : Option Nat :=
  if c &&& 0x80 = 0x00 then some 0
  else if c &&& 0xE0 = 0xC0 then some 1
  else if c &&& 0xF0 = 0xE0 then some 2
  else if c &&& 0xF8 = 0xF0 then some 3
  else none

/-- The loop of `IsValidUtf8`, while `pending` bytes of a sequence are to come. -/
def isValidUtf8From : Nat → Data → Bool
  | pending, [] => pending = 0
  | 0, c :: rest =>
    if c = 0 then false
    else
      match extraBytes c with
      | none => false
      | some extra => isValidUtf8From extra rest
  | pending + 1, c :: rest => (c &&& 0xC0) = 0x80 && isValidUtf8From pending rest

def isValidUtf8 (data : Data) : Bool := isValidUtf8From 0 data

def isSeparatorByte (b : UInt8) : Bool := b = 0x2F || b = 0x5C

/-- `IsValidArchivePath`.  The first component of a path that starts with a slash is empty. -/
def isValidArchivePath (utf8Path : Data) : Bool :=
  !utf8Path.isEmpty && !utf8Path.contains 0x3A &&
    (utf8Path.splitOnP isSeparatorByte).all fun component =>
      !component.isEmpty && component ≠ [0x2E] && component ≠ [0x2E, 0x2E]

/-! ## Texts and names -/

def isSeparator (c : Char) : Bool := c = '/' || c = '\\'

/-- The text of a path, with forward slashes. -/
def joinPath (p : RelPath) : List Char := ['/'].intercalate p

/-- `RelativeNameOf`. -/
def relativeNameOf (p : RelPath) : WideString := encodeUtf16 (joinPath p)

/-- The names that the host sees in the text of a path. -/
def pathOf (relativePath : WideString) : RelPath := (decodeUtf16 relativePath).splitOnP isSeparator

/-- The name that the host opens: it reads a text up to its first NUL. -/
def cutAtNul (n : Name) : Name := n.takeWhile (· ≠ '\x00')

/-- The path that the host opens. -/
def openedPath : RelPath → RelPath
  | [] => []
  | n :: rest => if '\x00' ∈ n then [cutAtNul n] else n :: openedPath rest

/-- The rules of `IsValidArchivePath` on the names of a path. -/
def validNames (p : RelPath) : Bool :=
  p.all fun n => !n.isEmpty && n ≠ ['.'] && n ≠ ['.', '.'] && !n.contains ':'

theorem cutAtNul_of_not_mem {n : Name} (h : '\x00' ∉ n) : cutAtNul n = n := by
  rw [cutAtNul, List.takeWhile_eq_self_iff]
  intro c hc
  rw [decide_eq_true_eq]
  rintro rfl
  exact h hc

theorem openedPath_of_not_mem {p : RelPath} (h : ∀ n ∈ p, '\x00' ∉ n) : openedPath p = p := by
  induction p with
  | nil => rfl
  | cons n p ih =>
    rw [openedPath, if_neg (h n (by simp)), ih fun m hm => h m (List.mem_cons_of_mem _ hm)]

theorem asciiTest_separator : AsciiTest isSeparatorByte isSeparator where
  ascii := by
    intro c hc
    have hbyte := toNat_ofNat_ascii hc
    have hslash : UInt8.ofNat c.toNat = 0x2F ↔ c = '/' := by
      rw [← UInt8.toNat_inj, hbyte, ← Char.toNat_inj]
      rfl
    have hback : UInt8.ofNat c.toNat = 0x5C ↔ c = '\\' := by
      rw [← UInt8.toNat_inj, hbyte, ← Char.toNat_inj]
      rfl
    simp only [isSeparatorByte, isSeparator, hslash, hback]
  byte := by
    intro b hb
    have hslash : b ≠ 0x2F := by
      rintro rfl
      exact absurd hb (by decide)
    have hback : b ≠ 0x5C := by
      rintro rfl
      exact absurd hb (by decide)
    simp [isSeparatorByte, hslash, hback]
  char := by
    intro c hc
    have hslash : c ≠ '/' := by
      rintro rfl
      exact absurd hc (by decide)
    have hback : c ≠ '\\' := by
      rintro rfl
      exact absurd hc (by decide)
    simp [isSeparator, hslash, hback]

theorem mem_colon_encodeUtf8 {text : List Char} : 0x3A ∈ encodeUtf8 text ↔ ':' ∈ text := by
  constructor
  · intro h
    obtain ⟨c, hc, hb⟩ := List.mem_flatMap.mp h
    by_cases hascii : c.toNat < 128
    · rw [utf8EncodeChar_ascii hascii, List.mem_singleton] at hb
      have hcolon : c = ':' := by
        rw [← Char.toNat_inj, ← toNat_ofNat_ascii hascii, ← hb]
        rfl
      exact hcolon ▸ hc
    · have hle := le_of_mem_utf8EncodeChar (by omega) hb
      exact absurd hle (by decide)
  · intro h
    exact List.mem_flatMap.mpr ⟨':', h, by decide⟩

theorem mem_splitOnP {α : Type} {p : α → Bool} {x : α} (hx : p x = false) (xs : List α) :
    x ∈ xs ↔ ∃ part ∈ xs.splitOnP p, x ∈ part := by
  induction xs with
  | nil => simp
  | cons y xs ih =>
    rw [List.mem_cons, ih, List.splitOnP_cons_eq_if_modifyHead]
    split
    · rename_i hy
      have hne : x ≠ y := fun h => by simp [← h, hx] at hy
      simp [hne]
    · cases h : xs.splitOnP p with
      | nil => exact absurd h (List.splitOnP_ne_nil p xs)
      | cons part parts => simp [or_assoc]

/-- The check of the bytes is the check of the names. -/
theorem isValidArchivePath_encodeUtf8 (text : List Char) :
    isValidArchivePath (encodeUtf8 text) = validNames (text.splitOnP isSeparator) := by
  have hcolon : (encodeUtf8 text).contains 0x3A
      = (text.splitOnP isSeparator).any fun n => n.contains ':' := by
    rw [Bool.eq_iff_iff, List.contains_iff_mem, mem_colon_encodeUtf8,
      mem_splitOnP (p := isSeparator) (by decide)]
    simp
  have hempty : ∀ n : List Char, (encodeUtf8 n).isEmpty = n.isEmpty := by
    intro n
    rw [Bool.eq_iff_iff, List.isEmpty_iff, List.isEmpty_iff]
    exact ⟨fun h => encodeUtf8_injective h, fun h => by rw [h]; rfl⟩
  have hdot : ∀ n : List Char, encodeUtf8 n = [0x2E] ↔ n = ['.'] := fun n =>
    ⟨fun h => encodeUtf8_injective (h.trans (by decide)), fun h => by rw [h]; decide⟩
  have hdots : ∀ n : List Char, encodeUtf8 n = [0x2E, 0x2E] ↔ n = ['.', '.'] := fun n =>
    ⟨fun h => encodeUtf8_injective (h.trans (by decide)), fun h => by rw [h]; decide⟩
  rw [isValidArchivePath, splitOnP_encodeUtf8 asciiTest_separator, hcolon, hempty]
  simp only [List.all_map, validNames]
  cases text with
  | nil => rfl
  | cons c text =>
    rw [Bool.eq_iff_iff]
    simp only [List.isEmpty_cons, Bool.not_false, Bool.true_and, Bool.and_eq_true,
      List.all_eq_true, Function.comp_apply, hempty, ne_eq, hdot, hdots, decide_eq_true_eq,
      Bool.not_eq_true', List.any_eq_false]
    constructor
    · rintro ⟨hnocolon, hall⟩ n hn
      exact ⟨hall n hn, by simpa using hnocolon n hn⟩
    · intro hall
      exact ⟨fun n hn => by simpa using (hall n hn).2, fun n hn => (hall n hn).1⟩

theorem joinPath_cons_cons (n m : Name) (p : RelPath) :
    joinPath (n :: m :: p) = n ++ '/' :: joinPath (m :: p) := by
  simp [joinPath, List.intercalate]

theorem splitOnP_joinPath {p : RelPath} (hne : p ≠ [])
    (hsep : ∀ n ∈ p, ∀ c ∈ n, isSeparator c = false) :
    (joinPath p).splitOnP isSeparator = p := by
  induction p with
  | nil => exact absurd rfl hne
  | cons n p ih =>
    have hn := hsep n (by simp)
    cases p with
    | nil =>
      have hjoin : joinPath [n] = n := by simp [joinPath]
      rw [hjoin]
      exact List.splitOnP_eq_singleton hn
    | cons m p =>
      have htail := ih (by simp) fun x hx => hsep x (List.mem_cons_of_mem _ hx)
      rw [joinPath_cons_cons, List.splitOnP_append_cons_of_forall_mem hn '/' rfl, htail]

/-! ## The names of a tree -/

/-- A name that an archive can hold. -/
structure ArchiveName (n : Name) : Prop where
  ne_nil : n ≠ []
  ne_dot : n ≠ ['.']
  ne_dots : n ≠ ['.', '.']
  chars : ∀ c ∈ n, c.toNat ≠ 0 ∧ c ≠ ':' ∧ isSeparator c = false

theorem nameOk_chars {n : Name} (h : nameOk n = true) {c : Char} (hc : c ∈ n) :
    32 ≤ c.toNat ∧ c ∉ reservedNameChars := by
  simp only [nameOk, Bool.and_eq_true, List.all_eq_true, decide_eq_true_eq, Bool.not_eq_true',
    List.contains_eq_mem, decide_eq_false_iff_not] at h
  exact h.2 c hc

theorem archiveName_of_nameOk {n : Name} (h : nameOk n = true) : ArchiveName n := by
  have hchars : ∀ c ∈ n, c.toNat ≠ 0 ∧ c ≠ ':' ∧ isSeparator c = false := by
    intro c hc
    obtain ⟨hlow, hreserved⟩ := nameOk_chars h hc
    simp only [reservedNameChars, List.mem_cons, not_or] at hreserved
    exact ⟨by omega, hreserved.2.2.1, by simp [isSeparator, hreserved]⟩
  simp only [nameOk, Bool.and_eq_true, decide_eq_true_eq, Bool.not_eq_true', ne_eq,
    List.isEmpty_eq_false_iff] at h
  exact ⟨h.1.1.1.1, h.1.1.1.2, h.1.1.2, hchars⟩

/-- The marker's name of a name. -/
theorem ArchiveName.whiteoutName {n : Name} (h : ArchiveName n) : ArchiveName (whiteoutName n) where
  ne_nil := by simp [LayerMount.whiteoutName, kWhiteoutPrefix]
  ne_dot := by simp [LayerMount.whiteoutName, kWhiteoutPrefix]
  ne_dots := by simp [LayerMount.whiteoutName, kWhiteoutPrefix]
  chars := by
    intro c hc
    rcases List.mem_append.mp hc with hpre | hn
    · simp only [kWhiteoutPrefix, List.mem_cons, List.not_mem_nil, or_false] at hpre
      rcases hpre with rfl | rfl | rfl | rfl <;> decide
    · exact h.chars c hn

theorem validNames_of_archiveNames {p : RelPath} (h : ∀ n ∈ p, ArchiveName n) :
    validNames p = true := by
  rw [validNames, List.all_eq_true]
  intro n hn
  have hcolon : ':' ∉ n := fun hmem => ((h n hn).chars _ hmem).2.1 rfl
  simp [(h n hn).ne_nil, (h n hn).ne_dot, (h n hn).ne_dots, hcolon]

/-- The names of a path come back from its text. -/
theorem pathOf_relativeNameOf {p : RelPath} (hne : p ≠ []) (h : ∀ n ∈ p, ArchiveName n) :
    pathOf (relativeNameOf p) = p := by
  rw [pathOf, relativeNameOf, decodeUtf16_encodeUtf16]
  exact splitOnP_joinPath hne fun n hn c hc => ((h n hn).chars c hc).2.2

/-- The path of an entry passes the check. -/
theorem isValidArchivePath_of_names {p : RelPath} (hne : p ≠ []) (h : ∀ n ∈ p, ArchiveName n) :
    isValidArchivePath (encodeUtf8 (joinPath p)) = true := by
  rw [isValidArchivePath_encodeUtf8,
    splitOnP_joinPath hne fun n hn c hc => ((h n hn).chars c hc).2.2]
  exact validNames_of_archiveNames h

/-! ## The bytes of a text -/

/-- The number of bytes that follow a first byte, by the value of the byte. -/
theorem extraBytes_ofNat : ∀ n < 256, extraBytes (UInt8.ofNat n) =
    if n < 128 then some 0 else if n < 192 then none else if n < 224 then some 1
    else if n < 240 then some 2 else if n < 248 then some 3 else none := by
  decide +kernel

theorem continuation_ofNat : ∀ n < 64, UInt8.ofNat (n + 128) &&& 0xC0 = 0x80 := by
  decide +kernel

theorem ofNat_ne_zero {n : Nat} (h : n < 256) (hpos : 0 < n) : UInt8.ofNat n ≠ 0 := by
  intro heq
  have hnat := congrArg UInt8.toNat heq
  rw [UInt8.toNat_ofNat'] at hnat
  simp only [UInt8.toNat_zero] at hnat
  omega

theorem isValidUtf8From_first (extra : Nat) {n : Nat} (hn : n < 256) (hpos : 0 < n)
    (hextra : extraBytes (UInt8.ofNat n) = some extra) (rest : Data) :
    isValidUtf8From 0 (UInt8.ofNat n :: rest) = isValidUtf8From extra rest := by
  simp [isValidUtf8From, ofNat_ne_zero hn hpos, hextra]

theorem isValidUtf8From_next {n : Nat} (hn : n < 64) (pending : Nat) (rest : Data) :
    isValidUtf8From (pending + 1) (UInt8.ofNat (n + 128) :: rest) = isValidUtf8From pending rest := by
  rw [isValidUtf8From, continuation_ofNat n hn]
  rfl

/-- The check passes over one character. -/
theorem isValidUtf8From_char {c : Char} (hc : c.toNat ≠ 0) (rest : Data) :
    isValidUtf8From 0 (String.utf8EncodeChar c ++ rest) = isValidUtf8From 0 rest := by
  have hrange := char_toNat_range c
  have hval : c.val.toNat = c.toNat := rfl
  unfold String.utf8EncodeChar
  simp only [hval]
  split
  · rw [List.singleton_append, isValidUtf8From_first 0 (by omega) (by omega)]
    rw [extraBytes_ofNat _ (by omega), if_pos (by omega)]
  · split
    · simp only [List.cons_append, List.nil_append]
      rw [isValidUtf8From_first 1 (by omega) (by omega), isValidUtf8From_next (by omega)]
      rw [extraBytes_ofNat _ (by omega), if_neg (by omega), if_neg (by omega), if_pos (by omega)]
    · split
      · simp only [List.cons_append, List.nil_append]
        rw [isValidUtf8From_first 2 (by omega) (by omega),
          isValidUtf8From_next (by omega), isValidUtf8From_next (by omega)]
        rw [extraBytes_ofNat _ (by omega), if_neg (by omega), if_neg (by omega),
          if_neg (by omega), if_pos (by omega)]
      · simp only [List.cons_append, List.nil_append]
        rw [isValidUtf8From_first 3 (by omega) (by omega),
          isValidUtf8From_next (by omega), isValidUtf8From_next (by omega),
          isValidUtf8From_next (by omega)]
        rw [extraBytes_ofNat _ (by omega), if_neg (by omega), if_neg (by omega),
          if_neg (by omega), if_neg (by omega), if_pos (by omega)]

/-- The bytes of a text without a NUL pass the check. -/
theorem isValidUtf8_encodeUtf8 {text : List Char} (h : ∀ c ∈ text, c.toNat ≠ 0) :
    isValidUtf8 (encodeUtf8 text) = true := by
  induction text with
  | nil => rfl
  | cons c text ih =>
    rw [isValidUtf8, encodeUtf8_cons, isValidUtf8From_char (h c (by simp))]
    exact ih fun d hd => h d (List.mem_cons_of_mem _ hd)

theorem mem_joinPath {p : RelPath} {c : Char} (h : c ∈ joinPath p) :
    c = '/' ∨ ∃ n ∈ p, c ∈ n := by
  induction p with
  | nil => simp [joinPath] at h
  | cons n p ih =>
    cases p with
    | nil =>
      have hjoin : joinPath [n] = n := by simp [joinPath]
      rw [hjoin] at h
      exact Or.inr ⟨n, by simp, h⟩
    | cons m p =>
      rw [joinPath_cons_cons, List.mem_append, List.mem_cons] at h
      rcases h with hn | hslash | hrest
      · exact Or.inr ⟨n, by simp, hn⟩
      · exact Or.inl hslash
      · rcases ih hrest with hslash | ⟨x, hx, hcx⟩
        · exact Or.inl hslash
        · exact Or.inr ⟨x, List.mem_cons_of_mem _ hx, hcx⟩

/-- The text of a path passes the check. -/
theorem isValidUtf8_joinPath {p : RelPath} (h : ∀ n ∈ p, ArchiveName n) :
    isValidUtf8 (encodeUtf8 (joinPath p)) = true := by
  apply isValidUtf8_encodeUtf8
  intro c hc hzero
  rcases mem_joinPath hc with rfl | ⟨n, hn, hcn⟩
  · exact absurd hzero (by decide)
  · exact ((h n hn).chars c hcn).1 hzero

end LayerMount
