import Mathlib.Algebra.Group.Nat.Defs
import Mathlib.Data.List.TakeWhile
import Mathlib.Tactic.Common

/-!
# UTF-16 and UTF-8

Text as scalar values, as 16-bit units and as bytes.  The decoders are total: a
broken sequence decodes to the replacement character, one for each longest part of
it that could still have begun a character.

`decodeUtf16_encodeUtf16` and `decodeUtf8_encodeUtf8` say that decoding undoes
encoding.  A sequence of units is well formed when it is the encoding of its own
decoding (`wellFormedUtf16_iff`).
-/

namespace LayerMount.Lib

def replacementChar : Char := Char.ofNat 0xFFFD

/-! ## UTF-16 -/

abbrev WideString := List UInt16

def isHighSurrogate (u : UInt16) : Bool := 0xD800 ≤ u.toNat && u.toNat < 0xDC00

def isLowSurrogate (u : UInt16) : Bool := 0xDC00 ≤ u.toNat && u.toNat < 0xE000

/-- The units of one scalar value. -/
def encodeUtf16Char (c : Char) : WideString :=
  if c.toNat < 0x10000 then [UInt16.ofNat c.toNat]
  else
    [UInt16.ofNat (0xD800 + (c.toNat - 0x10000) / 0x400),
      UInt16.ofNat (0xDC00 + (c.toNat - 0x10000) % 0x400)]

def encodeUtf16 (cs : List Char) : WideString := cs.flatMap encodeUtf16Char

/-- The scalar value of a surrogate pair. -/
def charOfPair (high low : UInt16) : Char :=
  Char.ofNat (0x10000 + (high.toNat - 0xD800) * 0x400 + (low.toNat - 0xDC00))

/-- The scalar value of a unit that is not half of a pair. -/
def charOfUnit (u : UInt16) : Char :=
  if isHighSurrogate u || isLowSurrogate u then replacementChar else Char.ofNat u.toNat

def decodeUtf16 : WideString → List Char
  | [] => []
  | [u] => [charOfUnit u]
  | u :: v :: rest =>
    if isHighSurrogate u && isLowSurrogate v then charOfPair u v :: decodeUtf16 rest
    else charOfUnit u :: decodeUtf16 (v :: rest)

/-- Every surrogate is one half of a pair. -/
def WellFormedUtf16 (w : WideString) : Prop := encodeUtf16 (decodeUtf16 w) = w

instance (w : WideString) : Decidable (WellFormedUtf16 w) :=
  inferInstanceAs (Decidable (_ = _))

theorem char_toNat_range (c : Char) : c.toNat < 0xD800 ∨ (0xDFFF < c.toNat ∧ c.toNat < 0x110000) := by
  have h := c.valid
  simpa [UInt32.isValidChar, Nat.isValidChar] using h

theorem char_toNat_ofNat {n : Nat} (h : n < 0xD800) : (Char.ofNat n).toNat = n := by
  have hvalid : n.isValidChar := Or.inl h
  unfold Char.ofNat
  rw [dif_pos hvalid]
  rfl

theorem toNat_ofNat_unit {n : Nat} (h : n < 0x10000) : (UInt16.ofNat n).toNat = n := by
  rw [UInt16.toNat_ofNat']
  omega

theorem decodeUtf16_char (c : Char) (rest : WideString) :
    decodeUtf16 (encodeUtf16Char c ++ rest) = c :: decodeUtf16 rest := by
  have hrange := char_toNat_range c
  unfold encodeUtf16Char
  split
  · rename_i hsmall
    have hunit := toNat_ofNat_unit hsmall
    have hhigh : isHighSurrogate (UInt16.ofNat c.toNat) = false := by
      simp only [isHighSurrogate, hunit, Bool.and_eq_false_iff, decide_eq_false_iff_not]
      omega
    have hlow : isLowSurrogate (UInt16.ofNat c.toNat) = false := by
      simp only [isLowSurrogate, hunit, Bool.and_eq_false_iff, decide_eq_false_iff_not]
      omega
    have hchar : charOfUnit (UInt16.ofNat c.toNat) = c := by
      simp [charOfUnit, hhigh, hlow, hunit]
    cases rest with
    | nil => simp [decodeUtf16, hchar]
    | cons v rest => simp [decodeUtf16, hhigh, hchar]
  · rename_i hlarge
    have hu := toNat_ofNat_unit (n := 0xD800 + (c.toNat - 0x10000) / 0x400) (by omega)
    have hv := toNat_ofNat_unit (n := 0xDC00 + (c.toNat - 0x10000) % 0x400) (by omega)
    have hhigh : isHighSurrogate (UInt16.ofNat (0xD800 + (c.toNat - 0x10000) / 0x400)) = true := by
      simp only [isHighSurrogate, hu, Bool.and_eq_true, decide_eq_true_eq]
      omega
    have hlow : isLowSurrogate (UInt16.ofNat (0xDC00 + (c.toNat - 0x10000) % 0x400)) = true := by
      simp only [isLowSurrogate, hv, Bool.and_eq_true, decide_eq_true_eq]
      omega
    have hpair : charOfPair (UInt16.ofNat (0xD800 + (c.toNat - 0x10000) / 0x400))
        (UInt16.ofNat (0xDC00 + (c.toNat - 0x10000) % 0x400)) = c := by
      unfold charOfPair
      rw [hu, hv]
      have hsum : 0x10000 + (0xD800 + (c.toNat - 0x10000) / 0x400 - 0xD800) * 0x400 +
          (0xDC00 + (c.toNat - 0x10000) % 0x400 - 0xDC00) = c.toNat := by omega
      rw [hsum, Char.ofNat_toNat]
    simp only [List.cons_append, List.nil_append, decodeUtf16, hhigh, hlow, Bool.and_self, if_true,
      hpair]

/-- Decoding UTF-16 undoes encoding. -/
@[simp] theorem decodeUtf16_encodeUtf16 (cs : List Char) : decodeUtf16 (encodeUtf16 cs) = cs := by
  induction cs with
  | nil => rfl
  | cons c cs ih =>
    rw [encodeUtf16, List.flatMap_cons, decodeUtf16_char]
    exact congrArg (c :: ·) ih

theorem wellFormedUtf16_iff {w : WideString} : WellFormedUtf16 w ↔ ∃ cs, w = encodeUtf16 cs := by
  constructor
  · intro h
    exact ⟨_, h.symm⟩
  · rintro ⟨cs, rfl⟩
    exact congrArg encodeUtf16 (decodeUtf16_encodeUtf16 cs)

theorem decodeUtf16_append_unit {u : UInt16} (hhigh : isHighSurrogate u = false)
    (hlow : isLowSurrogate u = false) (a b : WideString) :
    decodeUtf16 (a ++ u :: b) = decodeUtf16 a ++ charOfUnit u :: decodeUtf16 b := by
  fun_induction decodeUtf16 a with
  | case1 =>
    cases b with
    | nil => rfl
    | cons v b => simp [decodeUtf16, hhigh]
  | case2 x =>
    cases b with
    | nil => simp [decodeUtf16, hlow]
    | cons v b => simp [decodeUtf16, hlow, hhigh]
  | case3 x y rest hpair ih => simp only [List.cons_append, decodeUtf16, hpair, if_true, ih]
  | case4 x y rest hpair ih =>
    rw [List.cons_append] at ih
    rw [List.cons_append, List.cons_append, decodeUtf16, if_neg hpair, ih, List.cons_append]

theorem decodeUtf16_encodeUtf16_append (cs : List Char) (w : WideString) :
    decodeUtf16 (encodeUtf16 cs ++ w) = cs ++ decodeUtf16 w := by
  induction cs with
  | nil => rfl
  | cons c cs ih =>
    have hcons : encodeUtf16 (c :: cs) = encodeUtf16Char c ++ encodeUtf16 cs := rfl
    rw [hcons, List.append_assoc, decodeUtf16_char, ih, List.cons_append]

theorem charOfUnit_eq_ascii {u : UInt16} {c : Char} (hc : c.toNat < 128) :
    charOfUnit u = c ↔ u = UInt16.ofNat c.toNat := by
  have hnat := toNat_ofNat_unit (n := c.toNat) (by omega)
  constructor
  · intro h
    unfold charOfUnit at h
    split at h
    · rw [← h] at hc
      exact absurd hc (by decide)
    · rename_i hunit
      have hvalid : u.toNat.isValidChar := by
        have hlt := u.toNat_lt
        simp only [isHighSurrogate, isLowSurrogate, Bool.or_eq_true, Bool.and_eq_true,
          decide_eq_true_eq, not_or, not_and] at hunit
        simp only [Nat.isValidChar]
        omega
      have hchar : (Char.ofNat u.toNat).toNat = u.toNat := by
        unfold Char.ofNat
        rw [dif_pos hvalid]
        rfl
      rw [← h, hchar, UInt16.ofNat_toNat]
  · rintro rfl
    have hsmall : ¬(isHighSurrogate (UInt16.ofNat c.toNat) || isLowSurrogate (UInt16.ofNat c.toNat))
        = true := by
      simp only [isHighSurrogate, isLowSurrogate, hnat, Bool.or_eq_true, Bool.and_eq_true,
        decide_eq_true_eq]
      omega
    rw [charOfUnit, if_neg hsmall, hnat, Char.ofNat_toNat]

theorem le_toNat_charOfPair {u v : UInt16} (hu : isHighSurrogate u = true)
    (hv : isLowSurrogate v = true) : 128 ≤ (charOfPair u v).toNat := by
  simp only [isHighSurrogate, isLowSurrogate, Bool.and_eq_true, decide_eq_true_eq] at hu hv
  have hvalid : (0x10000 + (u.toNat - 0xD800) * 0x400 + (v.toNat - 0xDC00)).isValidChar := by
    simp only [Nat.isValidChar]
    omega
  unfold charOfPair Char.ofNat
  rw [dif_pos hvalid]
  show 128 ≤ 0x10000 + (u.toNat - 0xD800) * 0x400 + (v.toNat - 0xDC00)
  omega

/-- An ASCII character of the text is one of the units. -/
theorem mem_of_ascii_mem_decodeUtf16 {c : Char} (hc : c.toNat < 128) {w : WideString}
    (h : c ∈ decodeUtf16 w) : UInt16.ofNat c.toNat ∈ w := by
  fun_induction decodeUtf16 w with
  | case1 => cases h
  | case2 u =>
    rw [List.mem_singleton] at h
    exact List.mem_singleton.mpr ((charOfUnit_eq_ascii hc).mp h.symm).symm
  | case3 u v rest hpair ih =>
    rw [Bool.and_eq_true] at hpair
    rcases List.mem_cons.mp h with h | h
    · have hle := le_toNat_charOfPair hpair.1 hpair.2
      rw [← h] at hle
      omega
    · exact List.mem_cons_of_mem _ (List.mem_cons_of_mem _ (ih h))
  | case4 u v rest hpair ih =>
    rcases List.mem_cons.mp h with h | h
    · exact List.mem_cons.mpr (Or.inl ((charOfUnit_eq_ascii hc).mp h.symm).symm)
    · exact List.mem_cons_of_mem _ (ih h)

/-! ## UTF-8 -/

def encodeUtf8 (cs : List Char) : List UInt8 := cs.flatMap String.utf8EncodeChar

/-- The bytes that may follow a first byte, and how many bytes follow it. -/
def secondByteRange (b : UInt8) : Option (UInt8 × UInt8 × Nat) :=
  if 0xC2 ≤ b && b ≤ 0xDF then some (0x80, 0xBF, 1)
  else if b = 0xE0 then some (0xA0, 0xBF, 2)
  else if b = 0xED then some (0x80, 0x9F, 2)
  else if 0xE1 ≤ b && b ≤ 0xEF then some (0x80, 0xBF, 2)
  else if b = 0xF0 then some (0x90, 0xBF, 3)
  else if 0xF1 ≤ b && b ≤ 0xF3 then some (0x80, 0xBF, 3)
  else if b = 0xF4 then some (0x80, 0x8F, 3)
  else none

def isContinuationByte (b : UInt8) : Bool := 0x80 ≤ b && b ≤ 0xBF

/-- How many bytes after the first belong to a broken sequence. -/
def brokenTail (b : UInt8) (rest : List UInt8) : Nat :=
  match secondByteRange b, rest with
  | some (lo, hi, more), b1 :: rest' =>
    if lo ≤ b1 && b1 ≤ hi then 1 + ((rest'.take (more - 1)).takeWhile isContinuationByte).length
    else 0
  | _, _ => 0

/-- The loop of the decoder, one character or one replacement a turn. -/
def decodeUtf8From : Nat → List UInt8 → List Char
  | 0, _ => []
  | _, [] => []
  | fuel + 1, b :: rest =>
    match (b :: rest).toByteArray.utf8DecodeChar? 0 with
    | some c => c :: decodeUtf8From fuel ((b :: rest).drop c.utf8Size)
    | none => replacementChar :: decodeUtf8From fuel (rest.drop (brokenTail b rest))

def decodeUtf8 (bytes : List UInt8) : List Char := decodeUtf8From bytes.length bytes

theorem utf8DecodeChar_encode (c : Char) (rest : List UInt8) :
    (String.utf8EncodeChar c ++ rest).toByteArray.utf8DecodeChar? 0 = some c := by
  rw [List.toByteArray_append]
  exact ByteArray.utf8DecodeChar?_utf8EncodeChar_append

theorem decodeUtf8From_encodeUtf8 (cs : List Char) :
    ∀ fuel, (encodeUtf8 cs).length ≤ fuel → decodeUtf8From fuel (encodeUtf8 cs) = cs := by
  induction cs with
  | nil => intro fuel _; cases fuel <;> rfl
  | cons c cs ih =>
    intro fuel hfuel
    have hcons : encodeUtf8 (c :: cs) = String.utf8EncodeChar c ++ encodeUtf8 cs := rfl
    have hsize : 0 < c.utf8Size := c.utf8Size_pos
    rw [hcons, List.length_append, String.length_utf8EncodeChar] at hfuel
    obtain ⟨fuel, rfl⟩ : ∃ f, fuel = f + 1 := ⟨fuel - 1, by omega⟩
    obtain ⟨b, rest, hb⟩ := List.exists_cons_of_ne_nil
      (l := String.utf8EncodeChar c ++ encodeUtf8 cs)
      (by simp [String.utf8EncodeChar_ne_nil])
    rw [hcons, hb, decodeUtf8From, ← hb, utf8DecodeChar_encode]
    have hdrop : (String.utf8EncodeChar c ++ encodeUtf8 cs).drop c.utf8Size = encodeUtf8 cs :=
      List.drop_left' (String.length_utf8EncodeChar c)
    simp only [hdrop, ih fuel (by omega)]

/-- Decoding UTF-8 undoes encoding. -/
@[simp] theorem decodeUtf8_encodeUtf8 (cs : List Char) : decodeUtf8 (encodeUtf8 cs) = cs :=
  decodeUtf8From_encodeUtf8 cs _ (Nat.le_refl _)

theorem encodeUtf8_injective {cs ds : List Char} (h : encodeUtf8 cs = encodeUtf8 ds) : cs = ds := by
  have hdecode := congrArg decodeUtf8 h
  simpa using hdecode

/-! ### ASCII characters

A byte below 128 is a character of its own, so a search for an ASCII character in the bytes
of a text finds what the same search in the text finds. -/

@[simp] theorem encodeUtf8_nil : encodeUtf8 [] = [] := rfl

theorem encodeUtf8_cons (c : Char) (cs : List Char) :
    encodeUtf8 (c :: cs) = String.utf8EncodeChar c ++ encodeUtf8 cs := rfl

theorem encodeUtf8_append (cs ds : List Char) :
    encodeUtf8 (cs ++ ds) = encodeUtf8 cs ++ encodeUtf8 ds := by
  simp [encodeUtf8]

theorem utf8EncodeChar_ascii {c : Char} (h : c.toNat < 128) :
    String.utf8EncodeChar c = [UInt8.ofNat c.toNat] := by
  have hle : c.val.toNat ≤ 0x7f := by
    change c.toNat ≤ 0x7f
    omega
  unfold String.utf8EncodeChar
  rw [if_pos hle]
  rfl

theorem le_of_mem_utf8EncodeChar {c : Char} (h : 128 ≤ c.toNat) {b : UInt8}
    (hb : b ∈ String.utf8EncodeChar c) : 128 ≤ b.toNat := by
  have hgt : ¬c.val.toNat ≤ 0x7f := by
    change ¬c.toNat ≤ 0x7f
    omega
  unfold String.utf8EncodeChar at hb
  rw [if_neg hgt] at hb
  split at hb
  · simp only [List.mem_cons, List.not_mem_nil, or_false] at hb
    rcases hb with rfl | rfl <;> rw [UInt8.toNat_ofNat'] <;> omega
  · split at hb
    · simp only [List.mem_cons, List.not_mem_nil, or_false] at hb
      rcases hb with rfl | rfl | rfl <;> rw [UInt8.toNat_ofNat'] <;> omega
    · simp only [List.mem_cons, List.not_mem_nil, or_false] at hb
      rcases hb with rfl | rfl | rfl | rfl <;> rw [UInt8.toNat_ofNat'] <;> omega

theorem toNat_ofNat_ascii {n : Nat} (h : n < 128) : (UInt8.ofNat n).toNat = n := by
  rw [UInt8.toNat_ofNat']
  omega

theorem splitOnP_append_of_none {α : Type} {p : α → Bool} {xs : List α} (h : ∀ x ∈ xs, p x = false)
    (rest : List α) : (xs ++ rest).splitOnP p = (rest.splitOnP p).modifyHead (xs ++ ·) := by
  induction xs with
  | nil => exact (congrFun List.modifyHead_id _).symm
  | cons x xs ih =>
    have hx : p x = false := h x (by simp)
    have hxs := ih fun y hy => h y (List.mem_cons_of_mem _ hy)
    rw [List.cons_append, List.splitOnP_cons_eq_if_modifyHead, hx, hxs]
    cases rest.splitOnP p <;> rfl

/-- A predicate on bytes that holds of ASCII characters only. -/
structure AsciiTest (p : UInt8 → Bool) (q : Char → Bool) : Prop where
  ascii : ∀ c : Char, c.toNat < 128 → p (UInt8.ofNat c.toNat) = q c
  byte : ∀ b : UInt8, 128 ≤ b.toNat → p b = false
  char : ∀ c : Char, 128 ≤ c.toNat → q c = false

theorem map_encodeUtf8_modifyHead (c : Char) (parts : List (List Char)) :
    (parts.modifyHead (c :: ·)).map encodeUtf8
      = (parts.map encodeUtf8).modifyHead (String.utf8EncodeChar c ++ ·) := by
  cases parts <;> rfl

/-- Splitting the bytes of a text at ASCII characters splits the text. -/
theorem splitOnP_encodeUtf8 {p : UInt8 → Bool} {q : Char → Bool} (h : AsciiTest p q)
    (cs : List Char) : (encodeUtf8 cs).splitOnP p = (cs.splitOnP q).map encodeUtf8 := by
  induction cs with
  | nil => rfl
  | cons c cs ih =>
    rw [encodeUtf8_cons, List.splitOnP_cons_eq_if_modifyHead]
    by_cases hc : c.toNat < 128
    · rw [utf8EncodeChar_ascii hc, List.singleton_append, List.splitOnP_cons_eq_if_modifyHead,
        h.ascii c hc, ih]
      split
      · rfl
      · rw [map_encodeUtf8_modifyHead, utf8EncodeChar_ascii hc]
        rfl
    · have hq : q c = false := h.char c (by omega)
      have hbytes : ∀ b ∈ String.utf8EncodeChar c, p b = false := by
        intro b hb
        exact h.byte b (le_of_mem_utf8EncodeChar (by omega) hb)
      rw [splitOnP_append_of_none hbytes, ih, hq, if_neg Bool.false_ne_true,
        map_encodeUtf8_modifyHead]

/-! ### Texts with broken sequences

A decoder that replaces what is broken keeps every ASCII character at its place. -/

/-- The bytes stand for the text: an ASCII character for its byte, any other character for
bytes from 128 on. -/
inductive Spells : List UInt8 → List Char → Prop where
  | nil : Spells [] []
  | ascii {c : Char} {bytes : List UInt8} {text : List Char} (hc : c.toNat < 128)
      (rest : Spells bytes text) : Spells (UInt8.ofNat c.toNat :: bytes) (c :: text)
  | other {c : Char} {chunk bytes : List UInt8} {text : List Char} (hc : 128 ≤ c.toNat)
      (hne : chunk ≠ []) (hchunk : ∀ b ∈ chunk, 128 ≤ b.toNat) (rest : Spells bytes text) :
      Spells (chunk ++ bytes) (c :: text)

theorem Spells.encodeChar (c : Char) {bytes : List UInt8} {text : List Char}
    (h : Spells bytes text) : Spells (String.utf8EncodeChar c ++ bytes) (c :: text) := by
  by_cases hc : c.toNat < 128
  · rw [utf8EncodeChar_ascii hc]
    exact .ascii hc h
  · apply Spells.other (by omega) String.utf8EncodeChar_ne_nil _ h
    intro b hb
    exact le_of_mem_utf8EncodeChar (by omega) hb

theorem le_of_secondByteRange {b lo hi : UInt8} {more : Nat}
    (h : secondByteRange b = some (lo, hi, more)) : 128 ≤ lo.toNat := by
  unfold secondByteRange at h
  repeat' split at h
  all_goals cases h
  all_goals decide

theorem le_of_mem_brokenTail {b : UInt8} {rest : List UInt8} :
    ∀ x ∈ rest.take (brokenTail b rest), 128 ≤ x.toNat := by
  intro x hx
  unfold brokenTail at hx
  split at hx
  · rename_i lo hi more b1 rest' hrange
    split at hx
    · rename_i hb1
      have hlo := le_of_secondByteRange hrange
      rw [Bool.and_eq_true, decide_eq_true_eq, UInt8.le_iff_toNat_le] at hb1
      rw [Nat.add_comm, List.take_succ_cons, List.mem_cons] at hx
      rcases hx with rfl | hx
      · omega
      · -- The bytes after the second are continuation bytes.
        have hpre : (rest'.take (more - 1)).takeWhile isContinuationByte <+: rest' :=
          (List.takeWhile_prefix _).trans (List.take_prefix _ _)
        rw [← List.prefix_iff_eq_take.mp hpre] at hx
        have hcont := List.mem_takeWhile_imp hx
        rw [isContinuationByte, Bool.and_eq_true, decide_eq_true_eq, UInt8.le_iff_toNat_le] at hcont
        exact hcont.1
    · cases hx
  · cases hx

theorem spells_decodeUtf8From {fuel : Nat} :
    ∀ {bytes : List UInt8}, bytes.length ≤ fuel → Spells bytes (decodeUtf8From fuel bytes) := by
  induction fuel with
  | zero =>
    intro bytes hfuel
    rw [List.length_eq_zero_iff.mp (Nat.le_zero.mp hfuel)]
    exact .nil
  | succ fuel ih =>
    intro bytes hfuel
    cases bytes with
    | nil => exact .nil
    | cons b rest =>
      rw [List.length_cons] at hfuel
      rw [decodeUtf8From]
      cases hdecode : (b :: rest).toByteArray.utf8DecodeChar? 0 with
      | some c =>
        obtain ⟨tail, htail⟩ := ByteArray.exists_of_utf8DecodeChar?_eq_some hdecode
        have hsplit : b :: rest = String.utf8EncodeChar c ++ tail.data.toList := by
          have hdata := congrArg (fun a : ByteArray => a.data.toList) htail
          simpa using hdata
        have hsize : 0 < c.utf8Size := c.utf8Size_pos
        have hdrop : (b :: rest).drop c.utf8Size = tail.data.toList := by
          rw [hsplit]
          exact List.drop_left' (String.length_utf8EncodeChar c)
        simp only [hdrop]
        have hlength := congrArg List.length hsplit
        rw [List.length_cons, List.length_append, String.length_utf8EncodeChar] at hlength
        rw [hsplit]
        exact (ih (by omega)).encodeChar c
      | none =>
        -- A byte below 128 is decoded.
        have hb : 128 ≤ b.toNat := by
          by_contra hlow
          have hnat : (Char.ofNat b.toNat).toNat = b.toNat := char_toNat_ofNat (by omega)
          have hchar := utf8DecodeChar_encode (Char.ofNat b.toNat) rest
          rw [utf8EncodeChar_ascii (by omega), hnat, UInt8.ofNat_toNat, List.singleton_append,
            hdecode] at hchar
          cases hchar
        have hsplit : b :: rest
            = (b :: rest.take (brokenTail b rest)) ++ rest.drop (brokenTail b rest) := by
          rw [List.cons_append, List.take_append_drop]
        rw [hsplit]
        apply Spells.other (by decide) (List.cons_ne_nil _ _) _ (ih (by rw [List.length_drop]; omega))
        intro x hx
        rcases List.mem_cons.mp hx with rfl | hx
        · exact hb
        · exact le_of_mem_brokenTail x hx

/-- What the decoder reads of any bytes. -/
theorem spells_decodeUtf8 (bytes : List UInt8) : Spells bytes (decodeUtf8 bytes) :=
  spells_decodeUtf8From (Nat.le_refl _)

/-- An ASCII text has its own bytes only. -/
theorem Spells.eq_encodeUtf8 {bytes : List UInt8} {text : List Char} (h : Spells bytes text)
    (hascii : ∀ c ∈ text, c.toNat < 128) : bytes = encodeUtf8 text := by
  induction h with
  | nil => rfl
  | ascii hc rest ih =>
    rw [encodeUtf8_cons, utf8EncodeChar_ascii hc,
      ih fun c hmem => hascii c (List.mem_cons_of_mem _ hmem)]
    rfl
  | other hc hne hchunk rest ih =>
    have hlow := hascii _ (List.mem_cons_self ..)
    omega

/-- An ASCII character of the text is one of the bytes. -/
theorem Spells.mem_bytes {bytes : List UInt8} {text : List Char} (h : Spells bytes text)
    {c : Char} (hc : c.toNat < 128) (hmem : c ∈ text) : UInt8.ofNat c.toNat ∈ bytes := by
  induction h with
  | nil => cases hmem
  | ascii hx rest ih =>
    rcases List.mem_cons.mp hmem with rfl | hmem
    · exact List.mem_cons_self ..
    · exact List.mem_cons_of_mem _ (ih hmem)
  | other hx hne hchunk rest ih =>
    rcases List.mem_cons.mp hmem with rfl | hmem
    · omega
    · exact List.mem_append_right _ (ih hmem)

theorem forall₂_modifyHead {α β : Type} {R : α → β → Prop} {f : α → α} {g : β → β}
    (hfg : ∀ a b, R a b → R (f a) (g b)) {as : List α} {bs : List β} (h : List.Forall₂ R as bs) :
    List.Forall₂ R (as.modifyHead f) (bs.modifyHead g) := by
  cases h with
  | nil => exact .nil
  | cons hhead htail => exact .cons (hfg _ _ hhead) htail

/-- Splitting the bytes at ASCII characters splits the text. -/
theorem Spells.splitOnP {p : UInt8 → Bool} {q : Char → Bool} (htest : AsciiTest p q)
    {bytes : List UInt8} {text : List Char} (h : Spells bytes text) :
    List.Forall₂ Spells (bytes.splitOnP p) (text.splitOnP q) := by
  induction h with
  | nil => exact .cons .nil .nil
  | @ascii c bytes text hc rest ih =>
    rw [List.splitOnP_cons_eq_if_modifyHead, List.splitOnP_cons_eq_if_modifyHead,
      htest.ascii c hc]
    split
    · exact .cons .nil ih
    · exact forall₂_modifyHead (fun a b hab => .ascii hc hab) ih
  | @other c chunk bytes text hc hne hchunk rest ih =>
    have hbytes : ∀ b ∈ chunk, p b = false := fun b hb => htest.byte b (hchunk b hb)
    rw [splitOnP_append_of_none hbytes, List.splitOnP_cons_eq_if_modifyHead, htest.char c hc,
      if_neg Bool.false_ne_true]
    exact forall₂_modifyHead (fun a b hab => .other hc hne hchunk hab) ih

/-- Each part of the text is spelled by a part of the bytes. -/
theorem Spells.exists_part {p : UInt8 → Bool} {q : Char → Bool} (htest : AsciiTest p q)
    {bytes : List UInt8} {text : List Char} (h : Spells bytes text) {n : List Char}
    (hn : n ∈ text.splitOnP q) : ∃ part ∈ bytes.splitOnP p, Spells part n := by
  have hparts := h.splitOnP htest
  generalize bytes.splitOnP p = as at hparts ⊢
  generalize text.splitOnP q = bs at hparts hn
  induction hparts with
  | nil => cases hn
  | cons hhead htail ih =>
    rcases List.mem_cons.mp hn with rfl | hn
    · exact ⟨_, List.mem_cons_self .., hhead⟩
    · obtain ⟨part, hpart, hspells⟩ := ih hn
      exact ⟨part, List.mem_cons_of_mem _ hpart, hspells⟩

end LayerMount.Lib
