import LayerMount.Lib.Unicode

/-!
# Groups of bytes

A first byte announces how many continuation bytes follow it.  A group is a first byte with
that many of them, whatever its value.  A text is spelled by the groups whose value is a scalar
value in its shortest form (`scalar_iff`); the others are an overlong form, a surrogate, or a
value above the last scalar value.

Bytes split into groups in one way at most (`groups_unique`).  The decoder reads bytes group by
group, and makes replacement characters of a group that is not scalar
(`decodeUtf8_append_group`), as many for one such group as for another of its length.
-/

namespace LayerMount.Lib

/-- A byte that follows a first byte. -/
def Continues (b : UInt8) : Prop := 0x80 ≤ b.toNat ∧ b.toNat < 0xC0

/-- A first byte that is not zero and the continuation bytes that it announces. -/
inductive IsGroup : List UInt8 → Prop where
  | one {a : UInt8} (hpos : 0 < a.toNat) (ha : a.toNat < 0x80) : IsGroup [a]
  | two {a b : UInt8} (hlead : 0xC0 ≤ a.toNat) (ha : a.toNat < 0xE0) (hb : Continues b) :
    IsGroup [a, b]
  | three {a b c : UInt8} (hlead : 0xE0 ≤ a.toNat) (ha : a.toNat < 0xF0) (hb : Continues b)
    (hc : Continues c) : IsGroup [a, b, c]
  | four {a b c d : UInt8} (hlead : 0xF0 ≤ a.toNat) (ha : a.toNat < 0xF8) (hb : Continues b)
    (hc : Continues c) (hd : Continues d) : IsGroup [a, b, c, d]

/-- The value of the bits of a group. -/
def groupValue : List UInt8 → Nat
  | [a] => a.toNat
  | [a, b] => a.toNat % 0x20 * 0x40 + b.toNat % 0x40
  | [a, b, c] => (a.toNat % 0x10 * 0x40 + b.toNat % 0x40) * 0x40 + c.toNat % 0x40
  | [a, b, c, d] =>
    ((a.toNat % 0x08 * 0x40 + b.toNat % 0x40) * 0x40 + c.toNat % 0x40) * 0x40 + d.toNat % 0x40
  | _ => 0

/-- The least value that needs a group of that length. -/
def leastValue : Nat → Nat
  | 2 => 0x80
  | 3 => 0x800
  | 4 => 0x10000
  | _ => 0

/-- A value that a shorter group has. -/
def Overlong (g : List UInt8) : Prop := groupValue g < leastValue g.length

def SurrogateGroup (g : List UInt8) : Prop := 0xD800 ≤ groupValue g ∧ groupValue g ≤ 0xDFFF

/-- A value above the last scalar value. -/
def TooLarge (g : List UInt8) : Prop := 0x10FFFF < groupValue g

/-- The shortest form of a scalar value. -/
structure ScalarGroup (g : List UInt8) : Prop where
  shortest : ¬ Overlong g
  notSurrogate : ¬ SurrogateGroup g
  notTooLarge : ¬ TooLarge g

instance (g : List UInt8) : Decidable (Overlong g) := inferInstanceAs (Decidable (_ < _))

instance (g : List UInt8) : Decidable (SurrogateGroup g) := inferInstanceAs (Decidable (_ ∧ _))

instance (g : List UInt8) : Decidable (TooLarge g) := inferInstanceAs (Decidable (_ < _))

instance (g : List UInt8) : Decidable (ScalarGroup g) :=
  decidable_of_iff (¬ Overlong g ∧ ¬ SurrogateGroup g ∧ ¬ TooLarge g)
    ⟨fun h => ⟨h.1, h.2.1, h.2.2⟩, fun h => ⟨h.1, h.2, h.3⟩⟩

theorem not_scalarGroup_iff {g : List UInt8} :
    ¬ ScalarGroup g ↔ Overlong g ∨ SurrogateGroup g ∨ TooLarge g := by
  constructor
  · intro h
    by_contra hnone
    rw [not_or, not_or] at hnone
    exact h ⟨hnone.1, hnone.2.1, hnone.2.2⟩
  · intro h hs
    rcases h with h | h | h
    · exact hs.shortest h
    · exact hs.notSurrogate h
    · exact hs.notTooLarge h

/-! ## Characters -/

theorem toNat_ofNat_byte {n : Nat} (h : n < 256) : (UInt8.ofNat n).toNat = n := by
  rw [UInt8.toNat_ofNat']
  omega

theorem ofNat_eq_of_toNat {b : UInt8} {n : Nat} (h : b.toNat = n) : UInt8.ofNat n = b := by
  rw [← h, UInt8.ofNat_toNat]

/-- The bytes of a character other than NUL are a group whose value is the character. -/
theorem isGroup_utf8EncodeChar {c : Char} (hc : c.toNat ≠ 0) :
    IsGroup (String.utf8EncodeChar c) ∧ ScalarGroup (String.utf8EncodeChar c) := by
  have hrange := char_toNat_range c
  have hval : c.val.toNat = c.toNat := rfl
  unfold String.utf8EncodeChar
  simp only [hval]
  split
  · have ha := toNat_ofNat_byte (n := c.toNat) (by omega)
    refine ⟨.one (by omega) (by omega), ?_, ?_, ?_⟩
    all_goals simp only [Overlong, SurrogateGroup, TooLarge, groupValue, leastValue,
      List.length_cons, List.length_nil, ha]
    all_goals omega
  · split
    · have ha := toNat_ofNat_byte (n := c.toNat / 64 % 32 + 192) (by omega)
      have hb := toNat_ofNat_byte (n := c.toNat % 64 + 128) (by omega)
      refine ⟨.two (by omega) (by omega) ⟨by omega, by omega⟩, ?_, ?_, ?_⟩
      all_goals simp only [Overlong, SurrogateGroup, TooLarge, groupValue, leastValue,
        List.length_cons, List.length_nil, ha, hb]
      all_goals omega
    · split
      · have ha := toNat_ofNat_byte (n := c.toNat / 4096 % 16 + 224) (by omega)
        have hb := toNat_ofNat_byte (n := c.toNat / 64 % 64 + 128) (by omega)
        have hd := toNat_ofNat_byte (n := c.toNat % 64 + 128) (by omega)
        refine ⟨.three (by omega) (by omega) ⟨by omega, by omega⟩ ⟨by omega, by omega⟩, ?_, ?_, ?_⟩
        all_goals simp only [Overlong, SurrogateGroup, TooLarge, groupValue, leastValue,
          List.length_cons, List.length_nil, ha, hb, hd]
        all_goals omega
      · have ha := toNat_ofNat_byte (n := c.toNat / 262144 % 8 + 240) (by omega)
        have hb := toNat_ofNat_byte (n := c.toNat / 4096 % 64 + 128) (by omega)
        have hd := toNat_ofNat_byte (n := c.toNat / 64 % 64 + 128) (by omega)
        have he := toNat_ofNat_byte (n := c.toNat % 64 + 128) (by omega)
        refine ⟨.four (by omega) (by omega) ⟨by omega, by omega⟩ ⟨by omega, by omega⟩
          ⟨by omega, by omega⟩, ?_, ?_, ?_⟩
        all_goals simp only [Overlong, SurrogateGroup, TooLarge, groupValue, leastValue,
          List.length_cons, List.length_nil, ha, hb, hd, he]
        all_goals omega

theorem char_toNat_ofNat_valid {n : Nat} (h : n < 0xD800 ∨ (0xDFFF < n ∧ n < 0x110000)) :
    (Char.ofNat n).toNat = n := by
  have hvalid : n.isValidChar := h
  unfold Char.ofNat
  rw [dif_pos hvalid]
  rfl

/-- A group is the bytes of a character exactly when it is the shortest form of a scalar
value. -/
theorem scalar_iff {g : List UInt8} (h : IsGroup g) :
    ScalarGroup g ↔ ∃ c : Char, c.toNat ≠ 0 ∧ String.utf8EncodeChar c = g := by
  constructor
  · intro hs
    obtain ⟨hshortest, hsurrogate, hlarge⟩ := hs
    unfold Overlong at hshortest
    unfold SurrogateGroup at hsurrogate
    unfold TooLarge at hlarge
    generalize hvalue : groupValue g = n at hshortest hsurrogate hlarge
    have hchar : (Char.ofNat n).toNat = n := char_toNat_ofNat_valid (by omega)
    have hval : (Char.ofNat n).val.toNat = n := hchar
    refine ⟨Char.ofNat n, ?_⟩
    rw [hchar]
    unfold String.utf8EncodeChar
    simp only [hval]
    cases h with
    | @one a hpos ha =>
      simp only [groupValue] at hvalue
      refine ⟨by omega, ?_⟩
      rw [if_pos (by omega), ofNat_eq_of_toNat hvalue]
    | @two a b hlead ha hb =>
      unfold Continues at hb
      simp only [groupValue, leastValue, List.length_cons, List.length_nil] at hvalue hshortest
      refine ⟨by omega, ?_⟩
      rw [if_neg (by omega), if_pos (by omega)]
      congr 1
      · exact ofNat_eq_of_toNat (by omega)
      congr 1
      exact ofNat_eq_of_toNat (by omega)
    | @three a b c hlead ha hb hc =>
      unfold Continues at hb hc
      simp only [groupValue, leastValue, List.length_cons, List.length_nil] at hvalue hshortest
      refine ⟨by omega, ?_⟩
      rw [if_neg (by omega), if_neg (by omega), if_pos (by omega)]
      congr 1
      · exact ofNat_eq_of_toNat (by omega)
      congr 1
      · exact ofNat_eq_of_toNat (by omega)
      congr 1
      exact ofNat_eq_of_toNat (by omega)
    | @four a b c d hlead ha hb hc hd =>
      unfold Continues at hb hc hd
      simp only [groupValue, leastValue, List.length_cons, List.length_nil] at hvalue hshortest
      refine ⟨by omega, ?_⟩
      rw [if_neg (by omega), if_neg (by omega), if_neg (by omega)]
      congr 1
      · exact ofNat_eq_of_toNat (by omega)
      congr 1
      · exact ofNat_eq_of_toNat (by omega)
      congr 1
      · exact ofNat_eq_of_toNat (by omega)
      congr 1
      exact ofNat_eq_of_toNat (by omega)
  · intro hc
    obtain ⟨c, hne, rfl⟩ := hc
    exact (isGroup_utf8EncodeChar hne).2

/-! ## Splits into groups -/

/-- How long the group of a first byte is. -/
def announcedLength (a : UInt8) : Nat :=
  if a.toNat < 0x80 then 1 else if a.toNat < 0xE0 then 2 else if a.toNat < 0xF0 then 3 else 4

/-- The first byte of a group announces its length, and none of the bytes is zero. -/
theorem IsGroup.exists_cons {g : List UInt8} (h : IsGroup g) :
    ∃ a tail, g = a :: tail ∧ g.length = announcedLength a ∧ ¬ Continues a ∧ a ≠ 0 := by
  have hzero : ∀ a : UInt8, 0 < a.toNat → a ≠ 0 := by
    intro a hpos heq
    rw [heq] at hpos
    exact absurd hpos (by decide)
  unfold announcedLength Continues
  cases h with
  | @one a hpos ha =>
    refine ⟨a, [], rfl, ?_, by omega, hzero a (by omega)⟩
    rw [if_pos (by omega)]
    rfl
  | @two a b hlead ha hb =>
    refine ⟨a, [b], rfl, ?_, by omega, hzero a (by omega)⟩
    rw [if_neg (by omega), if_pos (by omega)]
    rfl
  | @three a b c hlead ha hb hc =>
    refine ⟨a, [b, c], rfl, ?_, by omega, hzero a (by omega)⟩
    rw [if_neg (by omega), if_neg (by omega), if_pos (by omega)]
    rfl
  | @four a b c d hlead ha hb hc hd =>
    refine ⟨a, [b, c, d], rfl, ?_, by omega, hzero a (by omega)⟩
    rw [if_neg (by omega), if_neg (by omega), if_neg (by omega)]
    rfl

theorem IsGroup.eq_of_append {g g' rest rest' : List UInt8} (h : IsGroup g) (h' : IsGroup g')
    (heq : g ++ rest = g' ++ rest') : g = g' ∧ rest = rest' := by
  obtain ⟨a, tail, hg, hlength, -⟩ := h.exists_cons
  obtain ⟨a', tail', hg', hlength', -⟩ := h'.exists_cons
  have hfirst : a = a' := by
    rw [hg, hg'] at heq
    exact (List.cons.inj heq).1
  rw [← hfirst, ← hlength] at hlength'
  exact List.append_inj heq hlength'.symm

/-- Bytes split into groups in one way at most. -/
theorem groups_unique {groups groups' : List (List UInt8)} (h : ∀ g ∈ groups, IsGroup g)
    (h' : ∀ g ∈ groups', IsGroup g) (heq : groups.flatten = groups'.flatten) :
    groups = groups' := by
  have hne : ∀ g rest, IsGroup g → g ++ rest ≠ [] := by
    intro g rest hg hnil
    obtain ⟨a, tail, rfl, -⟩ := hg.exists_cons
    exact absurd hnil (by simp)
  induction groups generalizing groups' with
  | nil =>
    cases groups' with
    | nil => rfl
    | cons g' groups' => exact absurd heq.symm (hne g' _ (h' g' (by simp)))
  | cons g groups ih =>
    cases groups' with
    | nil => exact absurd heq (hne g _ (h g (by simp)))
    | cons g' groups' =>
      rw [List.flatten_cons, List.flatten_cons] at heq
      rw [List.forall_mem_cons] at h h'
      obtain ⟨rfl, hrest⟩ := h.1.eq_of_append h'.1 heq
      rw [ih h.2 h'.2 hrest]

/-- A text without a NUL splits into the bytes of its characters. -/
theorem isGroup_of_text {text : List Char} (h : ∀ c ∈ text, c.toNat ≠ 0) :
    ∀ g ∈ text.map String.utf8EncodeChar, IsGroup g ∧ ScalarGroup g := by
  intro g hg
  obtain ⟨c, hc, rfl⟩ := List.mem_map.mp hg
  exact isGroup_utf8EncodeChar (h c hc)

theorem flatten_map_utf8EncodeChar (text : List Char) :
    (text.map String.utf8EncodeChar).flatten = encodeUtf8 text := (List.flatMap_def ..).symm

/-- Groups are the bytes of a text exactly where each is scalar. -/
theorem flatten_eq_encodeUtf8_iff {groups : List (List UInt8)} (h : ∀ g ∈ groups, IsGroup g) :
    (∃ text : List Char, (∀ c ∈ text, c.toNat ≠ 0) ∧ encodeUtf8 text = groups.flatten) ↔
      ∀ g ∈ groups, ScalarGroup g := by
  constructor
  · intro htext
    obtain ⟨text, hnul, heq⟩ := htext
    have hchars := isGroup_of_text hnul
    rw [← flatten_map_utf8EncodeChar] at heq
    rw [← groups_unique (fun g hg => (hchars g hg).1) h heq]
    exact fun g hg => (hchars g hg).2
  · intro hs
    induction groups with
    | nil => exact ⟨[], by simp, rfl⟩
    | cons g groups ih =>
      rw [List.forall_mem_cons] at h hs
      obtain ⟨c, hc, hg⟩ := (scalar_iff h.1).mp hs.1
      obtain ⟨text, hnul, htext⟩ := ih h.2 hs.2
      refine ⟨c :: text, List.forall_mem_cons.mpr ⟨hc, hnul⟩, ?_⟩
      rw [encodeUtf8_cons, hg, htext, List.flatten_cons]

/-! ## Decoding by groups -/

/-- More turns than bytes change nothing. -/
theorem decodeUtf8From_fuel {fuel fuel' : Nat} {bytes : List UInt8} (h : bytes.length ≤ fuel)
    (h' : bytes.length ≤ fuel') : decodeUtf8From fuel bytes = decodeUtf8From fuel' bytes := by
  induction fuel generalizing fuel' bytes with
  | zero =>
    have hnil : bytes = [] := List.length_eq_zero_iff.mp (by omega)
    rw [hnil]
    cases fuel' <;> rfl
  | succ fuel ih =>
    cases bytes with
    | nil => cases fuel' <;> rfl
    | cons b rest =>
      rw [List.length_cons] at h h'
      obtain ⟨fuel', rfl⟩ : ∃ f, fuel' = f + 1 := ⟨fuel' - 1, by omega⟩
      rw [decodeUtf8From, decodeUtf8From]
      cases (b :: rest).toByteArray.utf8DecodeChar? 0 with
      | none =>
        have hlength : (rest.drop (brokenTail b rest)).length ≤ rest.length := by
          rw [List.length_drop]
          omega
        exact congrArg (replacementChar :: ·) (ih (by omega) (by omega))
      | some c =>
        have hsize := c.utf8Size_pos
        have hlength : ((b :: rest).drop c.utf8Size).length ≤ rest.length := by
          rw [List.length_drop, List.length_cons]
          omega
        exact congrArg (c :: ·) (ih (by omega) (by omega))

theorem decodeUtf8_append_char (c : Char) (rest : List UInt8) :
    decodeUtf8 (String.utf8EncodeChar c ++ rest) = c :: decodeUtf8 rest := by
  have hsize := c.utf8Size_pos
  have hlength : (String.utf8EncodeChar c ++ rest).length = c.utf8Size + rest.length := by
    rw [List.length_append, String.length_utf8EncodeChar]
  obtain ⟨b, tail, hb⟩ := List.exists_cons_of_ne_nil
    (show String.utf8EncodeChar c ++ rest ≠ [] by simp [String.utf8EncodeChar_ne_nil])
  have hfuel : decodeUtf8 (String.utf8EncodeChar c ++ rest)
      = decodeUtf8From ((c.utf8Size + rest.length - 1) + 1) (String.utf8EncodeChar c ++ rest) :=
    decodeUtf8From_fuel (Nat.le_refl _) (by omega)
  rw [hfuel, hb, decodeUtf8From, ← hb, utf8DecodeChar_encode]
  have hdrop : (String.utf8EncodeChar c ++ rest).drop c.utf8Size = rest :=
    List.drop_left' (String.length_utf8EncodeChar c)
  dsimp only
  rw [hdrop]
  exact congrArg (c :: ·) (decodeUtf8From_fuel (by omega) (Nat.le_refl _))

/-- A first byte of nothing, whose next byte does not belong to it, is replaced alone. -/
theorem decodeUtf8_broken {b : UInt8} {rest : List UInt8}
    (hchar : ∀ (c : Char) (tail : List UInt8), b :: rest ≠ String.utf8EncodeChar c ++ tail)
    (htail : brokenTail b rest = 0) :
    decodeUtf8 (b :: rest) = replacementChar :: decodeUtf8 rest := by
  have hnone : (b :: rest).toByteArray.utf8DecodeChar? 0 = none := by
    cases hdecode : (b :: rest).toByteArray.utf8DecodeChar? 0 with
    | none => rfl
    | some c =>
      obtain ⟨l, hl⟩ := ByteArray.exists_of_utf8DecodeChar?_eq_some hdecode
      have hlist := congrArg (fun bytes => bytes.data.toList) hl
      simp only [List.toList_data_toByteArray, ByteArray.data_append, Array.toList_append] at hlist
      exact absurd hlist (hchar c _)
  rw [decodeUtf8, List.length_cons, decodeUtf8From, hnone, htail]
  rfl

theorem decodeUtf8_continuation {b : UInt8} (hb : Continues b) (rest : List UInt8) :
    decodeUtf8 (b :: rest) = replacementChar :: decodeUtf8 rest := by
  obtain ⟨hlow, hhigh⟩ := hb
  apply decodeUtf8_broken
  · intro c tail heq
    by_cases hc : c.toNat = 0
    · have hnul : String.utf8EncodeChar c = [UInt8.ofNat 0] := by
        rw [utf8EncodeChar_ascii (by omega), hc]
      rw [hnul] at heq
      rw [(List.cons.inj heq).1] at hlow
      exact absurd hlow (by decide)
    · obtain ⟨a, tail', henc, -, hlead, -⟩ := (isGroup_utf8EncodeChar hc).1.exists_cons
      rw [henc] at heq
      rw [(List.cons.inj heq).1] at hlow hhigh
      exact hlead ⟨hlow, hhigh⟩
  · have hnone : secondByteRange b = none := by
      unfold secondByteRange
      simp only [Bool.and_eq_true, decide_eq_true_eq, UInt8.le_iff_toNat_le, ← UInt8.toNat_inj,
        UInt8.reduceToNat]
      repeat rw [if_neg (by omega)]
    unfold brokenTail
    rw [hnone]

theorem scalarGroup_one {a : UInt8} (ha : a.toNat < 0x80) : ScalarGroup [a] := by
  refine ⟨?_, ?_, ?_⟩
  all_goals simp only [Overlong, SurrogateGroup, TooLarge, groupValue, leastValue, List.length_cons,
    List.length_nil]
  all_goals omega

theorem brokenTail_of_range {b b1 lo hi : UInt8} {more : Nat} (rest : List UInt8)
    (hrange : secondByteRange b = some (lo, hi, more))
    (hout : b1.toNat < lo.toNat ∨ hi.toNat < b1.toNat) :
    brokenTail b (b1 :: rest) = 0 := by
  unfold brokenTail
  rw [hrange]
  apply if_neg
  rw [Bool.and_eq_true, decide_eq_true_eq, decide_eq_true_eq, UInt8.le_iff_toNat_le,
    UInt8.le_iff_toNat_le]
  omega

theorem brokenTail_of_none {b : UInt8} (rest : List UInt8) (hnone : secondByteRange b = none) :
    brokenTail b rest = 0 := by
  unfold brokenTail
  rw [hnone]

/-- The second byte of a group that is not scalar does not belong to its first byte. -/
theorem brokenTail_group {a b : UInt8} {tail : List UInt8} (h : IsGroup (a :: b :: tail))
    (hbad : ¬ ScalarGroup (a :: b :: tail)) (rest : List UInt8) :
    brokenTail a (b :: rest) = 0 := by
  have heq : ∀ n < 256, a.toNat = n → a = UInt8.ofNat n := fun n _ hn => (ofNat_eq_of_toNat hn).symm
  have hwrong := not_scalarGroup_iff.mp hbad
  cases h with
  | two hlead ha hb =>
    unfold Continues at hb
    simp only [Overlong, SurrogateGroup, TooLarge, groupValue, leastValue, List.length_cons,
      List.length_nil] at hwrong
    have hfirst : a.toNat = 0xC0 ∨ a.toNat = 0xC1 := by omega
    rcases hfirst with hfirst | hfirst
    · rw [heq 0xC0 (by decide) hfirst]
      exact brokenTail_of_none _ (by decide)
    · rw [heq 0xC1 (by decide) hfirst]
      exact brokenTail_of_none _ (by decide)
  | @three _ _ c hlead ha hb hc =>
    unfold Continues at hb hc
    simp only [Overlong, SurrogateGroup, TooLarge, groupValue, leastValue, List.length_cons,
      List.length_nil] at hwrong
    have hfirst : a.toNat = 0xE0 ∧ b.toNat < 0xA0 ∨ a.toNat = 0xED ∧ 0x9F < b.toNat := by omega
    rcases hfirst with ⟨hfirst, hsecond⟩ | ⟨hfirst, hsecond⟩
    · rw [heq 0xE0 (by decide) hfirst]
      exact brokenTail_of_range _ (show _ = some (0xA0, 0xBF, 2) by decide) (.inl hsecond)
    · rw [heq 0xED (by decide) hfirst]
      exact brokenTail_of_range _ (show _ = some (0x80, 0x9F, 2) by decide) (.inr hsecond)
  | @four _ _ c d hlead ha hb hc hd =>
    unfold Continues at hb hc hd
    simp only [Overlong, SurrogateGroup, TooLarge, groupValue, leastValue, List.length_cons,
      List.length_nil] at hwrong
    have hfirst : a.toNat = 0xF0 ∧ b.toNat < 0x90 ∨ a.toNat = 0xF4 ∧ 0x8F < b.toNat ∨
        0xF5 ≤ a.toNat := by omega
    rcases hfirst with ⟨hfirst, hsecond⟩ | ⟨hfirst, hsecond⟩ | hfirst
    · rw [heq 0xF0 (by decide) hfirst]
      exact brokenTail_of_range _ (show _ = some (0x90, 0xBF, 3) by decide) (.inl hsecond)
    · rw [heq 0xF4 (by decide) hfirst]
      exact brokenTail_of_range _ (show _ = some (0x80, 0x8F, 3) by decide) (.inr hsecond)
    · apply brokenTail_of_none
      unfold secondByteRange
      simp only [Bool.and_eq_true, decide_eq_true_eq, UInt8.le_iff_toNat_le, ← UInt8.toNat_inj,
        UInt8.reduceToNat]
      repeat rw [if_neg (by omega)]

/-- The bytes of a group after the first. -/
theorem IsGroup.continues {a : UInt8} {tail : List UInt8} (h : IsGroup (a :: tail)) :
    ∀ b ∈ tail, Continues b := by
  cases h with
  | one => simp
  | two hlead ha hb => simpa using hb
  | three hlead ha hb hc => simpa using ⟨hb, hc⟩
  | four hlead ha hb hc hd => simpa using ⟨hb, hc, hd⟩

theorem decodeUtf8_continuations {tail : List UInt8} (h : ∀ b ∈ tail, Continues b)
    (rest : List UInt8) : decodeUtf8 (tail ++ rest)
      = List.replicate tail.length replacementChar ++ decodeUtf8 rest := by
  induction tail with
  | nil => rfl
  | cons b tail ih =>
    rw [List.forall_mem_cons] at h
    rw [List.cons_append, decodeUtf8_continuation h.1, ih h.2]
    rfl

/-- Every byte of a group that is not scalar is replaced. -/
theorem decodeUtf8_append_group {g : List UInt8} (h : IsGroup g) (hbad : ¬ ScalarGroup g)
    (rest : List UInt8) : decodeUtf8 (g ++ rest)
      = List.replicate g.length replacementChar ++ decodeUtf8 rest := by
  have hchar : ∀ (c : Char) (tail : List UInt8), g ++ rest ≠ String.utf8EncodeChar c ++ tail := by
    intro c tail heq
    by_cases hc : c.toNat = 0
    · have hnul : String.utf8EncodeChar c = [UInt8.ofNat 0] := by
        rw [utf8EncodeChar_ascii (by omega), hc]
      obtain ⟨a, tail', rfl, -, -, hzero⟩ := h.exists_cons
      rw [hnul] at heq
      exact hzero (List.cons.inj heq).1
    · have hgroup := isGroup_utf8EncodeChar hc
      rw [← (h.eq_of_append hgroup.1 heq).1] at hgroup
      exact hbad hgroup.2
  obtain ⟨a, tail, rfl, -⟩ := h.exists_cons
  cases tail with
  | nil =>
    cases h with
    | one hpos ha => exact absurd (scalarGroup_one ha) hbad
  | cons b tail =>
    rw [List.cons_append] at hchar ⊢
    rw [decodeUtf8_broken hchar (brokenTail_group h hbad _),
      decodeUtf8_continuations h.continues]
    rfl

/-! ## Groups with the same replacement -/

/-- Another continuation byte. -/
def otherContinuation (b : UInt8) : UInt8 := if b = 0x80 then 0x81 else 0x80

theorem otherContinuation_ne (b : UInt8) : otherContinuation b ≠ b := by
  unfold otherContinuation
  split
  · next h =>
    rw [h]
    decide
  · next h => exact fun heq => h heq.symm

theorem otherContinuation_range (b : UInt8) :
    0x80 ≤ (otherContinuation b).toNat ∧ (otherContinuation b).toNat < 0x82 := by
  unfold otherContinuation
  split
  · decide
  · decide

/-- What is wrong with a group does not depend on its last byte. -/
theorem exists_other_group {g : List UInt8} (h : IsGroup g) (hbad : ¬ ScalarGroup g) :
    ∃ g', g' ≠ g ∧ IsGroup g' ∧ ¬ ScalarGroup g' ∧ g'.length = g.length := by
  have hwrong := not_scalarGroup_iff.mp hbad
  cases h with
  | one hpos ha => exact absurd (scalarGroup_one ha) hbad
  | @two a b hlead ha hb =>
    have hrange := otherContinuation_range b
    refine ⟨[a, otherContinuation b], by simpa using otherContinuation_ne b,
      .two hlead ha ⟨by omega, by omega⟩, ?_, rfl⟩
    rw [not_scalarGroup_iff]
    unfold Continues at hb
    simp only [Overlong, SurrogateGroup, TooLarge, groupValue, leastValue, List.length_cons,
      List.length_nil] at hwrong ⊢
    omega
  | @three a b c hlead ha hb hc =>
    have hrange := otherContinuation_range c
    refine ⟨[a, b, otherContinuation c], by simpa using otherContinuation_ne c,
      .three hlead ha hb ⟨by omega, by omega⟩, ?_, rfl⟩
    rw [not_scalarGroup_iff]
    unfold Continues at hb hc
    simp only [Overlong, SurrogateGroup, TooLarge, groupValue, leastValue, List.length_cons,
      List.length_nil] at hwrong ⊢
    omega
  | @four a b c d hlead ha hb hc hd =>
    have hrange := otherContinuation_range d
    refine ⟨[a, b, c, otherContinuation d], by simpa using otherContinuation_ne d,
      .four hlead ha hb hc ⟨by omega, by omega⟩, ?_, rfl⟩
    rw [not_scalarGroup_iff]
    unfold Continues at hb hc hd
    simp only [Overlong, SurrogateGroup, TooLarge, groupValue, leastValue, List.length_cons,
      List.length_nil] at hwrong ⊢
    omega

/-- Two groups of one length that are replaced give the same text. -/
theorem decodeUtf8_replace {g g' : List UInt8} (h : IsGroup g) (hbad : ¬ ScalarGroup g)
    (h' : IsGroup g') (hbad' : ¬ ScalarGroup g') (hlength : g'.length = g.length)
    {before : List (List UInt8)} (hbefore : ∀ p ∈ before, IsGroup p) (rest : List UInt8) :
    decodeUtf8 (before.flatten ++ (g' ++ rest)) = decodeUtf8 (before.flatten ++ (g ++ rest)) := by
  induction before with
  | nil =>
    show decodeUtf8 (g' ++ rest) = decodeUtf8 (g ++ rest)
    rw [decodeUtf8_append_group h hbad, decodeUtf8_append_group h' hbad', hlength]
  | cons p before ih =>
    rw [List.forall_mem_cons] at hbefore
    rw [List.flatten_cons, List.append_assoc, List.append_assoc]
    by_cases hscalar : ScalarGroup p
    · obtain ⟨c, -, rfl⟩ := (scalar_iff hbefore.1).mp hscalar
      rw [decodeUtf8_append_char, decodeUtf8_append_char, ih hbefore.2]
    · rw [decodeUtf8_append_group hbefore.1 hscalar, decodeUtf8_append_group hbefore.1 hscalar,
        ih hbefore.2]

end LayerMount.Lib
