import LayerMount.Image.ArchiveReader
import LayerMount.Image.OpenedPaths
import LayerMount.Lib.Utf8Groups

/-!
# What the check of a name's bytes accepts

`IsValidUtf8` takes the groups of bytes (`isValidUtf8_iff_groups`): it looks at how many
continuation bytes a first byte announces, and not at the value that they have.  So it accepts
overlong forms, surrogates and values above the last scalar value, which are no UTF-8.

`isValidUtf8_wellFormed_iff` says on which bytes it accepts just well-formed UTF-8 without a
NUL.  The names it should refuse are those that the conversion makes replacement characters of,
and each of them has the wide name of another accepted name.
-/

namespace LayerMount

open Lib

/-- The bytes are those of a text. -/
def WellFormedUtf8 (bytes : Data) : Prop := ∃ text : List Char, encodeUtf8 text = bytes

/-- Where the bytes are a sequence of groups, no group is an overlong form, a surrogate or a
value above the last scalar value. -/
def EveryGroupScalar (bytes : Data) : Prop :=
  ∀ groups : List Data, (∀ g ∈ groups, IsGroup g) → groups.flatten = bytes →
    ∀ g ∈ groups, ScalarGroup g

/-! ## The bytes of a group -/

theorem isContinuation_iff {c : UInt8} : isContinuation c = true ↔ Continues c := by
  have hall : ∀ n < 256, (UInt8.ofNat n &&& 0xC0 = 0x80 ↔ 0x80 ≤ n ∧ n < 0xC0) := by decide +kernel
  have hc := hall c.toNat c.toNat_lt
  rw [UInt8.ofNat_toNat] at hc
  unfold isContinuation Continues
  rw [decide_eq_true_eq]
  exact hc

theorem extraBytes_eq (c : UInt8) : extraBytes c =
    if c.toNat < 128 then some 0 else if c.toNat < 192 then none else if c.toNat < 224 then some 1
    else if c.toNat < 240 then some 2 else if c.toNat < 248 then some 3 else none := by
  have hc := extraBytes_ofNat c.toNat c.toNat_lt
  rwa [UInt8.ofNat_toNat] at hc

/-- A first byte and as many continuation bytes as it announces. -/
theorem isGroup_cons_iff {c : UInt8} {tail : Data} : IsGroup (c :: tail) ↔
    c ≠ 0 ∧ extraBytes c = some tail.length ∧ tail.all isContinuation = true := by
  have hzero : c ≠ 0 ↔ 0 < c.toNat := by
    rw [Nat.pos_iff_ne_zero, ne_eq, ne_eq, ← UInt8.toNat_inj]
    rfl
  simp only [List.all_eq_true, isContinuation_iff, hzero, extraBytes_eq]
  constructor
  · intro h
    have htail := h.continues
    cases h with
    | one hpos ha => exact ⟨hpos, if_pos ha, htail⟩
    | two hlead ha hb =>
      refine ⟨by omega, ?_, htail⟩
      rw [if_neg (by omega), if_neg (by omega), if_pos (by omega)]
      rfl
    | three hlead ha hb hc =>
      refine ⟨by omega, ?_, htail⟩
      rw [if_neg (by omega), if_neg (by omega), if_neg (by omega), if_pos (by omega)]
      rfl
    | four hlead ha hb hc hd =>
      refine ⟨by omega, ?_, htail⟩
      rw [if_neg (by omega), if_neg (by omega), if_neg (by omega), if_neg (by omega),
        if_pos (by omega)]
      rfl
  · intro h
    obtain ⟨hpos, hextra, htail⟩ := h
    split at hextra
    · next ha =>
      have hlength : tail.length = 0 := (Option.some.inj hextra).symm
      rw [List.length_eq_zero_iff.mp hlength]
      exact .one hpos ha
    split at hextra
    · cases hextra
    next hlow =>
    split at hextra
    · next ha =>
      obtain ⟨b, rfl⟩ := List.length_eq_one_iff.mp (Option.some.inj hextra).symm
      exact .two (by omega) ha (htail b (by simp))
    split at hextra
    · next ha =>
      obtain ⟨b, d, rfl⟩ := List.length_eq_two.mp (Option.some.inj hextra).symm
      exact .three (by omega) ha (htail b (by simp)) (htail d (by simp))
    split at hextra
    · next ha =>
      obtain ⟨b, d, e, rfl⟩ := List.length_eq_three.mp (Option.some.inj hextra).symm
      exact .four (by omega) ha (htail b (by simp)) (htail d (by simp)) (htail e (by simp))
    · cases hextra

/-- One turn of the loop. -/
theorem isValidUtf8From_cons (c : UInt8) (rest : Data) : isValidUtf8From 0 (c :: rest) = true ↔
    ∃ tail rest', rest = tail ++ rest' ∧ IsGroup (c :: tail) ∧ isValidUtf8From 0 rest' = true := by
  constructor
  · intro h
    unfold isValidUtf8From at h
    split at h
    · cases h
    next hne =>
    split at h
    · cases h
    next extra hextra =>
    rw [isValidUtf8From_split, Bool.and_eq_true, Bool.and_eq_true, decide_eq_true_eq] at h
    obtain ⟨⟨hle, hall⟩, hrest⟩ := h
    refine ⟨rest.take extra, rest.drop extra, (List.take_append_drop extra rest).symm, ?_, hrest⟩
    rw [isGroup_cons_iff, List.length_take, Nat.min_eq_left hle]
    exact ⟨hne, hextra, hall⟩
  · intro h
    obtain ⟨tail, rest', rfl, hgroup, hrest⟩ := h
    obtain ⟨hne, hextra, hall⟩ := isGroup_cons_iff.mp hgroup
    unfold isValidUtf8From
    simp only [hne, if_false, hextra]
    rw [isValidUtf8From_split, List.take_left, List.drop_left, hall, hrest, List.length_append]
    simp

/-- The loop accepts what splits into groups. -/
theorem isValidUtf8_iff_groups {bytes : Data} : isValidUtf8 bytes = true ↔
    ∃ groups : List Data, (∀ g ∈ groups, IsGroup g) ∧ groups.flatten = bytes := by
  unfold isValidUtf8
  constructor
  · intro h
    -- By induction on the length: a turn takes a whole group.
    induction hn : bytes.length using Nat.strong_induction_on generalizing bytes with
    | _ n ih =>
      cases bytes with
      | nil => exact ⟨[], by simp, rfl⟩
      | cons c rest =>
        obtain ⟨tail, rest', rfl, hgroup, hrest⟩ := (isValidUtf8From_cons c rest).mp h
        have hshort : rest'.length < n := by
          rw [← hn, List.length_cons, List.length_append]
          omega
        obtain ⟨groups, hgroups, heq⟩ := ih rest'.length hshort hrest rfl
        refine ⟨(c :: tail) :: groups, List.forall_mem_cons.mpr ⟨hgroup, hgroups⟩, ?_⟩
        rw [List.flatten_cons, heq, List.cons_append]
  · intro h
    obtain ⟨groups, hgroups, rfl⟩ := h
    induction groups with
    | nil => rfl
    | cons g groups ih =>
      rw [List.forall_mem_cons] at hgroups
      obtain ⟨c, tail, rfl, -⟩ := hgroups.1.exists_cons
      rw [List.flatten_cons, List.cons_append]
      exact (isValidUtf8From_cons c _).mpr ⟨tail, _, rfl, hgroups.1, ih hgroups.2⟩

/-! ## Well-formed names -/

section Names

variable {bytes : Data}

theorem wellFormed_without_nul_iff : (WellFormedUtf8 bytes ∧ 0 ∉ bytes) ↔
    ∃ text : List Char, (∀ c ∈ text, c.toNat ≠ 0) ∧ encodeUtf8 text = bytes := by
  constructor
  · intro h
    obtain ⟨⟨text, rfl⟩, hzero⟩ := h
    refine ⟨text, ?_, rfl⟩
    intro c hc hnul
    apply hzero
    apply List.mem_flatMap.mpr ⟨c, hc, ?_⟩
    rw [utf8EncodeChar_ascii (by omega), hnul]
    exact List.mem_singleton.mpr rfl
  · intro h
    obtain ⟨text, hnul, rfl⟩ := h
    exact ⟨⟨text, rfl⟩, not_mem_zero_of_isValidUtf8From (isValidUtf8_encodeUtf8 hnul)⟩

/-- Well-formed UTF-8 without a NUL is always accepted. -/
theorem isValidUtf8_of_wellFormed (h : WellFormedUtf8 bytes) (hzero : 0 ∉ bytes) :
    isValidUtf8 bytes = true := by
  obtain ⟨text, hnul, rfl⟩ := wellFormed_without_nul_iff.mp ⟨h, hzero⟩
  exact isValidUtf8_encodeUtf8 hnul

/-- What is accepted is well formed exactly where every group is scalar. -/
theorem wellFormed_of_valid_iff (h : isValidUtf8 bytes = true) :
    (WellFormedUtf8 bytes ∧ 0 ∉ bytes) ↔ EveryGroupScalar bytes := by
  obtain ⟨groups, hgroups, rfl⟩ := isValidUtf8_iff_groups.mp h
  rw [wellFormed_without_nul_iff, flatten_eq_encodeUtf8_iff hgroups]
  constructor
  · intro hs groups' hgroups' heq
    rw [groups_unique hgroups' hgroups heq]
    exact hs
  · exact fun hs => hs groups hgroups rfl

/-- The decision is right exactly where every group is scalar. -/
theorem decision_iff : (isValidUtf8 bytes = true ↔ WellFormedUtf8 bytes ∧ 0 ∉ bytes) ↔
    EveryGroupScalar bytes := by
  by_cases h : isValidUtf8 bytes = true
  · rw [← wellFormed_of_valid_iff h]
    exact ⟨fun hiff => hiff.mp h, fun hwf => iff_of_true h hwf⟩
  · constructor
    · intro _ groups hgroups heq
      exact absurd (isValidUtf8_iff_groups.mpr ⟨groups, hgroups, heq⟩) h
    · exact fun _ => iff_of_false h fun hwf => h (isValidUtf8_of_wellFormed hwf.1 hwf.2)

/-- Names of a text each come back, so they have different wide names. -/
theorem utf8ToWide_injective {bytes' : Data} (h : WellFormedUtf8 bytes)
    (h' : WellFormedUtf8 bytes') (hlength : bytes.length ≤ kIntMax)
    (hlength' : bytes'.length ≤ kIntMax) (heq : utf8ToWide bytes = utf8ToWide bytes') :
    bytes = bytes' := by
  obtain ⟨text, rfl⟩ := h
  obtain ⟨text', rfl⟩ := h'
  rw [utf8ToWide, utf8ToWide, if_pos hlength, if_pos hlength', decodeUtf8_encodeUtf8,
    decodeUtf8_encodeUtf8] at heq
  have htext := congrArg decodeUtf16 heq
  rw [decodeUtf16_encodeUtf16, decodeUtf16_encodeUtf16] at htext
  rw [htext]

/-- A name with a group that is not scalar has the wide name of another accepted name. -/
theorem exists_same_wide_name (h : isValidUtf8 bytes = true) (hbad : ¬ EveryGroupScalar bytes) :
    ∃ bytes', bytes' ≠ bytes ∧ isValidUtf8 bytes' = true ∧
      utf8ToWide bytes' = utf8ToWide bytes := by
  obtain ⟨groups, hgroups, rfl⟩ := isValidUtf8_iff_groups.mp h
  have hexists : ∃ g ∈ groups, ¬ ScalarGroup g := by
    by_contra hall
    push Not at hall
    rw [← wellFormed_of_valid_iff h, wellFormed_without_nul_iff,
      flatten_eq_encodeUtf8_iff hgroups] at hbad
    exact hbad hall
  obtain ⟨g, hg, hscalar⟩ := hexists
  obtain ⟨before, after, rfl⟩ := List.append_of_mem hg
  rw [List.forall_mem_append, List.forall_mem_cons] at hgroups
  obtain ⟨hbefore, hgroup, hafter⟩ := hgroups
  obtain ⟨g', hne, hgroup', hscalar', hlength⟩ := exists_other_group hgroup hscalar
  refine ⟨(before ++ g' :: after).flatten, ?_, ?_, ?_⟩
  · intro heq
    rw [List.flatten_append, List.flatten_append, List.append_cancel_left_eq, List.flatten_cons,
      List.flatten_cons, List.append_cancel_right_eq] at heq
    exact hne heq
  · refine isValidUtf8_iff_groups.mpr ⟨_, ?_, rfl⟩
    rw [List.forall_mem_append, List.forall_mem_cons]
    exact ⟨hbefore, hgroup', hafter⟩
  · have hdecode := decodeUtf8_replace hgroup hscalar hgroup' hscalar' hlength hbefore after.flatten
    unfold utf8ToWide
    rw [List.flatten_append, List.flatten_append, List.flatten_cons, List.flatten_cons, hdecode]
    simp only [List.length_append, hlength]

end Names

/-- The check of a name reads inside the archive only.  It accepts exactly the well-formed UTF-8
without a NUL on the bytes that split into no groups, or into scalar groups only.  Names of such
bytes have different wide names, and each other name that is accepted shares its wide name. -/
theorem isValidUtf8_wellFormed_iff (bytes : Data) :
    (∀ (archive : ByteVector) (start length : Nat), start + length ≤ archive.bytes.length →
      isValidUtf8At archive start length
        = .ok (isValidUtf8 ((archive.bytes.drop start).take length))) ∧
    ((isValidUtf8 bytes = true ↔ WellFormedUtf8 bytes ∧ 0 ∉ bytes) ↔ EveryGroupScalar bytes) ∧
    (∀ bytes', isValidUtf8 bytes = true → isValidUtf8 bytes' = true →
      EveryGroupScalar bytes → EveryGroupScalar bytes' → bytes.length ≤ kIntMax →
      bytes'.length ≤ kIntMax → utf8ToWide bytes = utf8ToWide bytes' → bytes = bytes') ∧
    (isValidUtf8 bytes = true → ¬ EveryGroupScalar bytes →
      ∃ bytes', bytes' ≠ bytes ∧ isValidUtf8 bytes' = true ∧
        utf8ToWide bytes' = utf8ToWide bytes) := by
  refine ⟨fun _ _ _ h => isValidUtf8At_eq h, decision_iff, ?_, exists_same_wide_name⟩
  intro bytes' h h' hscalar hscalar' hlength hlength' heq
  exact utf8ToWide_injective ((wellFormed_of_valid_iff h).mpr hscalar).1
    ((wellFormed_of_valid_iff h').mpr hscalar').1 hlength hlength' heq

/-! ## An overlong form -/

/-- A slash in two bytes is accepted. -/
theorem isValidUtf8_overlong_slash : isValidUtf8 [0xC0, 0xAF] = true ∧
    ¬ (isValidUtf8 [0xC0, 0xAF] = true ↔
      WellFormedUtf8 [0xC0, 0xAF] ∧ 0 ∉ [(0xC0 : UInt8), 0xAF]) := by
  refine ⟨by decide, ?_⟩
  rw [decision_iff]
  intro h
  have hgroup : IsGroup [0xC0, 0xAF] := .two (by decide) (by decide) ⟨by decide, by decide⟩
  exact absurd (h [[0xC0, 0xAF]] (by simpa using hgroup) rfl [0xC0, 0xAF] (by simp)) (by decide)

/-- The names "a" and "b" are told apart. -/
theorem isValidUtf8_wellFormed_iff_letters : utf8ToWide [0x61] ≠ utf8ToWide [0x62] := by
  have hscalar : ∀ text : List Char, isValidUtf8 (encodeUtf8 text) = true →
      EveryGroupScalar (encodeUtf8 text) := fun text h =>
    (wellFormed_of_valid_iff h).mp ⟨⟨text, rfl⟩, not_mem_zero_of_isValidUtf8From h⟩
  intro heq
  have hsame := (isValidUtf8_wellFormed_iff (encodeUtf8 ['a'])).2.2.1 (encodeUtf8 ['b'])
    (by decide) (by decide) (hscalar _ (by decide)) (hscalar _ (by decide)) (by decide)
    (by decide) heq
  exact absurd hsame (by decide)

end LayerMount
