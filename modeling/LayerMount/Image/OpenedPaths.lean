import LayerMount.Image.UnpackItems

/-!
# The texts that an unpack opens

An unpack compares the whole text of a path and the host opens it up to its first NUL.  The
name of an archive entry has no NUL in it (`archiveNames_of_read`), so what is compared is
what is opened.  A whiteout of the metadata passes `isValidArchivePath` alone, which takes a
NUL: its marker has the names that `pathOf_makeWhiteoutMarkerPath` gives, and the first of
them is compared as a whole (`skipsPath_of_not_skipped`).
-/

namespace LayerMount

open Lib

variable {H : Host}

/-! ## Splitting a text -/

theorem not_of_mem_splitOnP {α : Type} {p : α → Bool} {xs part : List α}
    (hpart : part ∈ xs.splitOnP p) : ∀ x ∈ part, p x = false := by
  induction xs generalizing part with
  | nil =>
    rw [List.splitOnP_nil, List.mem_singleton] at hpart
    simp [hpart]
  | cons y xs ih =>
    rw [List.splitOnP_cons_eq_if_modifyHead] at hpart
    split at hpart
    · rcases List.mem_cons.mp hpart with rfl | hpart
      · simp
      · exact ih hpart
    · rename_i hy
      cases hsplit : xs.splitOnP p with
      | nil => exact absurd hsplit (List.splitOnP_ne_nil p xs)
      | cons first rest =>
        rw [hsplit, List.modifyHead_cons, List.mem_cons] at hpart
        rcases hpart with rfl | hpart
        · intro x hx
          rcases List.mem_cons.mp hx with rfl | hx
          · simpa using hy
          · exact ih (by simp [hsplit]) x hx
        · exact ih (by simp [hsplit, hpart])

/-- A change of the separators alone leaves the parts. -/
theorem splitOnP_map {α : Type} {p : α → Bool} {f : α → α} (hp : ∀ x, p (f x) = p x)
    (hf : ∀ x, p x = false → f x = x) (xs : List α) : (xs.map f).splitOnP p = xs.splitOnP p := by
  induction xs with
  | nil => rfl
  | cons x xs ih =>
    rw [List.map_cons, List.splitOnP_cons_eq_if_modifyHead, List.splitOnP_cons_eq_if_modifyHead,
      hp, ih]
    split
    · rfl
    · rename_i hx
      rw [hf x (by simpa using hx)]

/-! ## The names of an archive entry -/

theorem not_mem_zero_of_isValidUtf8From {data : Data} :
    ∀ {pending : Nat}, isValidUtf8From pending data = true → (0 : UInt8) ∉ data := by
  induction data with
  | nil => simp
  | cons c rest ih =>
    intro pending h
    have hparts : c ≠ 0 ∧ ∃ more, isValidUtf8From more rest = true := by
      cases pending with
      | zero =>
        rw [isValidUtf8From] at h
        split at h
        · cases h
        · rename_i hc
          split at h
          · cases h
          · exact ⟨hc, _, h⟩
      | succ pending =>
        rw [isValidUtf8From, Bool.and_eq_true, decide_eq_true_eq] at h
        refine ⟨?_, pending, h.2⟩
        rintro rfl
        exact absurd h.1 (by decide)
    obtain ⟨hc, more, hrest⟩ := hparts
    rw [List.mem_cons, not_or]
    exact ⟨hc.symm, ih hrest⟩

/-- The names of a text that passes both checks. -/
theorem archiveNames_decodeUtf8 {utf8Name : Data} (hutf8 : isValidUtf8 utf8Name = true)
    (hpath : isValidArchivePath utf8Name = true) :
    ∀ n ∈ (decodeUtf8 utf8Name).splitOnP isSeparator, ArchiveName n := by
  intro n hn
  have hspells := spells_decodeUtf8 utf8Name
  obtain ⟨part, hpart, hname⟩ := hspells.exists_part asciiTest_separator hn
  simp only [isValidArchivePath, Bool.and_eq_true, List.all_eq_true, Bool.not_eq_true',
    decide_eq_true_eq, List.contains_eq_mem, decide_eq_false_iff_not, List.isEmpty_eq_false_iff,
    ne_eq] at hpath
  obtain ⟨⟨_, hcolon⟩, hparts⟩ := hpath
  obtain ⟨⟨hnil, hdot⟩, hdots⟩ := hparts part hpart
  have hascii : ∀ {text : List Char}, n = text → (∀ c ∈ text, c.toNat < 128) →
      part = encodeUtf8 text := by
    intro text heq hlow
    exact (heq ▸ hname).eq_encodeUtf8 hlow
  have hmem : ∀ c ∈ n, isSeparator c = false → c ∈ decodeUtf8 utf8Name := by
    intro c hc hsep
    exact (mem_splitOnP hsep _).mpr ⟨n, hn, hc⟩
  refine ⟨?_, ?_, ?_, ?_⟩
  · intro heq
    exact hnil (hascii heq (by simp))
  · intro heq
    exact hdot (hascii heq (by simp))
  · intro heq
    exact hdots (hascii heq (by simp))
  · intro c hc
    have hsep := not_of_mem_splitOnP hn c hc
    have hctext := hmem c hc hsep
    refine ⟨?_, ?_, hsep⟩
    · intro hzero
      have hbyte := hspells.mem_bytes (by omega) hctext
      rw [hzero] at hbyte
      exact not_mem_zero_of_isValidUtf8From hutf8 hbyte
    · rintro rfl
      exact hcolon (hspells.mem_bytes (by decide) hctext)

theorem pathOf_ne_nil (w : WideString) : pathOf w ≠ [] := List.splitOnP_ne_nil _ _

/-- The names of an entry that the reader gives. -/
theorem archiveNames_of_read {archive rest : Data} {entry : ArchiveEntry}
    (h : readArchiveEntry archive = .ok (some entry, rest)) :
    ∀ n ∈ pathOf entry.name, ArchiveName n := by
  unfold readArchiveEntry at h
  split at h
  · cases h
  simp only at h
  split at h
  · cases h
  split at h
  · cases h
  split at h
  · cases h
  split at h
  · cases h
  rename_i hutf8
  split at h
  · cases h
  rename_i hpath
  split at h
  · cases h
  cases h
  rw [Bool.not_eq_true', Bool.not_eq_false] at hutf8 hpath
  have hlength : (List.take (FileEntryHeader.ofBytes archive).nameLength.toNat
      (archive.drop kFileEntryHeaderSize)).length ≤ kIntMax := by
    rw [List.length_take]
    have hlt := (FileEntryHeader.ofBytes archive).nameLength.toNat_lt
    have hmax : kIntMax = 2147483647 := rfl
    omega
  rw [pathOf, utf8ToWide, if_pos hlength, decodeUtf16_encodeUtf16]
  exact archiveNames_decodeUtf8 hutf8 hpath

/-! ## The names of a whiteout marker -/

/-- The text with forward slashes alone. -/
theorem decodeUtf16_slashes (w : WideString) :
    decodeUtf16 (w.map fun u => if u = 0x5C then 0x2F else u)
      = (decodeUtf16 w).map fun c => if c = '\\' then '/' else c := by
  have hunit : ∀ u : UInt16, charOfUnit (if u = 0x5C then 0x2F else u)
      = if charOfUnit u = '\\' then '/' else charOfUnit u := by
    intro u
    by_cases hu : u = 0x5C
    · rw [if_pos hu, hu]
      decide
    · have hchar : charOfUnit u ≠ '\\' := fun h => hu ((charOfUnit_eq_ascii (by decide)).mp h)
      rw [if_neg hu, if_neg hchar]
  have hhigh : ∀ u : UInt16, isHighSurrogate (if u = 0x5C then 0x2F else u) = isHighSurrogate u := by
    intro u
    split
    · rename_i hu
      rw [hu]
      rfl
    · rfl
  have hlow : ∀ u : UInt16, isLowSurrogate (if u = 0x5C then 0x2F else u) = isLowSurrogate u := by
    intro u
    split
    · rename_i hu
      rw [hu]
      rfl
    · rfl
  fun_induction decodeUtf16 w with
  | case1 => rfl
  | case2 u => simp only [List.map_cons, List.map_nil, decodeUtf16, hunit]
  | case3 u v rest hpair ih =>
    have hboth := hpair
    rw [Bool.and_eq_true] at hboth
    have hu : u ≠ 0x5C := by
      rintro rfl
      exact absurd hboth.1 (by decide)
    have hv : v ≠ 0x5C := by
      rintro rfl
      exact absurd hboth.2 (by decide)
    have hchar : charOfPair u v ≠ '\\' := by
      intro heq
      have hle := le_toNat_charOfPair hboth.1 hboth.2
      rw [heq] at hle
      exact absurd hle (by decide)
    rw [List.map_cons, List.map_cons, if_neg hu, if_neg hv, decodeUtf16, if_pos hpair, ih,
      List.map_cons, if_neg hchar]
  | case4 u v rest hpair ih =>
    rw [List.map_cons] at ih
    rw [List.map_cons, List.map_cons, decodeUtf16, hhigh, hlow, if_neg hpair, ih, List.map_cons,
      hunit]

theorem pathOf_slashes (w : WideString) :
    pathOf (w.map fun u => if u = 0x5C then 0x2F else u) = pathOf w := by
  rw [pathOf, decodeUtf16_slashes]
  apply splitOnP_map
  · intro c
    by_cases hc : c = '\\'
    · rw [if_pos hc, hc]
      rfl
    · rw [if_neg hc]
  · intro c hc
    rw [if_neg]
    rintro rfl
    exact absurd hc (by decide)

theorem lastSegment_split (path : WideString) :
    (path.take (path.length - (lastSegment path).length) = [] ∨
      ∃ d, path.take (path.length - (lastSegment path).length) = d ++ [0x2F]) ∧
    path.take (path.length - (lastSegment path).length) ++ lastSegment path = path ∧
    0x2F ∉ lastSegment path := by
  have hsplit : (path.reverse.dropWhile (· ≠ 0x2F)).reverse ++ lastSegment path = path := by
    rw [lastSegment, ← List.reverse_append, List.takeWhile_append_dropWhile, List.reverse_reverse]
  have htake : path.take (path.length - (lastSegment path).length)
      = (path.reverse.dropWhile (· ≠ 0x2F)).reverse := by
    have hlength := congrArg List.length hsplit
    rw [List.length_append] at hlength
    have hfront : (path.reverse.dropWhile (· ≠ 0x2F)).reverse.length
        = path.length - (lastSegment path).length := by omega
    rw [← hfront]
    nth_rewrite 2 [← hsplit]
    exact List.take_left
  refine ⟨?_, htake ▸ hsplit, ?_⟩
  · rw [htake]
    cases hrest : path.reverse.dropWhile (· ≠ 0x2F) with
    | nil => exact Or.inl rfl
    | cons u d =>
      have hu := List.head_dropWhile_not (fun x : UInt16 => decide (x ≠ 0x2F))
        (hrest ▸ List.cons_ne_nil u d)
      simp only [hrest, List.head_cons, ne_eq, decide_eq_false_iff_not, not_not] at hu
      exact Or.inr ⟨d.reverse, by rw [List.reverse_cons, hu]⟩
  · rw [lastSegment, List.mem_reverse]
    intro hmem
    exact absurd (List.mem_takeWhile_imp hmem) (by decide)

/-- The names of the marker of a path. -/
theorem pathOf_makeWhiteoutMarkerPath (logical : WideString) :
    pathOf (makeWhiteoutMarkerPath logical)
      = getWhiteoutFileName (pathOf logical) := by
  rw [← pathOf_slashes logical]
  unfold makeWhiteoutMarkerPath
  have hback : ∀ u ∈ logical.map fun u => if u = 0x5C then 0x2F else u, u ≠ 0x5C := by
    intro u hu
    obtain ⟨v, _, rfl⟩ := List.mem_map.mp hu
    split
    · decide
    · assumption
  generalize (logical.map fun u => if u = 0x5C then 0x2F else u) = path at hback ⊢
  simp only
  obtain ⟨hfront, hpath, hslash⟩ := lastSegment_split path
  generalize path.take (path.length - (lastSegment path).length) = front at hfront hpath ⊢
  generalize lastSegment path = name at hpath hslash ⊢
  have hname : ∀ c ∈ decodeUtf16 name, isSeparator c = false := by
    intro c hc
    rw [← Bool.not_eq_true]
    intro hsep
    rw [isSeparator, Bool.or_eq_true, decide_eq_true_eq, decide_eq_true_eq] at hsep
    rcases hsep with rfl | rfl
    · exact hslash (mem_of_ascii_mem_decodeUtf16 (by decide) hc)
    · have hmem := mem_of_ascii_mem_decodeUtf16 (by decide) hc
      exact hback 0x5C (hpath ▸ List.mem_append_right _ hmem) rfl
  have hmarker : ∀ c ∈ whiteoutName (decodeUtf16 name), isSeparator c = false := by
    intro c hc
    rcases List.mem_append.mp hc with hpre | hc
    · have hall : kWhiteoutPrefix.all (fun x => !isSeparator x) = true := by decide
      simpa using List.all_eq_true.mp hall c hpre
    · exact hname c hc
  rcases hfront with rfl | ⟨d, rfl⟩
  · rw [← hpath, List.nil_append, List.nil_append, pathOf, pathOf, decodeUtf16_encodeUtf16_append,
      List.splitOnP_eq_singleton hname]
    exact List.splitOnP_eq_singleton hmarker
  · rw [← hpath, pathOf, pathOf, List.append_assoc, List.append_assoc, List.singleton_append,
      List.singleton_append, decodeUtf16_append_unit rfl rfl, decodeUtf16_append_unit rfl rfl,
      decodeUtf16_encodeUtf16_append, List.splitOnP_append_cons _ _ rfl,
      List.splitOnP_append_cons _ _ rfl, List.splitOnP_eq_singleton hname,
      getWhiteoutFileName_append]
    exact congrArg (_ ++ ·) (List.splitOnP_eq_singleton hmarker)

/-! ## The first name -/

/-- An entry that is not skipped does not have a reserved first name. -/
theorem skipsPath_of_not_skipped {t : HostDir H} {w : WideString}
    (hne : (pathOf w).headD [] ≠ []) (h : unpackSkipsEntry t w = false) :
    skipsPath H (pathOf w) = false := by
  unfold unpackSkipsEntry at h
  simp only [firstSegmentAsOpened_eq hne] at h
  unfold skipsPath
  generalize openedName H ((pathOf w).headD []) = segment at h ⊢
  rw [Bool.or_eq_false_iff, decide_eq_false_iff_not, decide_eq_false_iff_not]
  constructor
  · rintro rfl
    rw [if_neg (by decide), if_pos (by decide)] at h
    cases h
  · rintro rfl
    rw [if_neg (by decide), if_neg (by decide), if_pos (by decide)] at h
    cases h

end LayerMount
