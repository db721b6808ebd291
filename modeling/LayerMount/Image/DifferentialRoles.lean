import LayerMount.Image.DifferentialView

/-!
# The two roles of an unpacked differential image

When the unpacked tree over its base shows the source: as a lower
(`differential_asLower_iff`) and as the upper (`differential_asUpper_iff`).
-/

namespace LayerMount

open Lib

variable {H : Host} {source base x : HostDir H}

/-! ## As a lower -/

/-- Paths of source and base that are the same for the host have the same key. -/
def SameKeys (source base : HostDir H) : Prop :=
  ∀ e ∈ source.entries, ∀ b ∈ base.entries,
    H.foldPath b.path = H.foldPath e.path → lowerPath b.path = lowerPath e.path

/-- With the same keys nothing of the source is whited out. -/
theorem Extracted.not_whited (h : Extracted source base x) (hs : Clean source) (hb : Clean base)
    (hkeys : SameKeys source base) {p : RelPath} {e : HostEntry} (he : source.find p = some e) :
    ¬Whited x p := by
  intro hwhited
  obtain ⟨hemem, hepath⟩ := HostDir.find_eq_some.mp he
  obtain ⟨b, hbmem, hpre⟩ := (h.whited_iff hs hb).mp hwhited
  have hsome : ∃ e' ∈ source.entries, H.foldPath e'.path = H.foldPath b.path := by
    rw [← hepath] at hpre
    by_cases heq : H.foldPath b.path = H.foldPath e.path
    · exact ⟨e, hemem, heq.symm⟩
    · rcases HostDir.hasDir_of_above hemem hpre heq with hnil | ⟨e', he', _⟩
      · exact absurd hnil (ok_of_mem_deletedOf hbmem).ne_nil
      · exact ⟨e', HostDir.find_eq_some.mp he'⟩
  obtain ⟨e', he'mem, he'path⟩ := hsome
  obtain ⟨hbase, hdeleted⟩ := (mem_deletedOf_of_clean hs hb).mp hbmem
  exact hdeleted e' he'mem (hkeys e' he'mem b hbase he'path.symm).symm

theorem Extracted.shows_asLower (h : Extracted source base x) (hs : Clean source) (hb : Clean base)
    (hsame : SameContents source base) (hkeys : SameKeys source base) :
    (HostMount.asLower x base).Shows source := by
  have hop := h.noOpaqueMarker hs hb
  intro p
  by_cases hplain : HostMount.PlainPath H p
  · cases he : source.find p with
    | some e =>
      have hnot := h.not_whited hs hb hkeys he
      cases hx : x.find p with
      | some y =>
        rw [HostMount.view_asLower_own hplain hnot hx, h.content_eq hs he hx]
        rfl
      | none =>
        obtain ⟨b, hbase, _, hcontent⟩ := h.base_of_source hs hb hsame he hx
        rw [HostMount.view_asLower_base hplain hop hb hnot hx (not_blocked_of_find h hs he), hbase,
          Option.map_some, hcontent]
        rfl
    | none =>
      cases hbase : base.find p with
      | some b =>
        exact HostMount.view_asLower_whited hplain (h.whited_of_base hs hb he hbase)
      | none =>
        cases hx : x.find p with
        | none => exact HostMount.view_asLower_none hplain hb hx hbase
        | some y =>
          -- A directory above a marker is one of the base.
          obtain ⟨b, hbmem, habove⟩ := h.above_of_not_source hplain he hx
          have hpre : H.foldPath p <+: H.foldPath b.path := by
            rw [H.foldPath_dropLast] at habove
            exact habove.trans (List.dropLast_prefix _)
          have hne : H.foldPath p ≠ H.foldPath b.path := by
            intro heq
            have hlength := habove.length_le
            have hpos := List.length_pos_iff.mpr (ok_of_mem_deletedOf hbmem).ne_nil
            rw [heq, H.length_foldPath, H.length_foldPath, List.length_dropLast] at hlength
            omega
          rcases HostDir.hasDir_of_above (mem_of_mem_deletedOf hbmem) hpre hne with hnil | ⟨d, hd, _⟩
          · exact absurd hnil hplain.ne_nil
          · rw [hbase] at hd
            cases hd
  · have hnone : source.find p = none := by
      cases he : source.find p with
      | none => rfl
      | some e => exact absurd (hs.plainPath he) hplain
    rw [HostMount.view_of_not_plain hplain, hnone]
    rfl

theorem Extracted.sameKeys (h : Extracted source base x) (hs : Clean source) (hb : Clean base)
    (hshows : (HostMount.asLower x base).Shows source) : SameKeys source base := by
  intro e he b hbmem hpath
  by_contra hlower
  have hdeleted : b ∈ deletedOf source base := by
    rw [mem_deletedOf_of_clean hs hb]
    refine ⟨hbmem, ?_⟩
    intro e' he' hlower'
    have hsame : e' = e := HostDir.eq_of_foldPath he he' ((foldPath_of_lowerPath hlower').trans hpath)
    rw [hsame] at hlower'
    exact hlower hlower'.symm
  have hfind := HostDir.find_of_mem he
  have hwhited : Whited x e.path := (h.whited_iff hs hb).mpr ⟨b, hdeleted, by rw [hpath]⟩
  have hview := hshows e.path
  rw [HostMount.view_asLower_whited (hs.plainPath hfind) hwhited, hfind] at hview
  cases hview

namespace LayerImage

/-- What an unpack of a differential image that succeeds has placed. -/
theorem extracted_of_extractImage {k : Codec} {level : Int} {m m' : LayerMetadata} {image : Data}
    {verifyChecksum : Bool}
    (hcreate : createDifferentialImage k level source base m = .ok (image, m'))
    (hundoes : Undoes k level (differentialArchive source base) m')
    (hextract : extractImage k image HostDir.empty verifyChecksum = .ok x) :
    Extracted source base x := by
  rw [extractImage_createDifferentialImage hcreate hundoes] at hextract
  split at hextract
  · cases hextract
  · exact extracted_of_placeItems hextract

/-- As a lower above the base the unpacked tree shows the source exactly when no path of the
source is one of the base in another case beyond ASCII. -/
theorem differential_asLower_iff (k : Codec) (level : Int) (source base x : HostDir H)
    (m m' : LayerMetadata) (image : Data) (verifyChecksum : Bool) (hs : Clean source)
    (hb : Clean base) (hsame : SameContents source base)
    (hcreate : createDifferentialImage k level source base m = .ok (image, m'))
    (hundoes : Undoes k level (differentialArchive source base) m')
    (hextract : extractImage k image HostDir.empty verifyChecksum = .ok x) :
    (HostMount.asLower x base).Shows source ↔ SameKeys source base := by
  have h := extracted_of_extractImage hcreate hundoes hextract
  exact ⟨h.sameKeys hs hb, h.shows_asLower hs hb hsame⟩

/-- A small image is made and unpacked. -/
theorem exists_unpacked {k : Codec} (source base : HostDir latinHost) {m' : LayerMetadata}
    (hmade : (createDifferentialImage k 3 source base {}).toOption.map Prod.snd = some m')
    (hundoes : Undoes k 3 (differentialArchive source base) m')
    (hsize : (differentialArchive source base).length ≤ kMaxDecompressedBytes)
    (hplaced : errorOf (placeItems (differentialItems source base)
      (HostDir.empty : HostDir latinHost)) = none) :
    ∃ image, ∃ x : HostDir latinHost, createDifferentialImage k 3 source base {} = .ok (image, m') ∧
      extractImage k image HostDir.empty true = .ok x := by
  obtain ⟨image, hcreate⟩ := exists_image hmade
  have hextract := extractImage_createDifferentialImage hcreate hundoes HostDir.empty true
  rw [if_neg (by omega)] at hextract
  cases hplace : placeItems (differentialItems source base) (HostDir.empty : HostDir latinHost) with
  | error e =>
    rw [hplace] at hplaced
    cases hplaced
  | ok x =>
    rw [hplace] at hextract
    exact ⟨image, x, hcreate, hextract⟩

theorem clean_of_decide {t : HostDir latinHost}
    (h : ∀ e ∈ t.entries, (∀ n ∈ e.path, isWhiteoutName (latinHost.foldName n) = false) ∧
      openedName latinHost (e.path.headD []) ≠ kSidecarDirName) : Clean t :=
  ⟨fun e he => (h e he).1, fun e he => (h e he).2⟩

theorem undoes_oneForOther : Undoes oneForOtherCodec 3 (differentialArchive oneFile otherFile)
    (packedMetadata [[0x62]] 2 79 88) :=
  undoes_storedCodec 3 (by decide +kernel) _ (by decide +kernel)

theorem sameContents_oneForOther : SameContents oneFile otherFile := by
  intro e he b hb hpath
  rw [List.mem_singleton.mp he, List.mem_singleton.mp hb] at hpath
  exact absurd hpath (by decide +kernel)

/-- A file for another one, as a lower. -/
theorem differential_asLower_oneForOther : ∃ image, ∃ x : HostDir latinHost,
    createDifferentialImage oneForOtherCodec 3 oneFile otherFile {}
      = .ok (image, packedMetadata [[0x62]] 2 79 88) ∧
    extractImage oneForOtherCodec image HostDir.empty true = .ok x ∧
    (HostMount.asLower x otherFile).Shows oneFile := by
  obtain ⟨image, x, hcreate, hextract⟩ := exists_unpacked oneFile otherFile
    (by decide +kernel) undoes_oneForOther (by decide +kernel) (by decide +kernel)
  refine ⟨image, x, hcreate, hextract, ?_⟩
  apply (differential_asLower_iff oneForOtherCodec 3 oneFile otherFile x {} _ image true
    (clean_of_decide (by decide +kernel)) (clean_of_decide (by decide +kernel))
    sameContents_oneForOther hcreate undoes_oneForOther hextract).mpr
  intro e he b hb hpath
  rw [List.mem_singleton.mp he, List.mem_singleton.mp hb] at hpath
  exact absurd hpath (by decide +kernel)

/-- The one-byte file `É`. -/
def capitalFile : HostDir latinHost where
  entries := [⟨[[Char.ofNat 0xC9]], 0x20, 133000000000000000, some [1]⟩]
  ok := by decide +kernel
  distinct := by decide +kernel
  rooted := ⟨Or.inl rfl, trivial⟩

/-- The one-byte file `é`. -/
def smallFile : HostDir latinHost where
  entries := [⟨[[Char.ofNat 0xE9]], 0x20, 133000000000000000, some [1]⟩]
  ok := by decide +kernel
  distinct := by decide +kernel
  rooted := ⟨Or.inl rfl, trivial⟩

/-- The outside code on the image of `capitalFile` over `smallFile`. -/
def capitalForSmallCodec : Codec :=
  storedCodec
    [184, 2, 234, 2, 202, 213, 57, 168, 175, 177, 163, 116, 73, 163, 151, 233, 165, 35, 197, 26,
      171, 168, 164, 56, 149, 93, 190, 94, 245, 205, 43, 8] rfl
    (packedText "[\n    \"é\"\n  ]" "2" "81" "90")
    (metadataToJson (packedMetadata [[0xE9]] 2 81 90))

/-- The marker of `é` hides `É`, so the view lacks the one file of the source. -/
theorem differential_hides_capital : ∃ image m', ∃ x : HostDir latinHost,
    Clean capitalFile ∧ Clean smallFile ∧ SameContents capitalFile smallFile ∧
    createDifferentialImage capitalForSmallCodec 3 capitalFile smallFile {} = .ok (image, m') ∧
    Undoes capitalForSmallCodec 3 (differentialArchive capitalFile smallFile) m' ∧
    extractImage capitalForSmallCodec image HostDir.empty true = .ok x ∧
    (HostMount.asLower x smallFile).view [[Char.ofNat 0xC9]] = none ∧
    ¬(HostMount.asLower x smallFile).Shows capitalFile := by
  have hundoes : Undoes capitalForSmallCodec 3 (differentialArchive capitalFile smallFile)
      (packedMetadata [[0xE9]] 2 81 90) :=
    undoes_storedCodec 3 (by decide +kernel) _ (by decide +kernel)
  obtain ⟨image, x, hcreate, hextract⟩ := exists_unpacked capitalFile smallFile
    (by decide +kernel) hundoes (by decide +kernel) (by decide +kernel)
  have hs : Clean capitalFile := clean_of_decide (by decide +kernel)
  have hb : Clean smallFile := clean_of_decide (by decide +kernel)
  have h := extracted_of_extractImage hcreate hundoes hextract
  have hwhited : Whited x [[Char.ofNat 0xC9]] :=
    (h.whited_iff hs hb).mpr ⟨_, List.mem_of_elem_eq_true (by decide +kernel :
      (deletedOf capitalFile smallFile).elem
        ⟨[[Char.ofNat 0xE9]], 0x20, 133000000000000000, some [1]⟩ = true), by decide +kernel⟩
  have hfind := HostDir.find_of_mem (t := capitalFile) (List.mem_singleton.mpr rfl)
  have hview : (HostMount.asLower x smallFile).view _ = none :=
    HostMount.view_asLower_whited (hs.plainPath hfind) hwhited
  refine ⟨image, _, x, hs, hb, ?_, hcreate, hundoes, hextract, hview, ?_⟩
  · intro e he b hbmem _ _ _
    rw [List.mem_singleton.mp he, List.mem_singleton.mp hbmem]
  · intro hshows
    have hshown := hshows [[Char.ofNat 0xC9]]
    rw [hview, hfind] at hshown
    cases hshown

end LayerImage

/-! ## As the upper -/

/-- Every entry of the base is at its root, or below a path that the source has. -/
def KeepsParents (source base : HostDir H) : Prop :=
  ∀ b ∈ base.entries, b.path.dropLast = [] ∨ (source.find b.path.dropLast).isSome = true

/-- An entry that the source has and the image does not hold is below no marker. -/
theorem Extracted.not_whited_of_unchanged (h : Extracted source base x) (hs : Clean source)
    (hb : Clean base) {p : RelPath} {e b : HostEntry} (he : source.find p = some e)
    (hbase : base.find p = some b) (hlower : lowerPath b.path = lowerPath e.path) :
    ¬Whited x p := by
  intro hwhited
  obtain ⟨hemem, hepath⟩ := HostDir.find_eq_some.mp he
  obtain ⟨hbmem, hbpath⟩ := HostDir.find_eq_some.mp hbase
  obtain ⟨d, hdmem, hpre⟩ := (h.whited_iff hs hb).mp hwhited
  obtain ⟨hdbase, hdeleted⟩ := (mem_deletedOf_of_clean hs hb).mp hdmem
  have hpos : 0 < d.path.length := List.length_pos_iff.mpr (base.ok d hdbase).ne_nil
  obtain ⟨c, hc, hcpath⟩ := HostDir.exists_take hbmem hpos
  obtain ⟨e', he', he'path⟩ := HostDir.exists_take hemem hpos
  -- The marker is the one of the part of the base's own path.
  have hcd : c = d := by
    apply HostDir.eq_of_foldPath hdbase hc
    have htake := List.prefix_iff_eq_take.mp hpre
    rw [H.length_foldPath, ← hbpath] at htake
    rw [hcpath, htake]
    exact List.map_take
  apply hdeleted e' he'
  rw [← hcd, hcpath, he'path]
  have hlowerTake : ∀ (q : RelPath) (k : Nat), lowerPath (q.take k) = (lowerPath q).take k :=
    fun q k => List.map_take
  rw [hlowerTake, hlowerTake, hlower]

theorem Extracted.shows_asUpper (h : Extracted source base x) (hs : Clean source) (hb : Clean base)
    (hsame : SameContents source base) (hkeeps : KeepsParents source base) :
    (HostMount.asUpper x base).Shows source := by
  have hop := h.noOpaqueMarker hs hb
  intro p
  by_cases hplain : HostMount.PlainPath H p
  · cases he : source.find p with
    | some e =>
      cases hx : x.find p with
      | some y =>
        rw [HostMount.view_asUpper_own hplain hx, h.content_eq hs he hx]
        rfl
      | none =>
        obtain ⟨b, hbase, hlower, hcontent⟩ := h.base_of_source hs hb hsame he hx
        have hnot := h.not_whited_of_unchanged hs hb he hbase hlower
        rw [HostMount.view_asUpper_base hplain hop hb hnot hx (not_blocked_of_find h hs he), hbase,
          Option.map_some, hcontent]
        rfl
    | none =>
      cases hx : x.find p with
      | none =>
        cases hbase : base.find p with
        | none => exact HostMount.view_asUpper_none hplain hb hx hbase
        | some b =>
          exact HostMount.view_asUpper_whited hplain hop (h.whited_of_base hs hb he hbase) hx
      | some y =>
        obtain ⟨b, hbmem, habove⟩ := h.above_of_not_source hplain he hx
        obtain ⟨c, hc, hcpath⟩ :=
          HostDir.exists_take (mem_of_mem_deletedOf hbmem) (Nat.succ_pos p.length)
        have hlength := habove.length_le
        rw [H.length_foldPath, H.length_foldPath, List.length_dropLast] at hlength
        have hdrop : c.path.dropLast = b.path.dropLast.take p.length := by
          rw [hcpath, List.dropLast_eq_take, List.dropLast_eq_take, List.length_take, List.take_take,
            List.take_take]
          congr 1
          omega
        have hfold : H.foldPath c.path.dropLast = H.foldPath p := by
          have htake := List.prefix_iff_eq_take.mp habove
          rw [H.length_foldPath] at htake
          rw [hdrop, htake]
          exact List.map_take
        rcases hkeeps c hc with hnil | hsome
        · rw [hnil, H.foldPath_nil] at hfold
          exact absurd (H.foldPath_eq_nil.mp hfold.symm) hplain.ne_nil
        · rw [source.find_congr hfold, he] at hsome
          cases hsome
  · have hnone : source.find p = none := by
      cases he : source.find p with
      | none => rfl
      | some e => exact absurd (hs.plainPath he) hplain
    rw [HostMount.view_of_not_plain hplain, hnone]
    rfl

theorem Extracted.keepsParents (h : Extracted source base x) (hs : Clean source) (hb : Clean base)
    (hshows : (HostMount.asUpper x base).Shows source) : KeepsParents source base := by
  intro b hbmem
  by_contra hnot
  rw [not_or, Bool.not_eq_true, Option.isSome_eq_false_iff, Option.isNone_iff_eq_none] at hnot
  obtain ⟨hroot, hparent⟩ := hnot
  have hdeleted : b ∈ deletedOf source base := by
    rw [mem_deletedOf_of_clean hs hb]
    refine ⟨hbmem, ?_⟩
    intro e he hlower
    have hfold := foldPath_of_lowerPath (H := H) hlower
    -- The source would have the directory above the entry.
    have hdir : source.HasDir b.path.dropLast := by
      apply HostDir.hasDir_of_above he
      · rw [hfold]
        exact (List.dropLast_prefix b.path).map H.foldName
      · rw [hfold]
        intro heq
        have hlength := congrArg List.length heq
        have hpos := List.length_pos_iff.mpr (base.ok b hbmem).ne_nil
        rw [H.length_foldPath, H.length_foldPath, List.length_dropLast] at hlength
        omega
    rcases hdir with hnil | ⟨d, hd, _⟩
    · exact hroot hnil
    · rw [hparent] at hd
      cases hd
  obtain ⟨_, hdir⟩ := h.marker hb hdeleted
  rcases hdir with hnil | ⟨y, hy, _⟩
  · exact hroot hnil
  · have hbase : ∃ d, base.find b.path.dropLast = some d := by
      rcases base.rooted.parentIn b hbmem with hnil | ⟨d, hd, hdpath, _⟩
      · exact absurd hnil hroot
      · exact ⟨d, hdpath ▸ HostDir.find_of_mem hd⟩
    obtain ⟨d, hd⟩ := hbase
    have hview := hshows b.path.dropLast
    rw [HostMount.view_asUpper_own (hb.plainPath hd) hy, hparent] at hview
    cases hview

namespace LayerImage

/-- As the upper above the base the unpacked tree shows the source exactly when the source has
every directory of the base that has entries. -/
theorem differential_asUpper_iff (k : Codec) (level : Int) (source base x : HostDir H)
    (m m' : LayerMetadata) (image : Data) (verifyChecksum : Bool) (hs : Clean source)
    (hb : Clean base) (hsame : SameContents source base)
    (hcreate : createDifferentialImage k level source base m = .ok (image, m'))
    (hundoes : Undoes k level (differentialArchive source base) m')
    (hextract : extractImage k image HostDir.empty verifyChecksum = .ok x) :
    (HostMount.asUpper x base).Shows source ↔ KeepsParents source base := by
  have h := extracted_of_extractImage hcreate hundoes hextract
  exact ⟨h.keepsParents hs hb, h.shows_asUpper hs hb hsame⟩

/-- A file for another one, as the upper. -/
theorem differential_asUpper_oneForOther : ∃ image, ∃ x : HostDir latinHost,
    createDifferentialImage oneForOtherCodec 3 oneFile otherFile {}
      = .ok (image, packedMetadata [[0x62]] 2 79 88) ∧
    extractImage oneForOtherCodec image HostDir.empty true = .ok x ∧
    (HostMount.asUpper x otherFile).Shows oneFile := by
  obtain ⟨image, x, hcreate, hextract⟩ := exists_unpacked oneFile otherFile
    (by decide +kernel) undoes_oneForOther (by decide +kernel) (by decide +kernel)
  refine ⟨image, x, hcreate, hextract, ?_⟩
  apply (differential_asUpper_iff oneForOtherCodec 3 oneFile otherFile x {} _ image true
    (clean_of_decide (by decide +kernel)) (clean_of_decide (by decide +kernel))
    sameContents_oneForOther hcreate undoes_oneForOther hextract).mpr
  intro b hb
  rw [List.mem_singleton.mp hb]
  exact Or.inl rfl

/-- The outside code on the image of nothing over `directoryAtD`. -/
def nothingForDirectoryCodec : Codec :=
  storedCodec
    [40, 111, 40, 96, 245, 233, 201, 136, 196, 90, 37, 236, 250, 204, 16, 161, 178, 169, 254, 10,
      237, 234, 151, 73, 45, 192, 132, 168, 203, 217, 89, 214] rfl
    (packedText "[\n    \"d\",\n    \"d/x\"\n  ]" "2" "84" "93")
    (metadataToJson (packedMetadata [[0x64], [0x64, 0x2F, 0x78]] 2 84 93))

/-- The marker of `d\\x` makes the deleted directory `d` again. -/
theorem differential_remakes_directory : ∃ image m', ∃ x : HostDir latinHost,
    Clean (HostDir.empty : HostDir latinHost) ∧ Clean directoryAtD ∧
    SameContents (HostDir.empty : HostDir latinHost) directoryAtD ∧
    createDifferentialImage nothingForDirectoryCodec 3 HostDir.empty directoryAtD {}
      = .ok (image, m') ∧
    Undoes nothingForDirectoryCodec 3 (differentialArchive HostDir.empty directoryAtD) m' ∧
    extractImage nothingForDirectoryCodec image HostDir.empty true = .ok x ∧
    (HostMount.asUpper x directoryAtD).view [['d']] = some none ∧
    ¬(HostMount.asUpper x directoryAtD).Shows HostDir.empty := by
  have hundoes : Undoes nothingForDirectoryCodec 3 (differentialArchive HostDir.empty directoryAtD)
      (packedMetadata [[0x64], [0x64, 0x2F, 0x78]] 2 84 93) :=
    undoes_storedCodec 3 (by decide +kernel) _ (by decide +kernel)
  obtain ⟨image, x, hcreate, hextract⟩ := exists_unpacked HostDir.empty directoryAtD
    (by decide +kernel) hundoes (by decide +kernel) (by decide +kernel)
  have hb : Clean directoryAtD := clean_of_decide (by decide +kernel)
  have h := extracted_of_extractImage hcreate hundoes hextract
  obtain ⟨_, hdir⟩ := h.marker hb (List.mem_of_elem_eq_true (by decide +kernel :
    (deletedOf HostDir.empty directoryAtD).elem
      ⟨[['d'], ['x']], 0x20, 133000000000000000, some [1]⟩ = true))
  have hfind : directoryAtD.find [['d']] = some ⟨[['d']], 0x10, 133000000000000000, none⟩ := by
    decide +kernel
  rcases hdir with hnil | ⟨y, hy, hydir⟩
  · cases hnil
  · have hview : (HostMount.asUpper x directoryAtD).view _ = some _ :=
      HostMount.view_asUpper_own (hb.plainPath hfind) hy
    rw [Option.isNone_iff_eq_none.mp hydir] at hview
    refine ⟨image, _, x, clean_empty, hb, ?_, hcreate, hundoes, hextract, hview, ?_⟩
    · intro e he
      cases he
    · intro hshows
      have hshown := hshows [['d']]
      rw [hview] at hshown
      cases hshown

end LayerImage

end LayerMount
