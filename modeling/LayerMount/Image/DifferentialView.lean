import LayerMount.Image.HostView
import LayerMount.Image.Unpackable

/-!
# What an unpacked differential image shows

The tree of an unpacked differential image over its base, in the two roles it can have.

As a lower above the base it shows the source exactly when no path of source and base
differs in case beyond ASCII: the packer tells such paths apart, the host does not.  As the
upper it shows the source exactly when the source has every directory of the base that has
entries: a marker below a deleted directory makes the directory again, and an entry of the
upper comes before its marker.
-/

namespace LayerMount

open Lib

variable {H : Host}

/-! ## Names without markers -/

/-- No name of the tree has the prefix of a marker, and no name at its root opens as the
sidecar. -/
structure Clean (t : HostDir H) : Prop where
  names : ∀ e ∈ t.entries, ∀ n ∈ e.path, isWhiteoutName (H.foldName n) = false
  sidecar : ∀ e ∈ t.entries, openedName H (e.path.headD []) ≠ kSidecarDirName

section Clean

variable {t : HostDir H} {e : HostEntry} {p d : RelPath} {n : Name}

theorem openedName_of_prefix (h : isWhiteoutName (openedName H n) = true) :
    isWhiteoutName (H.foldName n) = true := by
  rw [isWhiteoutName, List.isPrefixOf_iff_prefix] at h ⊢
  exact h.trans (List.rdropWhile_prefix opensWithout _)

theorem Clean.not_skipped (h : Clean t) (he : e ∈ t.entries) : skipsPath H e.path = false := by
  rw [skipsPath, Bool.or_eq_false_iff, decide_eq_false_iff_not, decide_eq_false_iff_not]
  refine ⟨h.sidecar e he, ?_⟩
  intro heq
  obtain ⟨n, p, hpath⟩ := List.exists_cons_of_ne_nil (t.ok e he).ne_nil
  rw [hpath, List.headD_cons] at heq
  have hmarker := openedName_of_prefix (n := n) (by rw [heq]; exact isWhiteoutName_whiteoutName _)
  rw [h.names e he n (by simp [hpath])] at hmarker
  cases hmarker

/-- The marker of a name opens as the marker of what the name opens as, or has no name
left. -/
theorem openedName_whiteoutName (n : Name) :
    openedName H (whiteoutName n) = whiteoutName (openedName H n) ∨
      openedName H (whiteoutName n) = ['.', 'w', 'h'] := by
  unfold openedName List.rdropWhile
  rw [H.foldName_whiteoutName, whiteoutName, List.reverse_append, List.dropWhile_append]
  split
  · right
    decide
  · left
    rw [List.reverse_append, List.reverse_reverse]
    rfl

theorem Clean.marker_not_skipped (h : Clean t) (he : e ∈ t.entries) :
    skipsPath H (markerPath e) = false := by
  obtain ⟨d, n, hpath⟩ := (t.ok e he).exists_snoc
  rw [markerPath_of_snoc hpath]
  cases d with
  | cons m d =>
    have hskip := h.not_skipped he
    rw [hpath] at hskip
    exact hskip
  | nil =>
    have hsidecar := h.sidecar e he
    rw [hpath] at hsidecar
    rw [skipsPath, Bool.or_eq_false_iff, decide_eq_false_iff_not, decide_eq_false_iff_not]
    rcases openedName_whiteoutName (H := H) n with heq | heq
    · simp only [List.nil_append, List.headD_cons, heq]
      refine ⟨by simp [whiteoutName, kWhiteoutPrefix, kSidecarDirName], ?_⟩
      intro hname
      exact hsidecar (whiteoutName_injective hname)
    · simp only [List.nil_append, List.headD_cons, heq]
      decide

theorem Clean.scannedEntries (h : Clean t) : scannedEntries t = t.entries :=
  LayerImage.scannedEntries_of_not_skipped fun _ he => h.not_skipped he

theorem Clean.names_of_find (h : Clean t) (hfind : t.find p = some e) :
    ∀ n ∈ H.foldPath p, isWhiteoutName n = false := by
  obtain ⟨he, hpath⟩ := HostDir.find_eq_some.mp hfind
  intro n hn
  rw [← hpath] at hn
  obtain ⟨m, hm, rfl⟩ := List.mem_map.mp hn
  exact h.names e he m hm

/-- The paths of the tree can be looked up. -/
theorem Clean.plainPath (h : Clean t) (hfind : t.find p = some e) : HostMount.PlainPath H p := by
  have hmarker := h.names_of_find hfind
  obtain ⟨he, hpath⟩ := HostDir.find_eq_some.mp hfind
  have hok := t.ok e he
  constructor
  · rw [← hpath, isSafeRelativePath, Bool.and_eq_true, List.all_eq_true]
    refine ⟨by simpa using hok.ne_nil, ?_⟩
    intro n hn
    obtain ⟨m, hm, rfl⟩ := List.mem_map.mp hn
    have hname := hok.archiveNames m hm
    have hcolon : ':' ∉ H.foldName m :=
      H.not_mem_colon_foldName fun hmem => (hname.chars _ hmem).2.1 rfl
    have hdots : H.foldName m ≠ ['.', '.'] := fun heq =>
      hname.ne_dots (H.foldName_eq_dots (k := 2) heq)
    simp [hcolon, hdots]
  · rw [isReservedRelativePath, Bool.or_eq_false_iff]
    constructor
    · rw [isRootSidecarPath, decide_eq_false_iff_not, ← hpath]
      obtain ⟨n, q, hq⟩ := List.exists_cons_of_ne_nil hok.ne_nil
      rw [hq]
      intro hhead
      have hfold : H.foldName n = kSidecarDirName := Option.some.inj hhead
      apply h.sidecar e he
      rw [hq, List.headD_cons, openedName, hfold]
      decide
    · have hany : (H.foldPath p).any isWhiteoutName = false := by
        rw [List.any_eq_false]
        intro n hn
        rw [hmarker n hn]
        exact Bool.false_ne_true
      simp [parentOfFirstMarkerSegment, hany]

theorem Clean.find_marker (h : Clean t) (d : RelPath) (n : Name) :
    t.find (d ++ [whiteoutName n]) = none := by
  cases hfind : t.find (d ++ [whiteoutName n]) with
  | none => rfl
  | some e =>
    have hname := h.names_of_find hfind (whiteoutName (H.foldName n)) (by simp)
    rw [isWhiteoutName_whiteoutName] at hname
    cases hname

theorem Clean.not_whited (h : Clean t) (p : RelPath) : ¬Whited t p := by
  rintro ⟨q, hq, _, hfind⟩
  obtain ⟨d, n, rfl⟩ := (List.eq_nil_or_concat q).resolve_left hq
  rw [List.concat_eq_append, getWhiteoutFileName_append, h.find_marker d n] at hfind
  cases hfind

theorem clean_empty : Clean (HostDir.empty : HostDir H) where
  names := by
    intro e he
    cases he
  sidecar := by
    intro e he
    cases he

theorem noOpaqueMarker_empty : NoOpaqueMarker (HostDir.empty : HostDir H) := fun _ => rfl

theorem not_blocked_empty (d : RelPath) : ¬Blocked (HostDir.empty : HostDir H) d := by
  rintro ⟨q, x, _, hfind, _⟩
  cases hfind

end Clean

theorem foldPath_getWhiteoutFileName_congr {p q : RelPath} (h : H.foldPath p = H.foldPath q) :
    H.foldPath (getWhiteoutFileName p) = H.foldPath (getWhiteoutFileName q) := by
  have hfold : ∀ r : RelPath,
      H.foldPath (getWhiteoutFileName r) = getWhiteoutFileName (H.foldPath r) := by
    intro r
    rcases List.eq_nil_or_concat r with rfl | ⟨d, n, rfl⟩
    · have hname : H.foldName (whiteoutName []) = whiteoutName (H.foldName []) :=
        H.foldName_whiteoutName []
      exact congrArg (fun n => [n]) hname
    · rw [List.concat_eq_append, foldPath_getWhiteoutFileName, H.foldPath_append,
        H.foldPath_singleton, getWhiteoutFileName_append]
  rw [hfold, hfold, h]

/-! ## The unpacked tree -/

/-- The tree holds what an unpack of the differential image placed. -/
structure Extracted (source base x : HostDir H) : Prop where
  placed : PlacedWith (changedOf source base) (deletedOf source base) x
  dirs : HoldsDirs H (changedOf source base) x

theorem extracted_of_placeItems {source base x : HostDir H}
    (h : placeItems (differentialItems source base) HostDir.empty = .ok x) :
    Extracted source base x := by
  obtain ⟨t, hrun, hplaced, hdirs⟩ := placeItems_some source (changedOf source base)
    (fun e he => mem_of_mem_changedOf he) nodup_changedOf
  rw [differentialItems, placeItems_append, hrun] at h
  have hmarkers : placeItems ((deletedOf source base).map fun b => markerItem b.path) t = .ok x := h
  have hne : ∀ i ∈ (deletedOf source base).map fun b => markerItem b.path, i.path ≠ [] := by
    intro i hi
    obtain ⟨b, _, rfl⟩ := List.mem_map.mp hi
    simp [markerItem, getWhiteoutFileName]
  obtain ⟨hall, hkeeps⟩ := hplaced.run hne hmarkers
  refine ⟨hall, ?_⟩
  intro e he hskip hdir
  exact hkeeps.hasDir (hdirs e he hskip hdir)

section Extracted

variable {source base x : HostDir H} {e b y : HostEntry} {p q : RelPath}

/-- A changed entry is in the unpacked tree. -/
theorem Extracted.changed (h : Extracted source base x) (hs : Clean source)
    (he : e ∈ changedOf source base) :
    ∃ y, x.find e.path = some y ∧ y.isDirectory = e.isDirectory := by
  have hmem := mem_of_mem_changedOf he
  have hskip := hs.not_skipped hmem
  cases hdir : e.isDirectory with
  | false =>
    exact h.placed.files (itemOf e) (List.mem_append_left _ (List.mem_map_of_mem he)) hskip
      (by simp [hdir])
  | true =>
    rcases h.dirs e he hskip hdir with hnil | ⟨y, hy, hydir⟩
    · exact absurd hnil (source.ok e hmem).ne_nil
    · exact ⟨y, hy, hydir⟩

theorem Extracted.marker (h : Extracted source base x) (hb : Clean base)
    (hmem : b ∈ deletedOf source base) :
    (∃ y, x.find (markerPath b) = some y ∧ y.isDirectory = false) ∧ x.HasDir b.path.dropLast := by
  have hskip := hb.marker_not_skipped (mem_of_mem_deletedOf hmem)
  obtain ⟨hfile, hdir, _⟩ := h.placed.marker hmem (ok_of_mem_deletedOf hmem) hskip
  exact ⟨hfile, hdir⟩

/-- An entry of the unpacked tree is one of the source, a marker, or a directory above a
marker. -/
theorem Extracted.cases (h : Extracted source base x) (hy : x.find p = some y) :
    (∃ e, source.find p = some e ∧ y.content = e.content) ∨
      (∃ b ∈ deletedOf source base, H.foldPath p = H.foldPath (markerPath b)) ∨
      ∃ b ∈ deletedOf source base, H.foldPath p <+: H.foldPath b.path.dropLast ∧
        y.isDirectory = true := by
  obtain ⟨hmem, hpath⟩ := HostDir.find_eq_some.mp hy
  obtain ⟨i, hi, hskip, hfrom⟩ := h.placed.sourced y hmem
  rcases mem_items hi with ⟨e, he, rfl⟩ | ⟨b, hb, rfl⟩
  · left
    have hes := mem_of_mem_changedOf he
    cases hfrom with
    | file hfile heq hcontent _ =>
      refine ⟨e, HostDir.find_eq_some.mpr ⟨hes, heq.symm.trans hpath⟩, ?_⟩
      rw [hcontent]
      rw [isFile_itemOf, Bool.not_eq_true', HostEntry.isDirectory, Option.isNone_eq_false_iff] at hfile
      obtain ⟨data, hdata⟩ := Option.isSome_iff_exists.mp hfile
      rw [hdata, itemOf, hdata]
      rfl
    | directory hdir hpre hproper =>
      have hnone : y.content = none := Option.isNone_iff_eq_none.mp hdir
      rw [hpath] at hpre hproper
      by_cases heq : H.foldPath p = H.foldPath e.path
      · refine ⟨e, HostDir.find_eq_some.mpr ⟨hes, heq.symm⟩, ?_⟩
        have hedir : e.isDirectory = true := by
          by_contra hfile
          exact hproper (by simp [hfile]) heq
        rw [hnone, Option.isNone_iff_eq_none.mp hedir]
      · rcases HostDir.hasDir_of_above hes hpre heq with hnil | ⟨d, hd, hddir⟩
        · rw [hnil, HostDir.find_nil] at hy
          cases hy
        · exact ⟨d, hd, by rw [hnone, Option.isNone_iff_eq_none.mp hddir]⟩
  · right
    rw [markerItem_path] at hskip
    cases hfrom with
    | file _ heq _ _ =>
      left
      exact ⟨b, hb, hpath.symm.trans heq⟩
    | directory hdir hpre hproper =>
      right
      refine ⟨b, hb, ?_, hdir⟩
      rw [hpath, markerItem_path] at hpre hproper
      obtain ⟨d, n, hsnoc⟩ := (ok_of_mem_deletedOf hb).exists_snoc
      rw [hsnoc, List.dropLast_concat]
      rw [markerPath_of_snoc hsnoc, H.foldPath_append, H.foldPath_singleton] at hpre hproper
      rcases List.prefix_concat_iff.mp hpre with heq | hpre
      · exact absurd heq (hproper rfl)
      · exact hpre

/-- A path with the marker's own name cannot be looked up. -/
theorem not_plain_of_marker (hok : b.Ok) (h : H.foldPath p = H.foldPath (markerPath b)) :
    ¬HostMount.PlainPath H p := by
  intro hplain
  obtain ⟨d, n, hsnoc⟩ := hok.exists_snoc
  rw [markerPath_of_snoc hsnoc, H.foldPath_append, H.foldPath_singleton,
    H.foldName_whiteoutName] at h
  have hmem : whiteoutName (H.foldName n) ∈ H.foldPath p := by simp [h]
  obtain ⟨m, hm, heq⟩ := List.mem_map.mp hmem
  have hname := hplain.names m hm
  rw [heq, isWhiteoutName_whiteoutName] at hname
  cases hname

/-- A marker of the unpacked tree is the one of a deleted entry. -/
theorem Extracted.deleted_of_marker (h : Extracted source base x) (hs : Clean source)
    (hb : Clean base) {d : RelPath} {n : Name} (hy : x.find (d ++ [whiteoutName n]) = some y) :
    ∃ b ∈ deletedOf source base, H.foldPath b.path = H.foldPath (d ++ [n]) := by
  rcases h.cases hy with ⟨e, he, _⟩ | ⟨b, hbmem, heq⟩ | ⟨b, hbmem, habove, _⟩
  · rw [hs.find_marker d n] at he
    cases he
  · refine ⟨b, hbmem, ?_⟩
    obtain ⟨d', n', hsnoc⟩ := (ok_of_mem_deletedOf hbmem).exists_snoc
    rw [markerPath_of_snoc hsnoc, H.foldPath_append, H.foldPath_append, H.foldPath_singleton,
      H.foldPath_singleton, H.foldName_whiteoutName, H.foldName_whiteoutName] at heq
    obtain ⟨hd, hn⟩ := List.append_inj' heq rfl
    have hname := whiteoutName_injective (List.cons.inj hn).1
    rw [hsnoc, H.foldPath_append, H.foldPath_append, H.foldPath_singleton, H.foldPath_singleton,
      hd, hname]
  · have hmem : whiteoutName (H.foldName n) ∈ H.foldPath b.path.dropLast := by
      apply habove.subset
      simp
    obtain ⟨m, hm, heq⟩ := List.mem_map.mp hmem
    have hname := hb.names b (mem_of_mem_deletedOf hbmem) m (List.dropLast_subset _ hm)
    rw [heq, isWhiteoutName_whiteoutName] at hname
    cases hname

/-- The tree whites out what is at or below a deleted entry. -/
theorem Extracted.whited_iff (h : Extracted source base x) (hs : Clean source) (hb : Clean base) :
    Whited x p ↔ ∃ b ∈ deletedOf source base, H.foldPath b.path <+: H.foldPath p := by
  constructor
  · rintro ⟨q, hq, hpre, hfind⟩
    obtain ⟨y, hy⟩ := Option.isSome_iff_exists.mp hfind
    obtain ⟨d, n, rfl⟩ := (List.eq_nil_or_concat q).resolve_left hq
    rw [List.concat_eq_append] at hpre hy
    rw [getWhiteoutFileName_append] at hy
    obtain ⟨b, hbmem, hsame⟩ := h.deleted_of_marker hs hb hy
    refine ⟨b, hbmem, ?_⟩
    rw [hsame]
    exact hpre.map H.foldName
  · rintro ⟨b, hbmem, hpre⟩
    obtain ⟨⟨y, hy, _⟩, _⟩ := h.marker hb hbmem
    have hlength := hpre.length_le
    rw [H.length_foldPath, H.length_foldPath] at hlength
    have htake : H.foldPath (p.take b.path.length) = H.foldPath b.path := by
      have htake := List.prefix_iff_eq_take.mp hpre
      rw [H.length_foldPath] at htake
      rw [htake]
      exact List.map_take
    refine ⟨p.take b.path.length, ?_, List.take_prefix _ _, ?_⟩
    · rw [← List.length_pos_iff, List.length_take]
      have hpos := List.length_pos_iff.mpr (ok_of_mem_deletedOf hbmem).ne_nil
      omega
    · have hmarker : H.foldPath (getWhiteoutFileName (p.take b.path.length))
          = H.foldPath (markerPath b) := foldPath_getWhiteoutFileName_congr htake
      rw [x.find_congr hmarker, hy]
      rfl

theorem Extracted.noOpaqueMarker (h : Extracted source base x) (hs : Clean source)
    (hb : Clean base) : NoOpaqueMarker x := by
  intro d
  have hmarker : kOpaqueMarkerFile = whiteoutName (whiteoutName ['.', 'o', 'p', 'q']) := by decide
  cases hfind : x.find (d ++ [kOpaqueMarkerFile]) with
  | none => rfl
  | some y =>
    rw [hmarker] at hfind
    obtain ⟨b, hbmem, hsame⟩ := h.deleted_of_marker hs hb hfind
    -- The deleted entry would have a marker's name.
    have hmem : H.foldName (whiteoutName ['.', 'o', 'p', 'q']) ∈ H.foldPath b.path := by simp [hsame]
    obtain ⟨m, hm, heq⟩ := List.mem_map.mp hmem
    have hname := hb.names b (mem_of_mem_deletedOf hbmem) m hm
    rw [heq, H.foldName_whiteoutName, isWhiteoutName_whiteoutName] at hname
    cases hname

/-- A file above a plain path is one of the source. -/
theorem Extracted.blocked (h : Extracted source base x) (hplain : HostMount.PlainPath H p)
    (hblocked : Blocked x p.dropLast) :
    ∃ q e, q <+: p.dropLast ∧ source.find q = some e ∧ e.isDirectory = false := by
  obtain ⟨q, y, hpre, hfind, hfile⟩ := hblocked
  rcases h.cases hfind with ⟨e, he, hcontent⟩ | ⟨b, hbmem, heq⟩ | ⟨b, _, _, hdir⟩
  · refine ⟨q, e, hpre, he, ?_⟩
    rw [HostEntry.isDirectory, ← hcontent]
    exact hfile
  · obtain ⟨d, n, hsnoc⟩ := (ok_of_mem_deletedOf hbmem).exists_snoc
    rw [markerPath_of_snoc hsnoc, H.foldPath_append, H.foldPath_singleton,
      H.foldName_whiteoutName] at heq
    have hmem : whiteoutName (H.foldName n) ∈ H.foldPath q := by simp [heq]
    obtain ⟨m, hm, hname⟩ := List.mem_map.mp hmem
    have hnot := hplain.names m (List.dropLast_subset _ (hpre.subset hm))
    rw [hname, isWhiteoutName_whiteoutName] at hnot
    cases hnot
  · rw [hdir] at hfile
    cases hfile

theorem not_blocked_of_find (h : Extracted source base x) (hs : Clean source)
    (he : source.find p = some e) : ¬Blocked x p.dropLast := by
  intro hblocked
  obtain ⟨q, f, hpre, hf, hfile⟩ := h.blocked (hs.plainPath he) hblocked
  have hmem := (HostDir.find_eq_some.mp he).1
  have hpath := (HostDir.find_eq_some.mp he).2
  have hqp : q <+: p := hpre.trans (List.dropLast_prefix p)
  have hdir : source.HasDir q := by
    apply HostDir.hasDir_of_above hmem
    · rw [hpath]
      exact hqp.map H.foldName
    · rw [hpath]
      intro heq
      have hlength := congrArg List.length heq
      have hle := hpre.length_le
      have hpos := List.length_pos_iff.mpr (hs.plainPath he).ne_nil
      rw [H.length_foldPath, H.length_foldPath] at hlength
      rw [List.length_dropLast] at hle
      omega
  exact HostDir.not_hasDir_of_file hf hfile hdir

end Extracted

/-! ## The two roles -/

namespace HostMount

variable {m : HostMount H} {t x base : HostDir H} {p : RelPath} {y : HostEntry} {i : Nat}

/-- The base is the last lower, and nothing in it hides a path. -/
theorem contentOf_base (hb : Clean base) (hi : m.lowers[i]? = some base) (hp : p ≠ []) :
    m.contentOf (findInLowersFrom m.config (H.foldPath p) i [Layer.ofHost base])
      = (base.find p).map HostEntry.content := by
  have hfold : base.find (H.foldPath p) = base.find p := base.find_congr (H.foldPath_foldPath p)
  rw [findInLowers_probed hp (hb.not_whited p)]
  cases hfind : base.find p with
  | some e => simp [contentOf, treeOf, hi, hfold, hfind]
  | none =>
    have hend : findInLowersFrom m.config (H.foldPath p) (i + 1) [] = {} := rfl
    simp only [hend, ite_self]
    rfl

/-- The tree as a lower above the base, below an empty upper. -/
def asLower (x base : HostDir H) : HostMount H := ⟨HostDir.empty, [x, base]⟩

/-- The tree as the upper above the base. -/
def asUpper (x base : HostDir H) : HostMount H := ⟨x, [base]⟩

theorem view_asLower (hplain : PlainPath H p) :
    (asLower x base).view p = (asLower x base).contentOf
      (findInLowersFrom (asLower x base).config (H.foldPath p) 0
        [Layer.ofHost x, Layer.ofHost base]) := by
  have hhide : hidingInUpper (asLower x base).config (H.foldPath p) = .none :=
    (hidingInUpper_eq_none_iff hplain.ne_nil noOpaqueMarker_empty).mpr
      ⟨clean_empty.not_whited p, not_blocked_empty _⟩
  have hempty : (asLower x base).upper.find p = none := rfl
  rw [view_of_plain hplain, hempty, hhide]
  rfl

theorem view_asLower_whited (hplain : PlainPath H p) (h : Whited x p) :
    (asLower x base).view p = none := by
  rw [view_asLower hplain, findInLowers_whited hplain.ne_nil h]
  rfl

theorem view_asLower_own (hplain : PlainPath H p) (h : ¬Whited x p) (hy : x.find p = some y) :
    (asLower x base).view p = some y.content := by
  have hfold : x.find (H.foldPath p) = some y := by
    rw [x.find_congr (H.foldPath_foldPath p), hy]
  rw [view_asLower hplain, findInLowers_probed hplain.ne_nil h, hy]
  simp [contentOf, treeOf, asLower, hfold]

theorem view_asLower_base (hplain : PlainPath H p) (hop : NoOpaqueMarker x) (hb : Clean base)
    (h : ¬Whited x p) (hx : x.find p = none) (hblocked : ¬Blocked x p.dropLast) :
    (asLower x base).view p = (base.find p).map HostEntry.content := by
  rw [view_asLower hplain, findInLowers_probed hplain.ne_nil h, hx,
    (lowersBelow_ofHost hop p.dropLast).mpr hblocked]
  exact contentOf_base hb rfl hplain.ne_nil

/-- A path that the base does not have is not shown where the tree does not have it. -/
theorem view_asLower_none (hplain : PlainPath H p) (hb : Clean base) (hx : x.find p = none)
    (hbase : base.find p = none) : (asLower x base).view p = none := by
  by_cases h : Whited x p
  · exact view_asLower_whited hplain h
  · rw [view_asLower hplain, findInLowers_probed hplain.ne_nil h, hx]
    simp only
    split
    · rfl
    · have hbelow := contentOf_base (m := asLower x base) (i := 1) hb rfl hplain.ne_nil
      rw [hbase] at hbelow
      exact hbelow

theorem view_asUpper_own (hplain : PlainPath H p) (hy : x.find p = some y) :
    (asUpper x base).view p = some y.content := by
  have hupper : (asUpper x base).upper.find p = some y := hy
  rw [view_of_plain hplain, hupper]

theorem view_asUpper_base (hplain : PlainPath H p) (hop : NoOpaqueMarker x) (hb : Clean base)
    (h : ¬Whited x p) (hx : x.find p = none) (hblocked : ¬Blocked x p.dropLast) :
    (asUpper x base).view p = (base.find p).map HostEntry.content := by
  have hupper : (asUpper x base).upper.find p = none := hx
  have hhide : hidingInUpper (asUpper x base).config (H.foldPath p) = .none :=
    (hidingInUpper_eq_none_iff hplain.ne_nil hop).mpr ⟨h, hblocked⟩
  rw [view_of_plain hplain, hupper, hhide]
  exact contentOf_base hb rfl hplain.ne_nil

theorem view_asUpper_whited (hplain : PlainPath H p) (hop : NoOpaqueMarker x) (h : Whited x p)
    (hx : x.find p = none) : (asUpper x base).view p = none := by
  have hupper : (asUpper x base).upper.find p = none := hx
  have hhide : hidingInUpper (asUpper x base).config (H.foldPath p) ≠ .none := by
    intro hnone
    exact ((hidingInUpper_eq_none_iff hplain.ne_nil hop).mp hnone).1 h
  rw [view_of_plain hplain, hupper]
  cases hcase : hidingInUpper (asUpper x base).config (H.foldPath p) with
  | none => exact absurd hcase hhide
  | whiteout => rfl
  | opaqueMarker => rfl
  | nonDirectoryOrLink => rfl

theorem view_asUpper_none (hplain : PlainPath H p) (hb : Clean base) (hx : x.find p = none)
    (hbase : base.find p = none) : (asUpper x base).view p = none := by
  have hupper : (asUpper x base).upper.find p = none := hx
  rw [view_of_plain hplain, hupper]
  cases hcase : hidingInUpper (asUpper x base).config (H.foldPath p) with
  | none =>
    have hbelow := contentOf_base (m := asUpper x base) (i := 0) hb rfl hplain.ne_nil
    rw [hbase] at hbelow
    exact hbelow
  | whiteout => rfl
  | opaqueMarker => rfl
  | nonDirectoryOrLink => rfl

end HostMount

/-! ## The laws -/

/-- A file of the source that has the size and the time of the file of the base at its path
has its content. -/
def SameContents (source base : HostDir H) : Prop :=
  ∀ e ∈ source.entries, ∀ b ∈ base.entries, H.foldPath b.path = H.foldPath e.path →
    e.isDirectory = false → SameAs e b → b.content = e.content

/-- The mount shows exactly the paths, the kinds and the contents of the tree. -/
def HostMount.Shows (m : HostMount H) (source : HostDir H) : Prop :=
  ∀ p, m.view p = (source.find p).map HostEntry.content

section Laws

variable {source base x : HostDir H} {e b y : HostEntry} {p : RelPath}

theorem mem_deletedOf_of_clean (hs : Clean source) (hb : Clean base) :
    b ∈ deletedOf source base ↔
      b ∈ base.entries ∧ ∀ e ∈ source.entries, lowerPath e.path ≠ lowerPath b.path := by
  rw [mem_deletedOf_iff, hs.scannedEntries, hb.scannedEntries]

/-- What the source does not have and the base does is whited out. -/
theorem Extracted.whited_of_base (h : Extracted source base x) (hs : Clean source) (hb : Clean base)
    (hsource : source.find p = none) (hbase : base.find p = some b) : Whited x p := by
  obtain ⟨hmem, hpath⟩ := HostDir.find_eq_some.mp hbase
  rw [h.whited_iff hs hb]
  refine ⟨b, (mem_deletedOf_of_clean hs hb).mpr ⟨hmem, ?_⟩, by rw [hpath]⟩
  intro e he hlower
  rw [HostDir.find_eq_none] at hsource
  exact hsource e he ((foldPath_of_lowerPath hlower).trans hpath)

/-- What both the source and the unpacked tree have is the same. -/
theorem Extracted.content_eq (h : Extracted source base x) (hs : Clean source)
    (he : source.find p = some e) (hy : x.find p = some y) : y.content = e.content := by
  obtain ⟨hemem, hepath⟩ := HostDir.find_eq_some.mp he
  rcases h.cases hy with ⟨e', he', hcontent⟩ | ⟨b, hbmem, heq⟩ | ⟨b, hbmem, habove, hydir⟩
  · rw [he] at he'
    rw [hcontent, Option.some.inj he']
  · exact absurd (hs.plainPath he) (not_plain_of_marker (ok_of_mem_deletedOf hbmem) heq)
  · -- The base has a directory here, so a file of the source would be a changed entry.
    have hybasedir : base.HasDir p := by
      apply HostDir.hasDir_of_above (mem_of_mem_deletedOf hbmem)
      · rw [H.foldPath_dropLast] at habove
        exact habove.trans (List.dropLast_prefix _)
      · intro heq
        have hlength := habove.length_le
        have hpos := List.length_pos_iff.mpr (ok_of_mem_deletedOf hbmem).ne_nil
        rw [heq, H.length_foldPath, H.length_foldPath, List.length_dropLast] at hlength
        omega
    have hedir : e.isDirectory = true := by
      by_contra hefile
      rw [Bool.not_eq_true] at hefile
      have hchanged : e ∈ changedOf source base := by
        rw [mem_changedOf_iff, hs.scannedEntries]
        refine ⟨hemem, ?_⟩
        intro b' hb' hlower hsame
        have hb'find : base.find p = some b' := HostDir.find_eq_some.mpr
          ⟨mem_of_mem_scannedEntries hb', (foldPath_of_lowerPath hlower).trans hepath⟩
        apply HostDir.not_hasDir_of_file hb'find _ hybasedir
        rw [hsame.kind, hefile]
      obtain ⟨y', hy', hkind⟩ := h.changed hs hchanged
      rw [x.find_congr hepath, hy] at hy'
      rw [← Option.some.inj hy', hydir, hefile] at hkind
      cases hkind
    rw [Option.isNone_iff_eq_none.mp hydir, Option.isNone_iff_eq_none.mp hedir]

/-- What the source has and the unpacked tree does not, the base has. -/
theorem Extracted.base_of_source (h : Extracted source base x) (hs : Clean source) (hb : Clean base)
    (hsame : SameContents source base) (he : source.find p = some e) (hx : x.find p = none) :
    ∃ b, base.find p = some b ∧ lowerPath b.path = lowerPath e.path ∧ b.content = e.content := by
  obtain ⟨hemem, hepath⟩ := HostDir.find_eq_some.mp he
  have hunchanged : e ∉ changedOf source base := by
    intro hchanged
    obtain ⟨y, hy, _⟩ := h.changed hs hchanged
    rw [x.find_congr hepath, hx] at hy
    cases hy
  rw [mem_changedOf_iff, hs.scannedEntries, hb.scannedEntries] at hunchanged
  have hexists : ∃ b ∈ base.entries, lowerPath b.path = lowerPath e.path ∧ SameAs e b := by
    by_contra hnone
    apply hunchanged
    refine ⟨hemem, ?_⟩
    intro b hbmem hlower hsameAs
    exact hnone ⟨b, hbmem, hlower, hsameAs⟩
  obtain ⟨b, hbmem, hlower, hsameAs⟩ := hexists
  have hpath : H.foldPath b.path = H.foldPath e.path := foldPath_of_lowerPath hlower
  refine ⟨b, HostDir.find_eq_some.mpr ⟨hbmem, hpath.trans hepath⟩, hlower, ?_⟩
  cases hdir : e.isDirectory with
  | false => exact hsame e hemem b hbmem hpath hdir hsameAs
  | true =>
    have hbdir : b.isDirectory = true := hsameAs.kind.trans hdir
    rw [Option.isNone_iff_eq_none.mp hdir, Option.isNone_iff_eq_none.mp hbdir]

/-- What the unpacked tree has and the source does not is a directory above a marker. -/
theorem Extracted.above_of_not_source (h : Extracted source base x)
    (hplain : HostMount.PlainPath H p) (hsource : source.find p = none)
    (hy : x.find p = some y) :
    ∃ b ∈ deletedOf source base, H.foldPath p <+: H.foldPath b.path.dropLast := by
  rcases h.cases hy with ⟨e, he, _⟩ | ⟨b, hbmem, heq⟩ | ⟨b, hbmem, habove, _⟩
  · rw [hsource] at he
    cases he
  · exact absurd hplain (not_plain_of_marker (ok_of_mem_deletedOf hbmem) heq)
  · exact ⟨b, hbmem, habove⟩

/-- The part of an entry's path is the path of an entry. -/
theorem HostDir.exists_take {t : HostDir H} (he : e ∈ t.entries) {k : Nat} (hk : 0 < k) :
    ∃ c ∈ t.entries, c.path = e.path.take k := by
  induction hlength : e.path.length generalizing e with
  | zero => exact absurd (List.eq_nil_of_length_eq_zero hlength) (t.ok e he).ne_nil
  | succ n ih =>
    by_cases hle : e.path.length ≤ k
    · exact ⟨e, he, (List.take_of_length_le hle).symm⟩
    · rcases t.rooted.parentIn e he with hroot | ⟨d, hd, hdpath, _⟩
      · have hdrop := congrArg List.length hroot
        rw [List.length_dropLast, List.length_nil] at hdrop
        omega
      · obtain ⟨c, hc, hcpath⟩ := ih hd (by rw [hdpath, List.length_dropLast, hlength]; omega)
        refine ⟨c, hc, ?_⟩
        rw [hcpath, hdpath, List.dropLast_eq_take, List.take_take]
        congr 1
        omega

end Laws

end LayerMount
