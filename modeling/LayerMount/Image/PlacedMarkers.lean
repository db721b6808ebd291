import LayerMount.Image.Placed

/-!
# Room for the markers

The markers of a differential image come after its other entries.  A marker is written as a
file beside the deleted entry, so an unpack needs a directory there and no directory at the
marker's own path.  `MarkerFits` says when it has both, and `placeMarkers_iff` that this is
exactly when the unpack succeeds.
-/

namespace LayerMount

open Lib

variable {H : Host}

/-- The path of the marker of a deleted entry. -/
def markerPath (b : HostEntry) : RelPath := getWhiteoutFileName b.path

/-- The marker of `b` finds room among the changed entries and the other markers. -/
structure MarkerFits (H : Host) (changed deleted : List HostEntry) (b : HostEntry) : Prop where
  /-- The marker's name is no longer than the host allows. -/
  name : (encodeUtf16 (b.path.getLastD [])).length ≤ 251
  /-- No file is where the marker's directory has to be. -/
  noFileAbove : ∀ e ∈ changed, skipsPath H e.path = false → e.isDirectory = false →
    ¬H.foldPath e.path <+: H.foldPath b.path.dropLast
  noMarkerAbove : ∀ b' ∈ deleted, skipsPath H (markerPath b') = false →
    ¬H.foldPath (markerPath b') <+: H.foldPath b.path.dropLast
  /-- What is at the marker's path is a file that can be replaced. -/
  place : ∀ e ∈ changed, skipsPath H e.path = false →
    H.foldPath (markerPath b) <+: H.foldPath e.path →
    H.foldPath (markerPath b) = H.foldPath e.path ∧ e.isDirectory = false ∧
      e.attributes &&& kUnwritableAttributes = 0

def MarkersFit (H : Host) (changed deleted : List HostEntry) : Prop :=
  ∀ b ∈ deleted, skipsPath H (markerPath b) = false → MarkerFits H changed deleted b

theorem markerPath_of_snoc {b : HostEntry} {d : RelPath} {n : Name} (h : b.path = d ++ [n]) :
    markerPath b = d ++ [whiteoutName n] := by
  rw [markerPath, h, getWhiteoutFileName_append]

theorem foldPath_markerPath_inj {b b' : HostEntry} (hb : b.Ok) (hb' : b'.Ok)
    (h : H.foldPath (markerPath b) = H.foldPath (markerPath b')) :
    H.foldPath b.path = H.foldPath b'.path := by
  obtain ⟨d, n, hpath⟩ := hb.exists_snoc
  obtain ⟨d', n', hpath'⟩ := hb'.exists_snoc
  rw [markerPath_of_snoc hpath, markerPath_of_snoc hpath', H.foldPath_append, H.foldPath_append,
    H.foldPath_singleton, H.foldPath_singleton] at h
  obtain ⟨hd, hn⟩ := List.append_inj' h rfl
  rw [H.foldName_whiteoutName, H.foldName_whiteoutName] at hn
  have hname := whiteoutName_injective (List.cons.inj hn).1
  rw [hpath, hpath', H.foldPath_append, H.foldPath_append, hd, H.foldPath_singleton,
    H.foldPath_singleton, hname]

theorem storedAttributes_unwritable (a : UInt32) :
    storedAttributes a &&& kUnwritableAttributes = a &&& kUnwritableAttributes := by
  have hmask : kSettableAttributes &&& kUnwritableAttributes = kUnwritableAttributes := by decide
  have hsame : a &&& kUnwritableAttributes = a &&& kSettableAttributes &&& kUnwritableAttributes := by
    rw [UInt32.and_assoc, hmask]
  rw [hsame]
  unfold storedAttributes
  split
  · rename_i hzero
    rw [hzero]
    decide
  · rfl

theorem nameOk_whiteoutName {n : Name} (h : nameOk n = true) (hlength : (encodeUtf16 n).length ≤ 251) :
    nameOk (whiteoutName n) = true := by
  have hunits : (encodeUtf16 (whiteoutName n)).length = 4 + (encodeUtf16 n).length := by
    rw [whiteoutName, encodeUtf16_append, List.length_append]
    rfl
  have hname := (archiveName_of_nameOk h).whiteoutName
  simp only [nameOk, Bool.and_eq_true, decide_eq_true_eq, Bool.not_eq_true', List.all_eq_true,
    ne_eq] at h ⊢
  refine ⟨⟨⟨⟨?_, hname.ne_dot⟩, hname.ne_dots⟩, by omega⟩, ?_⟩
  · simp [whiteoutName, kWhiteoutPrefix]
  · intro c hc
    rcases List.mem_append.mp hc with hpre | hn
    · simp only [kWhiteoutPrefix, List.mem_cons, List.not_mem_nil, or_false] at hpre
      rcases hpre with rfl | rfl | rfl | rfl <;> decide
    · exact h.2 c hn

theorem isFile_markerItem (p : RelPath) : (markerItem p).isFile = true := rfl

theorem markerItem_path (b : HostEntry) : (markerItem b.path).path = markerPath b := rfl

/-- A directory is above every path below it, whatever the case. -/
theorem HostDir.HasDir.of_foldPath {t : HostDir H} {d p : RelPath} (h : t.HasDir d)
    (hpre : H.foldPath p <+: H.foldPath d) : t.HasDir p := by
  rcases h with rfl | ⟨x, hx, hdir⟩
  · rw [H.foldPath_nil, List.prefix_nil, H.foldPath_eq_nil] at hpre
    exact Or.inl hpre
  · obtain ⟨hmem, hpath⟩ := HostDir.find_eq_some.mp hx
    by_cases heq : H.foldPath p = H.foldPath d
    · exact Or.inr ⟨x, by rw [t.find_congr heq, hx], hdir⟩
    · exact HostDir.hasDir_of_above hmem (hpath ▸ hpre) fun h => heq (h.trans hpath)

theorem HostDir.not_hasDir_of_file {t : HostDir H} {p : RelPath} {x : HostEntry}
    (hx : t.find p = some x) (hfile : x.isDirectory = false) : ¬t.HasDir p := by
  rintro (rfl | ⟨y, hy, hydir⟩)
  · rw [HostDir.find_nil] at hx
    cases hx
  · rw [hx] at hy
    rw [Option.some.inj hy, hydir] at hfile
    cases hfile

/-! ## Markers that fit -/

section Markers

variable {changed deleted done : List HostEntry} {t t' : HostDir H} {b : HostEntry}

/-- What an unpack of the changed entries and some markers has placed. -/
def PlacedWith (changed done : List HostEntry) (t : HostDir H) : Prop :=
  Placed (changed.map itemOf ++ done.map fun b => markerItem b.path) t

theorem mem_items {i : ArchiveItem}
    (h : i ∈ changed.map itemOf ++ done.map fun b => markerItem b.path) :
    (∃ e ∈ changed, i = itemOf e) ∨ ∃ b ∈ done, i = markerItem b.path := by
  rcases List.mem_append.mp h with h | h
  · obtain ⟨e, he, rfl⟩ := List.mem_map.mp h
    exact Or.inl ⟨e, he, rfl⟩
  · obtain ⟨b, hb, rfl⟩ := List.mem_map.mp h
    exact Or.inr ⟨b, hb, rfl⟩

/-- What is on the way to a marker that fits is a directory. -/
theorem MarkerFits.isDirectory_above (hfit : MarkerFits H changed deleted b)
    (hdone : ∀ x ∈ done, x ∈ deleted) (h : PlacedWith changed done t) {q : RelPath}
    (hq : H.foldPath q <+: H.foldPath b.path.dropLast) {x : HostEntry} (hx : t.find q = some x) :
    x.isDirectory = true := by
  obtain ⟨hmem, hxq⟩ := HostDir.find_eq_some.mp hx
  obtain ⟨i, hi, hskip, hfrom⟩ := h.sourced x hmem
  cases hfrom with
  | directory hxdir _ _ => exact hxdir
  | file hfile hpath _ _ =>
    have hpre : H.foldPath i.path <+: H.foldPath b.path.dropLast := by
      rw [← hpath, hxq]
      exact hq
    rcases mem_items hi with ⟨e, he, rfl⟩ | ⟨b', hb', rfl⟩
    · rw [isFile_itemOf, Bool.not_eq_true'] at hfile
      exact absurd hpre (hfit.noFileAbove e he hskip hfile)
    · exact absurd hpre (hfit.noMarkerAbove b' (hdone b' hb') hskip)

/-- What is at the path of a marker that fits can be replaced. -/
theorem MarkersFit.replaceable (hfits : MarkersFit H changed deleted) (hb : b ∈ deleted)
    (hskip : skipsPath H (markerPath b) = false) (hok : ∀ x ∈ deleted, x.Ok)
    (hdone : ∀ x ∈ done, x ∈ deleted) (h : PlacedWith changed done t) {old : HostEntry}
    (hold : t.find (markerPath b) = some old) :
    old.isDirectory = false ∧ old.attributes &&& kUnwritableAttributes = 0 := by
  obtain ⟨hmem, hpath⟩ := HostDir.find_eq_some.mp hold
  obtain ⟨i, hi, hiskip, hfrom⟩ := h.sourced old hmem
  rcases mem_items hi with ⟨e, he, rfl⟩ | ⟨b', hb', rfl⟩
  · have hplace := (hfits b hb hskip).place e he hiskip
    cases hfrom with
    | file hfile heq hcontent hattr =>
      obtain ⟨_, _, hwritable⟩ := hplace (by rw [← hpath, heq]; exact List.prefix_rfl)
      refine ⟨by rw [HostEntry.isDirectory, hcontent]; rfl, ?_⟩
      rw [hattr, storedAttributes_unwritable]
      exact hwritable
    | directory hdir hpre hproper =>
      rw [hpath] at hpre hproper
      obtain ⟨heq, hfile, _⟩ := hplace hpre
      exact absurd heq (hproper (by simp [hfile]))
  · cases hfrom with
    | file hfile heq hcontent hattr =>
      refine ⟨by rw [HostEntry.isDirectory, hcontent]; rfl, ?_⟩
      rw [hattr]
      show storedAttributes kFileAttributeNormal &&& kUnwritableAttributes = 0
      decide
    | directory hdir hpre hproper =>
      -- The directory would be above the marker of another entry.
      rw [hpath] at hpre hproper
      rw [markerItem_path] at hpre hproper hiskip
      have hfit := hfits b' (hdone b' hb') hiskip
      obtain ⟨d, n, hb'path⟩ := (hok b' (hdone b' hb')).exists_snoc
      have habove : H.foldPath (markerPath b) <+: H.foldPath b'.path.dropLast := by
        rw [hb'path, List.dropLast_concat]
        rw [markerPath_of_snoc hb'path, H.foldPath_append, H.foldPath_singleton] at hpre hproper
        rcases List.prefix_concat_iff.mp hpre with heq | hpre
        · exact absurd heq (hproper rfl)
        · exact hpre
      exact absurd habove (hfit.noMarkerAbove b hb hskip)

/-- One marker is placed. -/
theorem MarkersFit.placeItem_ok (hfits : MarkersFit H changed deleted) (hb : b ∈ deleted)
    (hok : ∀ x ∈ deleted, x.Ok) (hdone : ∀ x ∈ done, x ∈ deleted)
    (h : PlacedWith changed done t) : ∃ t', placeItem t (markerItem b.path) = .ok t' := by
  cases hskip : skipsPath H (markerPath b) with
  | true => exact ⟨t, if_pos hskip⟩
  | false =>
    have hfit := hfits b hb hskip
    obtain ⟨d, n, hpath⟩ := (hok b hb).exists_snoc
    have hmarker := markerPath_of_snoc hpath
    have hdrop : b.path.dropLast = d := by rw [hpath, List.dropLast_concat]
    have hlast : b.path.getLastD [] = n := by simp [hpath]
    have hnames := (hok b hb).names
    rw [placeItem_file hmarker hskip (isFile_markerItem b.path)]
    apply HostDir.writeFile_ok
    · apply HostDir.createDirectories_makes
      · intro m hm
        exact hnames m (hpath ▸ List.mem_append_left _ hm)
      · intro q x hq hx
        apply hfit.isDirectory_above hdone h _ hx
        rw [hdrop]
        exact hq.map H.foldName
    · apply nameOk_whiteoutName (hnames n (by simp [hpath]))
      have hname := hfit.name
      rwa [hlast] at hname
    · exact Nat.two_pow_pos 63
    · apply H.timeAfterSet_ok
      show (0 : UInt64).toNat < 2 ^ 63
      decide
    · intro old hold
      rcases HostDir.find_createDirectories_new hold with hfind | ⟨hpre, _⟩
      · rw [← hmarker] at hfind
        exact hfits.replaceable hb hskip hok hdone h hfind
      · have hlength := hpre.length_le
        rw [H.length_foldPath, H.length_foldPath, List.length_append, List.length_singleton]
          at hlength
        omega

theorem MarkersFit.placeItems_ok (hfits : MarkersFit H changed deleted)
    (hok : ∀ x ∈ deleted, x.Ok) {rest : List HostEntry} (hrest : ∀ x ∈ done ++ rest, x ∈ deleted)
    (h : PlacedWith changed done t) :
    ∃ t', placeItems (rest.map fun b => markerItem b.path) t = .ok t' := by
  induction rest generalizing done t with
  | nil => exact ⟨t, rfl⟩
  | cons b rest ih =>
    have hdone : ∀ x ∈ done, x ∈ deleted := fun x hx => hrest x (List.mem_append_left _ hx)
    have hb : b ∈ deleted := hrest b (by simp)
    obtain ⟨t₁, hplace⟩ := hfits.placeItem_ok hb hok hdone h
    have hnext : PlacedWith changed (done ++ [b]) t₁ := by
      have hsnoc := h.snoc (by simp [markerItem, getWhiteoutFileName]) hplace
      rw [List.append_assoc] at hsnoc
      rw [PlacedWith, List.map_append]
      exact hsnoc
    have hlater : ∀ x ∈ (done ++ [b]) ++ rest, x ∈ deleted := by simpa using hrest
    obtain ⟨t', hrun⟩ := ih hlater hnext
    refine ⟨t', ?_⟩
    rw [List.map_cons, placeItems, List.foldlM_cons, hplace]
    exact hrun

/-! ## Markers that were placed -/

/-- An entry stays as it is while no item of its path is placed. -/
theorem placeItems_find_of_ne {items : List ArchiveItem} (hne : ∀ i ∈ items, i.path ≠ [])
    {p : RelPath} (hother : ∀ i ∈ items, H.foldPath i.path ≠ H.foldPath p) {x : HostEntry}
    (hx : t.find p = some x) (hrun : placeItems items t = .ok t') : t'.find p = some x := by
  induction items generalizing t with
  | nil =>
    rw [← Except.ok.inj hrun]
    exact hx
  | cons i items ih =>
    rw [placeItems, List.foldlM_cons] at hrun
    cases hplace : placeItem t i with
    | error e =>
      rw [hplace] at hrun
      cases hrun
    | ok t₁ =>
      rw [hplace] at hrun
      refine ih (fun j hj => hne j (List.mem_cons_of_mem _ hj))
        (fun j hj => hother j (List.mem_cons_of_mem _ hj)) ?_ hrun
      cases hskip : skipsPath H i.path with
      | true =>
        rw [placeItem, hskip, if_pos rfl] at hplace
        rw [← Except.ok.inj hplace]
        exact hx
      | false =>
        cases hfile : i.isFile with
        | false =>
          rw [placeItem_directory hskip hfile] at hplace
          rw [← Except.ok.inj hplace]
          exact HostDir.find_createDirectories_of_some hx
        | true =>
          obtain ⟨d, n, hpath⟩ := (List.eq_nil_or_concat i.path).resolve_left (hne i (by simp))
          rw [List.concat_eq_append] at hpath
          rw [placeItem_file hpath hskip hfile] at hplace
          have hwrote := HostDir.wrote_of_writeFile hplace
          rw [hwrote.others p fun heq => hother i (by simp) (by rw [hpath, heq])]
          exact HostDir.find_createDirectories_of_some hx

theorem placeItems_append {xs ys : List ArchiveItem} :
    placeItems (xs ++ ys) t = placeItems xs t >>= placeItems ys := by
  rw [placeItems, List.foldlM_append]
  rfl

/-- A marker that was placed has a directory above it, and a name the host takes. -/
theorem PlacedWith.marker (h : PlacedWith changed deleted t) (hb : b ∈ deleted) (hok : b.Ok)
    (hskip : skipsPath H (markerPath b) = false) :
    (∃ x, t.find (markerPath b) = some x ∧ x.isDirectory = false) ∧ t.HasDir b.path.dropLast ∧
      (encodeUtf16 (b.path.getLastD [])).length ≤ 251 := by
  have hmem : markerItem b.path ∈ changed.map itemOf ++ deleted.map fun b => markerItem b.path :=
    List.mem_append_right _ (List.mem_map_of_mem (f := fun b => markerItem b.path) hb)
  obtain ⟨x, hx, hfile⟩ := h.files _ hmem hskip rfl
  rw [markerItem_path] at hx
  refine ⟨⟨x, hx, hfile⟩, ?_⟩
  obtain ⟨d, n, hpath⟩ := hok.exists_snoc
  obtain ⟨hxmem, hxpath⟩ := HostDir.find_eq_some.mp hx
  obtain ⟨d', n', hxsnoc⟩ := (t.ok x hxmem).exists_snoc
  rw [markerPath_of_snoc hpath] at hx hxpath
  rw [hpath, List.dropLast_concat]
  refine ⟨HostDir.find_parent hx, ?_⟩
  rw [hxsnoc, H.foldPath_append, H.foldPath_append, H.foldPath_singleton, H.foldPath_singleton]
    at hxpath
  have hname := (List.cons.inj (List.append_inj' hxpath rfl).2).1
  have hlength : (encodeUtf16 n').length = 4 + (encodeUtf16 n).length := by
    rw [← H.length_encodeUtf16_foldName n', hname, H.length_encodeUtf16_foldName, whiteoutName,
      encodeUtf16_append, List.length_append]
    rfl
  have hnameOk := (t.ok x hxmem).names n' (by simp [hxsnoc])
  simp only [nameOk, Bool.and_eq_true, decide_eq_true_eq] at hnameOk
  have hlast : (d ++ [n]).getLastD [] = n := by simp
  rw [hlast]
  omega

/-- A file that is placed over one from before the markers replaces a file that can be
replaced. -/
theorem writable_of_placed {source : HostDir H} (hsource : ∀ e ∈ changed, e ∈ source.entries)
    (h : Placed (changed.map itemOf) t)
    (hdistinct : (deleted.map fun b => H.foldPath b.path).Nodup) (hok : ∀ x ∈ deleted, x.Ok)
    (hrun : placeItems (deleted.map fun b => markerItem b.path) t = .ok t') (hb : b ∈ deleted)
    (hskip : skipsPath H (markerPath b) = false) {e : HostEntry} (he : e ∈ changed)
    (heskip : skipsPath H e.path = false) (hfile : e.isDirectory = false)
    (heq : H.foldPath (markerPath b) = H.foldPath e.path) :
    e.attributes &&& kUnwritableAttributes = 0 := by
  obtain ⟨x, hx, hxfile⟩ := h.files (itemOf e) (List.mem_map_of_mem he) heskip (by simp [hfile])
  have hxattr : x.attributes = storedAttributes e.attributes := by
    obtain ⟨hmem, hxpath⟩ := HostDir.find_eq_some.mp hx
    obtain ⟨i, hi, hiskip, hfrom⟩ := h.sourced x hmem
    obtain ⟨e', he', rfl⟩ := List.mem_map.mp hi
    cases hfrom with
    | file _ hpath _ hattr =>
      have hsame := HostDir.eq_of_foldPath (hsource e he) (hsource e' he') (hpath.symm.trans hxpath)
      rw [hattr, hsame]
      rfl
    | directory hdir _ _ =>
      rw [hdir] at hxfile
      cases hxfile
  obtain ⟨before, after, hsplit⟩ := List.append_of_mem hb
  have hother : ∀ i ∈ before.map fun b => markerItem b.path,
      H.foldPath i.path ≠ H.foldPath (markerPath b) := by
    intro i hi hsame
    obtain ⟨b', hb', rfl⟩ := List.mem_map.mp hi
    have hb'mem : b' ∈ deleted := hsplit ▸ List.mem_append_left _ hb'
    have hpaths := foldPath_markerPath_inj (hok b' hb'mem) (hok b hb) hsame
    rw [hsplit, List.map_append, List.nodup_append] at hdistinct
    exact hdistinct.2.2 _ (List.mem_map_of_mem hb') _ (by simp) hpaths
  rw [hsplit, List.map_append, placeItems_append] at hrun
  cases hbefore : placeItems (before.map fun b => markerItem b.path) t with
  | error err =>
    rw [hbefore] at hrun
    cases hrun
  | ok t₁ =>
    rw [hbefore, List.map_cons] at hrun
    have hx₁ : t₁.find (markerPath b) = some x := by
      refine placeItems_find_of_ne ?_ hother ?_ hbefore
      · intro i hi
        obtain ⟨b', hb', rfl⟩ := List.mem_map.mp hi
        simp [markerItem, getWhiteoutFileName]
      · rw [t.find_congr heq]
        exact hx
    have hrun₁ : placeItem t₁ (markerItem b.path) >>=
        placeItems (after.map fun b => markerItem b.path) = .ok t' := hrun
    cases hplace : placeItem t₁ (markerItem b.path) with
    | error err =>
      rw [hplace] at hrun₁
      cases hrun₁
    | ok t₂ =>
      obtain ⟨d, n, hpath⟩ := (hok b hb).exists_snoc
      have hmarker := markerPath_of_snoc hpath
      rw [placeItem_file hmarker hskip rfl] at hplace
      have hwritable := (HostDir.wrote_of_writeFile hplace).writable x (by
        rw [← hmarker]
        exact HostDir.find_createDirectories_of_some hx₁)
      rw [hxattr, storedAttributes_unwritable] at hwritable
      exact hwritable.2

/-- The markers are placed exactly when each finds room. -/
theorem placeMarkers_iff {source : HostDir H} (hsource : ∀ e ∈ changed, e ∈ source.entries)
    (h : Placed (changed.map itemOf) t) (hdirs : HoldsDirs H changed t)
    (hdistinct : (deleted.map fun b => H.foldPath b.path).Nodup) (hok : ∀ x ∈ deleted, x.Ok) :
    (∃ t', placeItems (deleted.map fun b => markerItem b.path) t = .ok t') ↔
      MarkersFit H changed deleted := by
  constructor
  · rintro ⟨t', hrun⟩ b hb hskip
    have hne : ∀ i ∈ deleted.map fun b => markerItem b.path, i.path ≠ [] := by
      intro i hi
      obtain ⟨b', hb', rfl⟩ := List.mem_map.mp hi
      simp [markerItem, getWhiteoutFileName]
    obtain ⟨hplaced, hkeeps⟩ := h.run hne hrun
    have hwith : PlacedWith changed deleted t' := hplaced
    obtain ⟨⟨x, hx, hxfile⟩, hdir, hname⟩ := hwith.marker hb (hok b hb) hskip
    refine ⟨hname, ?_, ?_, ?_⟩
    · intro e he heskip hefile hpre
      obtain ⟨y, hy, hyfile⟩ := hplaced.files (itemOf e)
        (List.mem_append_left _ (List.mem_map_of_mem he)) heskip (by simp [hefile])
      exact HostDir.not_hasDir_of_file hy hyfile (hdir.of_foldPath hpre)
    · intro b' hb' hb'skip hpre
      obtain ⟨⟨y, hy, hyfile⟩, _⟩ := hwith.marker hb' (hok b' hb') hb'skip
      exact HostDir.not_hasDir_of_file hy hyfile (hdir.of_foldPath hpre)
    · intro e he heskip hpre
      have hnot := HostDir.not_hasDir_of_file hx hxfile
      have hefile : e.isDirectory = false := by
        rw [← Bool.not_eq_true]
        intro hedir
        exact hnot ((hkeeps.hasDir (hdirs e he heskip hedir)).of_foldPath hpre)
      obtain ⟨y, hy, _⟩ := hplaced.files (itemOf e)
        (List.mem_append_left _ (List.mem_map_of_mem he)) heskip (by simp [hefile])
      obtain ⟨hymem, hypath⟩ := HostDir.find_eq_some.mp hy
      have heq : H.foldPath (markerPath b) = H.foldPath e.path := by
        by_contra hproper
        apply hnot
        apply HostDir.hasDir_of_above hymem
        · rw [hypath]
          exact hpre
        · rw [hypath]
          exact hproper
      exact ⟨heq, hefile, writable_of_placed hsource h hdistinct hok hrun hb hskip he heskip hefile
        heq⟩
  · intro hfits
    have hwith : PlacedWith changed [] t := by
      rw [PlacedWith, List.map_nil, List.append_nil]
      exact h
    exact hfits.placeItems_ok hok (fun x hx => hx) hwith

end Markers

end LayerMount
