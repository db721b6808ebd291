import LayerMount.Image.PackedArchive

/-!
# An unpack by paths

Which entries an unpack skips is a matter of the first name of their path alone
(`unpackSkipsEntry_relativeNameOf`): a name that exists in the target under another case
opens as the sidecar only where the entry's own name does.  `placeItem` is one turn of the
unpack on the path of an entry.
-/

namespace LayerMount

open Lib

variable {H : Host}

/-- The name as it opens: folded, without the dots and spaces at its end. -/
def openedName (H : Host) (n : Name) : Name := (H.foldName n).rdropWhile opensWithout

/-- The first name opens as the root sidecar or as its whiteout marker. -/
def skipsPath (H : Host) (p : RelPath) : Bool :=
  openedName H (p.headD []) = kSidecarDirName ||
    openedName H (p.headD []) = whiteoutName kSidecarDirName

theorem headD_splitOnP {α : Type} (p : α → Bool) (xs : List α) :
    (xs.splitOnP p).headD [] = xs.takeWhile (fun x => !p x) := by
  induction xs with
  | nil => rfl
  | cons x xs ih =>
    rw [List.splitOnP_cons_eq_if_modifyHead, List.takeWhile_cons]
    cases p x with
    | true => rfl
    | false =>
      cases hsplit : xs.splitOnP p with
      | nil => exact absurd hsplit (List.splitOnP_ne_nil p xs)
      | cons first rest =>
        rw [hsplit] at ih
        simpa using ih

theorem fold_eq_backslash {c : Char} :
    H.fold (if c = '/' then '\\' else c) = '\\' ↔ isSeparator c = true := by
  have hback : H.fold '\\' = '\\' := H.fold_ascii '\\' (by decide)
  constructor
  · intro h
    by_cases hc : c = '/'
    · rw [hc]
      rfl
    · rw [if_neg hc] at h
      have hsame := H.fold_punctuation c (Or.inr (Or.inr (Or.inl h)))
      rw [← hsame, h]
      rfl
  · intro h
    rw [isSeparator, Bool.or_eq_true, decide_eq_true_eq, decide_eq_true_eq] at h
    rcases h with rfl | rfl
    · rw [if_pos rfl, hback]
    · rw [if_neg (by decide), hback]

/-- The first segment that the unpacker compares is the first name of the whole text. -/
theorem firstSegmentAsOpened_eq {w : WideString} (hne : (pathOf w).headD [] ≠ []) :
    firstSegmentAsOpened H w = openedName H ((pathOf w).headD []) := by
  have hhead : (pathOf w).headD [] = (decodeUtf16 w).takeWhile fun c => !isSeparator c :=
    headD_splitOnP _ _
  have hdrop : ((decodeUtf16 w).map fun c => if c = '/' then '\\' else c).dropWhile (· = '\\')
      = (decodeUtf16 w).map fun c => if c = '/' then '\\' else c := by
    rw [hhead] at hne
    cases htext : decodeUtf16 w with
    | nil => rfl
    | cons c rest =>
      rw [htext, List.takeWhile_cons] at hne
      rw [List.map_cons, List.dropWhile_cons_of_neg]
      intro hc
      rw [decide_eq_true_eq] at hc
      have hsep : isSeparator c = true := by
        rw [← fold_eq_backslash (H := H), hc]
        exact H.fold_ascii '\\' (by decide)
      rw [hsep] at hne
      exact hne rfl
  unfold firstSegmentAsOpened openedName
  simp only [hdrop, hhead]
  congr 1
  rw [Host.foldName, Host.foldName, List.map_map, List.takeWhile_map]
  have htest : (fun x => decide (x ≠ '\\')) ∘ (H.fold ∘ fun c => if c = '/' then '\\' else c)
      = fun c => !isSeparator c := by
    funext c
    rw [Function.comp_apply, Function.comp_apply, Bool.eq_iff_iff, decide_eq_true_eq,
      Bool.not_eq_true', ne_eq, fold_eq_backslash, Bool.not_eq_true]
  rw [htest]
  apply List.map_congr_left
  intro c hc
  have hsep := List.mem_takeWhile_imp hc
  rw [Function.comp_apply, if_neg]
  rintro rfl
  exact absurd hsep (by decide)

theorem firstSegmentAsOpened_relativeNameOf {n : Name} {p : RelPath}
    (h : ∀ m ∈ n :: p, ArchiveName m) :
    firstSegmentAsOpened H (relativeNameOf (n :: p)) = openedName H n := by
  have hpath : pathOf (relativeNameOf (n :: p)) = n :: p :=
    pathOf_relativeNameOf (List.cons_ne_nil n p) h
  have hne : (pathOf (relativeNameOf (n :: p))).headD [] ≠ [] := by
    rw [hpath]
    exact (h n (by simp)).ne_nil
  rw [firstSegmentAsOpened_eq hne, hpath, List.headD_cons]

theorem foldName_openedName (n : Name) : H.foldName (openedName H n) = openedName H n := by
  have hchars : ∀ c ∈ openedName H n, H.fold c = c := by
    intro c hc
    have hmem : c ∈ H.foldName n := (List.rdropWhile_prefix opensWithout _).subset hc
    obtain ⟨x, _, rfl⟩ := List.mem_map.mp hmem
    exact H.fold_fold x
  rw [Host.foldName, List.map_congr_left (g := id) hchars, List.map_id]

theorem not_mem_nul_openedName {n : Name} (h : ArchiveName n) : '\x00' ∉ openedName H n := by
  intro hmem
  have hfold : '\x00' ∈ H.foldName n := (List.rdropWhile_prefix opensWithout _).subset hmem
  have hn := H.mem_nul_foldName.mp hfold
  exact (h.chars _ hn).1 rfl

/-- Whether an entry is skipped depends on the first name of its path. -/
theorem unpackSkipsEntry_relativeNameOf (t : HostDir H) {p : RelPath} (hne : p ≠ [])
    (h : ∀ m ∈ p, ArchiveName m) : unpackSkipsEntry t (relativeNameOf p) = skipsPath H p := by
  obtain ⟨n, p, rfl⟩ := List.exists_cons_of_ne_nil hne
  unfold unpackSkipsEntry skipsPath
  obtain ⟨seg, hseg⟩ : ∃ seg, openedName H n = seg := ⟨_, rfl⟩
  simp only [firstSegmentAsOpened_relativeNameOf h, List.headD_cons, isRootSidecarPath,
    List.head?_cons, Option.some.injEq, hseg]
  by_cases hempty : seg.isEmpty = true
  · rw [if_pos hempty, List.isEmpty_iff.mp hempty]
    rfl
  rw [if_neg hempty]
  by_cases hside : seg = kSidecarDirName
  · simp [hside]
  by_cases hwh : seg = whiteoutName kSidecarDirName
  · simp [hwh]
  have hmarker : (isWhiteoutName seg && decide (getWhitedOutName seg = kSidecarDirName)) = false := by
    rw [Bool.and_eq_false_iff, decide_eq_false_iff_not, ← Bool.not_eq_true, ← not_and_or]
    rintro ⟨hpre, hout⟩
    apply hwh
    rw [← hout, whiteoutName_getWhitedOutName hpre]
  simp only [hside, decide_false, Bool.false_eq_true, if_false, hmarker, hwh, Bool.or_self]
  cases hfind : existingLongName t seg with
  | none => rfl
  | some longName =>
    have hnul : '\x00' ∉ seg := hseg ▸ not_mem_nul_openedName (h n (by simp))
    rw [existingLongName, cutAtNul_of_not_mem hnul] at hfind
    obtain ⟨e, he, rfl⟩ := Option.map_eq_some_iff.mp hfind
    obtain ⟨hmem, hpath⟩ := HostDir.find_eq_some.mp he
    have hlength : e.path.length = 1 := by
      have hlen := congrArg List.length hpath
      simpa using hlen
    obtain ⟨m, hm⟩ := List.length_eq_one_iff.mp hlength
    have hfold : H.foldName m = seg := by
      rw [hm] at hpath
      simp only [Host.foldPath_singleton, List.cons.injEq, and_true] at hpath
      rw [hpath, ← hseg, foldName_openedName]
    have hnames : ∀ x ∈ [m], ArchiveName x := by
      intro x hx
      rw [← hm] at hx
      exact (t.ok e hmem).archiveNames x hx
    have hlast : encodeUtf16 (e.path.getLastD []) = relativeNameOf [m] := by
      simp [hm, relativeNameOf, joinPath]
    have hopened : openedName H m = seg := by
      rw [openedName, hfold, ← hseg, openedName, List.rdropWhile_idempotent]
    simp only [firstSegmentOpensAsSidecar, hlast, firstSegmentAsOpened_relativeNameOf hnames,
      hopened, isRootSidecarPath, List.head?_cons, Option.some.injEq, hside, decide_false]

/-- Whether a scan steps past an entry of a tree. -/
theorem scannedEntries_eq (t : HostDir H) :
    scannedEntries t
      = t.entries.filter fun e => decide (openedName H (e.path.headD []) ≠ kSidecarDirName) := by
  apply List.filter_congr
  intro e he
  obtain ⟨n, p, hpath⟩ := List.exists_cons_of_ne_nil (t.ok e he).ne_nil
  have hname : ∀ m ∈ [n], ArchiveName m := by
    intro m hm
    rw [List.mem_singleton.mp hm]
    exact (t.ok e he).archiveNames n (by simp [hpath])
  have htext : encodeUtf16 n = relativeNameOf [n] := by simp [relativeNameOf, joinPath]
  simp [hpath, htext, firstSegmentOpensAsSidecar, firstSegmentAsOpened_relativeNameOf hname,
    isRootSidecarPath]

/-! ## One turn -/

/-- One turn of the unpack on the tree. -/
def placeItem (t : HostDir H) (i : ArchiveItem) : Except Win32Error (HostDir H) :=
  if skipsPath H i.path then .ok t
  else if i.header.isDirectory ≠ 0 then .ok (t.createDirectories i.path)
  else writeExtractedFile t i.path i.header i.data

/-- The whiteout entries that a turn adds. -/
def whiteoutsOf (H : Host) (i : ArchiveItem) : List WideString :=
  if !skipsPath H i.path && i.header.isDirectory = 0 && i.header.isWhiteout ≠ 0 then
    [relativeNameOf i.path]
  else []

def placeItems (items : List ArchiveItem) (t : HostDir H) : Except Win32Error (HostDir H) :=
  items.foldlM placeItem t

theorem extractEntry_entry {i : ArchiveItem} (hne : i.path ≠ []) (h : ∀ n ∈ i.path, ArchiveName n)
    (u : Unpacked H) :
    extractEntry u i.entry
      = (placeItem u.tree i).map fun t => ⟨t, u.extractedWhiteouts ++ whiteoutsOf H i⟩ := by
  have hskip := unpackSkipsEntry_relativeNameOf u.tree hne h
  unfold extractEntry placeItem whiteoutsOf
  simp only [ArchiveItem.entry, hskip, pathOf_relativeNameOf hne h]
  by_cases hs : skipsPath H i.path = true
  · simp [hs, Except.map]
  · by_cases hd : i.header.isDirectory = 0
    · cases hwrite : writeExtractedFile u.tree i.path
        { i.header with nameLength := UInt16.ofNat (encodeUtf8 (joinPath i.path)).length } i.data with
      | error e =>
        have hwrite' : writeExtractedFile u.tree i.path i.header i.data = .error e := hwrite
        simp [hs, hd, hwrite', Except.map, bind, Except.bind]
      | ok t =>
        have hwrite' : writeExtractedFile u.tree i.path i.header i.data = .ok t := hwrite
        by_cases hw : i.header.isWhiteout = 0
        · simp [hs, hd, hw, hwrite', Except.map, bind, Except.bind, pure, Except.pure]
        · simp [hs, hd, hw, hwrite', Except.map, bind, Except.bind, pure, Except.pure]
    · simp [hs, hd, Except.map]

/-- A run of the unpack by paths. -/
theorem extractItems_eq {items : List ArchiveItem}
    (h : ∀ i ∈ items, i.path ≠ [] ∧ ∀ n ∈ i.path, ArchiveName n) (u : Unpacked H) :
    extractItems items u
      = (placeItems items u.tree).map fun t =>
          ⟨t, u.extractedWhiteouts ++ items.flatMap (whiteoutsOf H)⟩ := by
  induction items generalizing u with
  | nil => simp [extractItems, placeItems, Except.map, pure, Except.pure]
  | cons i items ih =>
    obtain ⟨hne, hnames⟩ := h i (by simp)
    have hrest : ∀ j ∈ items, j.path ≠ [] ∧ ∀ n ∈ j.path, ArchiveName n :=
      fun j hj => h j (List.mem_cons_of_mem _ hj)
    rw [extractItems, placeItems, List.foldlM_cons, List.foldlM_cons,
      extractEntry_entry hne hnames]
    cases hplace : placeItem u.tree i with
    | error e => rfl
    | ok t =>
      have hstep := ih hrest ⟨t, u.extractedWhiteouts ++ whiteoutsOf H i⟩
      rw [List.append_assoc, ← List.flatMap_cons] at hstep
      exact hstep

end LayerMount
