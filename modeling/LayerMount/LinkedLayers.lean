import LayerMount.Delete
import LayerMount.Lib.Links

/-!
# Layers with links into layers

A link of a layer can lead to a directory of a layer, and two links to one directory.  A
write below such a link goes where the link points, and the guards of the engine know no
aliases.  The layers here are directories of one volume, whose links are junctions and
symbolic links to absolute paths.

A delete takes the entry from every path that leads to it (`removed_everywhere`), and a
create makes one at every path to its directory (`placed_everywhere`), so that neither is
about one path of the view.

No step of the host fails, and no entry is read-only.  The opaque markers of a directory go
with it, so their own removal is left out.
-/

namespace LayerMount.Linked

open Lib

/-! ## A volume -/

inductive VolumeLeaf where
  | file (data : Data)
  /-- A junction, or a directory symbolic link to an absolute path. -/
  | link (target : RelPath)
  deriving DecidableEq, Repr

/-- An entry without what is below it.  A directory is its opaque stream. -/
abbrev VolumeEntry := VolumeLeaf ⊕ Bool

abbrev VolumeTree := PathTree Name VolumeLeaf Bool

/-- A volume, from its root. -/
abbrev Volume := Option VolumeTree

def linkTarget : VolumeEntry → Option RelPath
  | .inl (.link target) => some target
  | _ => none

def find (v : Volume) : Lookup Name VolumeEntry := fun place n =>
  (PathTree.entryAt v (place ++ [n])).map (n, ·)

/-- The links that one open follows. -/
def kMaxLinks : Nat := 63

/-- Where a path leads, over every link. -/
def resolve (v : Volume) (path : RelPath) : Option RelPath :=
  Lib.resolve linkTarget (find v) kMaxLinks path

/-- Where the entry of a path is, and the entry: a link at the last name is not followed. -/
def locate (v : Volume) (path : RelPath) : Option (RelPath × VolumeEntry) :=
  Lib.locate linkTarget (find v) kMaxLinks path

def entryOf (v : Volume) (path : RelPath) : Option VolumeEntry :=
  if path = [] then PathTree.entryAt v [] else (locate v path).map Prod.snd

theorem entryAt_concat {v : Volume} {place : RelPath} {n : Name} {e : VolumeEntry}
    (h : PathTree.entryAt v (place ++ [n]) = some e) :
    ∃ opq, PathTree.entryAt v place = some (.inr opq) := by
  unfold PathTree.entryAt at h ⊢
  rw [PathTree.sub_append] at h
  cases ht : PathTree.sub v place with
  | none => simp [ht] at h
  | some t =>
    cases t with
    | leaf leaf => simp [ht, PathTree.sub_leaf] at h
    | node opq children => exact ⟨opq, rfl⟩

theorem find_eq_some {v : Volume} {place : RelPath} {n held : Name} {e : VolumeEntry} :
    find v place n = some (held, e) ↔
      n = held ∧ PathTree.entryAt v (place ++ [n]) = some e := by
  rw [find, Option.map_eq_some_iff]
  constructor
  · rintro ⟨_, he, heq⟩
    cases heq
    exact ⟨rfl, he⟩
  · rintro ⟨rfl, he⟩
    exact ⟨e, he, rfl⟩

theorem locate_concat_iff {v : Volume} {path place : RelPath} {n : Name} {e : VolumeEntry} :
    locate v (path ++ [n]) = some (place, e) ↔
      ∃ dir, resolve v path = some dir ∧ place = dir ++ [n] ∧
        PathTree.entryAt v place = some e := by
  unfold locate
  rw [Lib.locate_concat_iff]
  constructor
  · rintro ⟨dir, held, hdir, hfind, rfl⟩
    obtain ⟨rfl, he⟩ := find_eq_some.mp hfind
    exact ⟨dir, hdir, rfl, he⟩
  · rintro ⟨dir, hdir, rfl, he⟩
    exact ⟨dir, n, hdir, find_eq_some.mpr ⟨rfl, he⟩, rfl⟩

/-- A path that leads to a directory with an entry is one of a directory or of a link. -/
theorem directory_of_resolve {v : Volume} {path dir : RelPath} {n : Name} {below : VolumeEntry}
    (hdir : resolve v path = some dir) (hbelow : PathTree.entryAt v (dir ++ [n]) = some below) :
    ∃ e, entryOf v path = some e ∧ ∀ data, e ≠ .inl (.file data) := by
  obtain ⟨opq, hopq⟩ := entryAt_concat hbelow
  rcases List.eq_nil_or_concat path with rfl | ⟨above, m, rfl⟩
  · obtain rfl : dir = [] := by simpa [resolve, Lib.resolve, Lib.walk, kMaxLinks] using hdir.symm
    refine ⟨.inr opq, by simpa [entryOf] using hopq, ?_⟩
    intro data heq
    cases heq
  · rw [List.concat_eq_append] at hdir ⊢
    obtain ⟨place, held, e, hplace, hfind, hplain⟩ := resolve_above hdir
    obtain ⟨rfl, he⟩ := find_eq_some.mp hfind
    have hloc : locate v (above ++ [m]) = some (place ++ [m], e) :=
      locate_concat_iff.mpr ⟨place, hplace, rfl, he⟩
    refine ⟨e, by simp [entryOf, hloc], ?_⟩
    rintro data rfl
    rw [hplain rfl, he] at hopq
    cases hopq

/-! ## Layers of a volume -/

def layerEntry : VolumeEntry → LayerEntry
  | .inl (.file _) => { attributes := {} }
  | .inl (.link _) =>
    { attributes := { directory := true, reparsePoint := true }, tag := .nameSurrogate }
  | .inr opq => { attributes := { directory := true }, opaqueStream := opq }

def probeOf : Option VolumeEntry → Probe
  | none => .missing
  | some e => .entry (layerEntry e)

/-- The names that a listing of a path gives. -/
def namesOf (v : Volume) (path : RelPath) : List Name :=
  match (resolve v path).bind (PathTree.sub v) with
  | none => []
  | some t => t.names

theorem mem_namesOf_iff {v : Volume} {path : RelPath} {n : Name} :
    n ∈ namesOf v path ↔ (entryOf v (path ++ [n])).isSome = true := by
  have hentry : (entryOf v (path ++ [n])).isSome = true ↔
      ∃ dir, resolve v path = some dir ∧ (PathTree.entryAt v (dir ++ [n])).isSome = true := by
    simp only [entryOf, List.append_eq_nil_iff, List.cons_ne_nil, and_false, if_false,
      Option.isSome_map, Option.isSome_iff_exists, Prod.exists, locate_concat_iff]
    constructor
    · rintro ⟨place, e, dir, hdir, rfl, he⟩
      exact ⟨dir, hdir, e, he⟩
    · rintro ⟨dir, hdir, e, he⟩
      exact ⟨_, e, dir, hdir, rfl, he⟩
  rw [hentry]
  unfold namesOf
  cases hdir : resolve v path with
  | none => simp
  | some dir =>
    simp only [Option.bind_some, Option.some.injEq, exists_eq_left', PathTree.entryAt,
      Option.isSome_map, PathTree.sub_append]
    cases ht : PathTree.sub v dir with
    | none => simp
    | some t => rw [PathTree.sub_cons, PathTree.sub_nil, PathTree.mem_names_iff]

/-- The layer at a directory of the volume.  It finds nothing at a `.` component, which no
engine call asks it for. -/
def layerAt (v : Volume) (root : RelPath) : Layer where
  get p := if p.contains ['.'] then .missing else probeOf (entryOf v (root ++ p))
  scan p := .ok (if p.contains ['.'] then [] else namesOf v (root ++ p))
  sidecarOpaque _ := false
  parent_directory := by
    intro p n hn h
    have hp : p.contains ['.'] = false := by
      by_contra hdot
      simp_all
    have hboth : (p ++ [n]).contains ['.'] = false := by
      simp_all [eq_comm]
    rw [hboth, if_neg Bool.false_ne_true, ← List.append_assoc] at h
    rw [hp, if_neg Bool.false_ne_true]
    right
    cases he : entryOf v (root ++ p ++ [n]) with
    | none =>
      rw [he] at h
      exact absurd rfl h
    | some below =>
      simp only [entryOf, List.append_eq_nil_iff, List.cons_ne_nil, and_false, if_false,
        Option.map_eq_some_iff, Prod.exists, exists_eq_right, locate_concat_iff] at he
      obtain ⟨place, dir, hdir, rfl, hbelow⟩ := he
      obtain ⟨e, he, hnofile⟩ := directory_of_resolve hdir hbelow
      refine ⟨layerEntry e, by rw [he]; rfl, ?_⟩
      cases e with
      | inl leaf =>
        cases leaf with
        | file data => exact absurd rfl (hnofile data)
        | link target => rfl
      | inr opq => rfl
  mem_scan := by
    intro p names h n hn
    obtain rfl := Except.ok.inj h
    cases hp : p.contains ['.'] with
    | true => simp_all
    | false =>
      have hboth : (p ++ [n]).contains ['.'] = false := by
        simp_all [eq_comm]
      rw [hboth, if_neg Bool.false_ne_true, if_neg Bool.false_ne_true, mem_namesOf_iff,
        ← List.append_assoc]
      cases entryOf v (root ++ p ++ [n]) <;> simp [probeOf]
  get_dot := by
    intro p h
    simp at h

/-- Layers that are directories of one volume. -/
structure LinkedLayers where
  volume : Volume
  upper : RelPath
  lowers : List RelPath

namespace LinkedLayers

variable (m : LinkedLayers)

def config : LayerConfig where
  upper := layerAt m.volume m.upper
  lowers := m.lowers.map (layerAt m.volume)

/-- `ResolvePath`, with nothing cached. -/
def lookup (p : RelPath) : ResolvedPath := (resolvePath m.config p {}).1

def upperPath (p : RelPath) : RelPath := m.upper ++ p

def existsInUpper (p : RelPath) : Bool := (locate m.volume (m.upperPath p)).isSome

/-- The path on the volume of what a lookup found. -/
def hostPathOf (r : ResolvedPath) : RelPath :=
  (match r.lowerIndex with
    | some i => m.lowers.getD i []
    | none => m.upper) ++ r.absolutePath.getD []

/-- The path leads to a directory, over a link at its last name too. -/
def leadsToDirectory (path : RelPath) : Bool :=
  match (resolve m.volume path).bind (PathTree.entryAt m.volume) with
  | some (.inr _) => true
  | _ => false

/-! ## Steps of the host -/

def put (place : RelPath) (o : Volume) : LinkedLayers :=
  { m with volume := PathTree.put m.volume place o }

/-- A new entry at a free name of the directory that a path leads to. -/
def placeEntry (path : RelPath) (t : VolumeTree) : Except NtStatus LinkedLayers :=
  match resolve m.volume path.dropLast, path.getLast? with
  | some dir, some n =>
    match PathTree.entryAt m.volume dir with
    | some (.inr _) =>
      if (find m.volume dir n).isSome then .error .objectNameCollision
      else .ok (m.put (dir ++ [n]) (some t))
    | _ => .error .objectPathNotFound
  | _, _ => .error .objectPathNotFound

/-- The removal of an entry with what is below it.  A link goes, and not its target. -/
def removeEntryAt (path : RelPath) : LinkedLayers :=
  match locate m.volume path with
  | some (place, _) => m.put place none
  | none => m

/-- `CREATE_ALWAYS` of a marker, which replaces a file. -/
def createHiddenMarkerFile (path : RelPath) : Except NtStatus LinkedLayers :=
  match locate m.volume path with
  | some (place, .inl (.file _)) => .ok (m.put place (some (.leaf (.file []))))
  | some _ => .error .accessDenied
  | none => m.placeEntry path (.leaf (.file []))

/-- `create_directories`, from the part of the path already walked.  Nothing reads its
failure. -/
def ensureDirectoryExists (walked : RelPath) : RelPath → LinkedLayers → LinkedLayers
  | [], m => m
  | component :: rest, m =>
    let here := walked ++ [component]
    match locate m.volume here with
    | some _ => ensureDirectoryExists here rest m
    | none =>
      match m.placeEntry here (.node false []) with
      | .ok m => ensureDirectoryExists here rest m
      | .error _ => m

/-! ## Copy-up of directories -/

/-- `EnsureUpperParent`, with the copy-up of a directory given. -/
def ensureUpperParentWith (copyUpDirectory : RelPath → LinkedLayers → Except NtStatus LinkedLayers)
    (p : RelPath) : Except NtStatus LinkedLayers :=
  let parent := p.dropLast
  if parent.isEmpty then .ok m
  else if m.existsInUpper parent then
    if m.leadsToDirectory (m.upperPath parent) then .ok m else .error .objectPathNotFound
  else
    let shown := m.lookup parent
    if !(shown.found && m.leadsToDirectory (m.hostPathOf shown)) then .error .objectPathNotFound
    else if shown.source = .lower then copyUpDirectory parent m
    else .error .objectPathNotFound

/-- The rest of `CopyUpDirectory`, once the parent is there: a link as a link, a directory
without its children. -/
def copyUpDirectoryTarget (p : RelPath) (source : ResolvedPath) : Except NtStatus LinkedLayers :=
  match entryOf m.volume (m.hostPathOf source) with
  | some (.inl (.link target)) => m.placeEntry (m.upperPath p) (.leaf (.link target))
  | some _ => m.placeEntry (m.upperPath p) (.node false [])
  | none => .error .objectNameNotFound

def copyUpDirectoryWithin : Nat → RelPath → LinkedLayers → Except NtStatus LinkedLayers
  | 0, _, _ => .error .unsuccessful
  | n + 1, p, m =>
    if m.existsInUpper p then .ok m
    else
      let source := resolveLowerPath m.config p
      if !source.found then .error .objectNameNotFound
      else do
        let m ← m.ensureUpperParentWith (copyUpDirectoryWithin n) p
        let link := findLinkOnPath m.config.upper p.dropLast
        if (link = .self || link = .ancestor) && m.existsInUpper p then pure m
        else m.copyUpDirectoryTarget p source

def copyUpDirectory (p : RelPath) : Except NtStatus LinkedLayers :=
  copyUpDirectoryWithin (p.length + 1) p m

def ensureUpperParent (p : RelPath) : Except NtStatus LinkedLayers :=
  m.ensureUpperParentWith (fun p m => m.copyUpDirectory p) p

def copyUpLowerLinkAbove (p : RelPath) : Except NtStatus LinkedLayers :=
  let link := CopyUp.findLinkAbove m.config p
  match link.stop with
  | .link => if link.source = .lower then m.copyUpDirectory link.path else .ok m
  | .unreadable => .ok m
  | .none => .ok m

/-! ## Delete and create -/

def createWhiteout (p : RelPath) : Except NtStatus LinkedLayers := do
  WhiteoutManager.markerDirectoryStatus (findLinkInView m.config p.dropLast)
  let m := ensureDirectoryExists [] (m.upperPath p.dropLast) m
  m.createHiddenMarkerFile (m.upperPath (getWhiteoutFileName p))

/-- `UpperEntryRemover::Remove`. -/
def remove (p : RelPath) : Except NtStatus LinkedLayers :=
  let lowerHasIt := (resolveLowerPath m.config p).found
  let m := m.removeEntryAt (m.upperPath p)
  if lowerHasIt then m.createWhiteout p else .ok m

def directoryEmptinessStatus (d : RelPath) : Except NtStatus Unit := do
  let entries ← mergeDirectoryAcrossLayers m.config d
  if entries.isEmpty then pure () else .error .directoryNotEmpty

def canDeleteEntry (p : RelPath) : Except NtStatus Unit :=
  let resolved := m.lookup p
  if !resolved.found then .error .objectNameNotFound
  else
    match entryOf m.volume (m.hostPathOf resolved) with
    | some (.inr _) => m.directoryEmptinessStatus p
    | _ => .ok ()

/-- `Delete` of a path without a relative link on it. -/
def deletePath (p : RelPath) : Except NtStatus LinkedLayers :=
  if !parsesAsHostPath p then .error .objectNameInvalid
  else do
    m.canDeleteEntry p
    let m ← m.copyUpLowerLinkAbove p
    m.remove p

/-- `RemoveWhiteout`, which leaves a link's target alone. -/
def removeWhiteout (p : RelPath) : Except NtStatus LinkedLayers :=
  match findLinkOnPath m.config.upper p.dropLast with
  | .self => .ok m
  | .ancestor => .ok m
  | .unreadable => .error .accessDenied
  | .none =>
    match locate m.volume (m.upperPath (getWhiteoutFileName p)) with
    | none => .ok m
    | some (place, .inl (.file _)) => .ok (m.put place none)
    | some _ => .error .accessDenied

/-- `Create` of a file, at a path without a relative link on it. -/
def createFile (p : RelPath) : Except NtStatus LinkedLayers :=
  if !parsesAsHostPath p then .error .objectNameInvalid
  else if isReservedOverlayPath m.config p then .error .accessDenied
  else if (m.lookup p).found then .error .objectNameCollision
  else do
    let whiteoutAtPath := hasWhiteout m.config.upper p
    let m ← m.ensureUpperParent p
    let m ← m.placeEntry (m.upperPath p) (.leaf (.file []))
    if whiteoutAtPath then m.removeWhiteout p else pure m

end LinkedLayers

/-! ## An entry is at every path that leads to it -/

theorem entryAt_of_locate {v : Volume} {path place : RelPath} {e : VolumeEntry}
    (h : locate v path = some (place, e)) : PathTree.entryAt v place = some e := by
  rcases List.eq_nil_or_concat path with rfl | ⟨above, n, rfl⟩
  · cases h
  · rw [List.concat_eq_append, locate_concat_iff] at h
    obtain ⟨dir, -, -, he⟩ := h
    exact he

/-- What a volume answers without an entry it answers with it. -/
theorem find_put_none (v : Volume) (place : RelPath) :
    (find (PathTree.put v place none)).Extends (find v) := by
  rintro dir n ⟨held, e⟩ h
  obtain ⟨rfl, he⟩ := find_eq_some.mp h
  refine find_eq_some.mpr ⟨rfl, ?_⟩
  by_cases hbelow : place <+: dir ++ [n]
  · obtain ⟨rest, hrest⟩ := hbelow
    rw [← hrest, PathTree.entryAt, PathTree.sub_put_none] at he
    cases he
  · rwa [PathTree.entryAt_put_elsewhere hbelow] at he

/-- After the removal of an entry, every path that led to it finds nothing. -/
theorem removed_everywhere {m : LinkedLayers} {path other place : RelPath} {e : VolumeEntry}
    (hpath : locate m.volume path = some (place, e))
    (hother : locate m.volume other = some (place, e)) :
    locate (m.removeEntryAt path).volume other = none := by
  have hvolume : (m.removeEntryAt path).volume = PathTree.put m.volume place none := by
    rw [LinkedLayers.removeEntryAt, hpath]
    rfl
  rw [hvolume]
  by_contra hsome
  obtain ⟨found, hfound⟩ := Option.ne_none_iff_exists'.mp hsome
  have hsame : locate m.volume other = some found := locate_mono (find_put_none _ _) hfound
  rw [hother] at hsame
  cases hsame
  have hentry := entryAt_of_locate hfound
  have hgone : PathTree.entryAt (PathTree.put m.volume place none) place = none := by
    have hsub := PathTree.sub_put_none m.volume place []
    rw [List.append_nil] at hsub
    rw [PathTree.entryAt, hsub]
    rfl
  rw [hgone] at hentry
  cases hentry

/-- A new entry of a directory hides no entry. -/
theorem find_put_new {v : Volume} {dir : RelPath} {n : Name} (hfree : find v dir n = none)
    (t : VolumeTree) : (find v).Extends (find (PathTree.put v (dir ++ [n]) (some t))) := by
  have hnone : PathTree.sub v (dir ++ [n]) = none := by
    simpa [find, PathTree.entryAt] using hfree
  rintro place k ⟨held, e⟩ h
  obtain ⟨rfl, he⟩ := find_eq_some.mp h
  refine find_eq_some.mpr ⟨rfl, ?_⟩
  rw [PathTree.entryAt_put_elsewhere, he]
  rintro ⟨rest, hrest⟩
  rw [← hrest, PathTree.entryAt, PathTree.sub_append, hnone, PathTree.sub_none] at he
  cases he

/-- After a create of an entry, every path to its directory finds it. -/
theorem placed_everywhere {m after : LinkedLayers} {path other dir : RelPath} {n : Name}
    {t : VolumeTree} (h : m.placeEntry (path ++ [n]) t = .ok after)
    (hpath : resolve m.volume path = some dir) (hother : resolve m.volume other = some dir) :
    locate after.volume (other ++ [n]) = some (dir ++ [n], t.entry) := by
  unfold LinkedLayers.placeEntry at h
  rw [List.dropLast_concat, List.getLast?_concat, hpath] at h
  dsimp only at h
  cases hdir : PathTree.entryAt m.volume dir with
  | none =>
    rw [hdir] at h
    cases h
  | some e =>
    rw [hdir] at h
    cases e with
    | inl leaf => cases h
    | inr opq =>
      dsimp only at h
      cases hfree : find m.volume dir n with
      | some found =>
        rw [hfree] at h
        cases h
      | none =>
        rw [hfree] at h
        obtain rfl := Except.ok.inj h
        have hput : PathTree.CanPut m.volume (dir ++ [n]) := by
          right
          rw [List.dropLast_concat]
          obtain ⟨s, hs, hentry⟩ := Option.map_eq_some_iff.mp hdir
          cases s with
          | leaf leaf => cases hentry
          | node v children => exact ⟨v, children, hs⟩
        refine locate_concat_iff.mpr ⟨dir, ?_, rfl, ?_⟩
        · exact resolve_mono (find_put_new hfree t) hother
        · have hentry := PathTree.entryAt_put_append hput (some t) []
          rw [List.append_nil] at hentry
          exact hentry

/-! ## A lower's link into the lower -/

/-- A lower with a directory `d` and a link `l` to it, under an empty upper. -/
def linkIntoLower : LinkedLayers where
  volume := some (.node false [
    (['u'], .node false []),
    (['w'], .node false [
      (['d'], .node false [(['x'], .leaf (.file [7]))]),
      (['l'], .leaf (.link [['w'], ['d']]))])])
  upper := [['u']]
  lowers := [[['w']]]

/-- A delete of `l\\x` takes `d\\x`, which the view shows from the lower. -/
theorem delete_through_link_empties_lower :
    ∃ after, linkIntoLower.deletePath [['l'], ['x']] = .ok after ∧
      (linkIntoLower.lookup [['d'], ['x']]).found = true ∧
      (after.lookup [['d'], ['x']]).found = false ∧
      locate linkIntoLower.volume [['w'], ['d'], ['x']] =
        some ([['w'], ['d'], ['x']], .inl (.file [7])) ∧
      locate after.volume [['w'], ['d'], ['x']] = none :=
  ⟨_, rfl, by decide +kernel, by decide +kernel, by decide +kernel, by decide +kernel⟩

end LayerMount.Linked
