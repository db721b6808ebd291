import LayerMount.CacheRace
import LayerMount.Engine
import LayerMount.StreamPath
import LayerMount.Lib.Bytes

/-!
# The walk through relative links

`ViewPathThroughLinks` of `PathResolver.cpp`.  It walks a caller's path through the entries
that the view shows, puts the target of each relative symbolic link in place of the link, and
walks again from the root.  The link's target is what `ReadReparseLink` of `LayerPath.cpp`
reads of the reparse data.

A path is a text here.  A lookup of a text is `resolvePath` of its names.  The walk either
gives up after `kMaxLinkHops` links or stops at a path that it would walk unchanged
(`viewPathThroughLinks_canonical`).
-/

namespace LayerMount

open Lib PathText

/-! ## The text of a path -/

/-- The loop of `SplitComponents` over what is left of the path. -/
def splitComponents (path : WideString) : List WideString :=
  match h : path.idxOf? kBackslash with
  | none => if path.isEmpty then [] else [path]
  | some fin =>
    if fin = 0 then splitComponents (path.drop 1)
    else path.take fin :: splitComponents (path.drop (fin + 1))
termination_by path.length
decreasing_by
  all_goals
    have hne : path ≠ [] := by
      intro hnil
      rw [hnil] at h
      exact absurd h (by simp)
    have hpos := List.length_pos_iff.mpr hne
    rw [List.length_drop]
    omega

def joinComponents (components : List WideString) (count : Nat) : WideString :=
  [kBackslash].intercalate (components.take count)

/-- The step of the loop of `ResolveRelativeTarget`. -/
def enterComponent (parent : List WideString) (component : WideString) : List WideString :=
  if component = kDotDot then parent.dropLast
  else if component = [kDot] then parent
  else parent ++ [component]

def resolveRelativeTarget (parent : List WideString) (target : WideString) : List WideString :=
  let target := target.map fun u => if u = kSlash then kBackslash else u
  let parent := if target.head? = some kBackslash then [] else parent
  (splitComponents target).foldl enterComponent parent

def spliceLinkTarget (components : List WideString) (linkIndex : Nat) (target : WideString) :
    List WideString :=
  resolveRelativeTarget (components.take linkIndex) target ++ components.drop (linkIndex + 1)

/-- The path before its stream suffix. -/
def hostText (path : WideString) : WideString :=
  path.take ((path.idxOf? kColon).getD path.length)

def streamSuffixOf (path : WideString) : WideString :=
  match path.idxOf? kColon with
  | none => []
  | some colon => path.drop colon

/-! ## The reparse data of a link -/

inductive ReparseLink where
  | none
  | relativeSymlink (target : WideString)
  | otherLink
  deriving DecidableEq, Repr

/-- `sizeof(SymbolicLinkReparseHeader)`. -/
def kSymbolicLinkReparseHeaderSize : Nat := 20

/-- `IO_REPARSE_TAG_SYMLINK`. -/
def kReparseTagSymlink : Nat := 0xA000000C

/-- `IsReparseTagNameSurrogate`. -/
def isLinkReparseTag (tag : Nat) : Bool := tag.testBit 29

def kSymlinkFlagRelative : Nat := 0x1

/-- The units of a text in memory. -/
def unitsOf : List UInt8 → WideString
  | low :: high :: rest => UInt16.ofNat (low.toNat + 2 ^ 8 * high.toNat) :: unitsOf rest
  | _ => []

/-- `ReadReparseLink` of the data that `FSCTL_GET_REPARSE_POINT` gives, if it gives any. -/
def readReparseLink : Option (List UInt8) → ReparseLink
  | none => .otherLink
  | some data =>
    if data.length < 4 then .otherLink
    else
      let tag := field data 0 4
      if !isLinkReparseTag tag then .none
      else if tag ≠ kReparseTagSymlink || data.length < kSymbolicLinkReparseHeaderSize then
        .otherLink
      else
        let substituteNameOffset := field data 8 2
        let substituteNameLength := field data 10 2
        let flags := field data 16 4
        let nameStart := kSymbolicLinkReparseHeaderSize + substituteNameOffset
        if flags &&& kSymlinkFlagRelative = 0 ||
            data.length < nameStart + substituteNameLength then .otherLink
        else
          let target := unitsOf ((data.drop nameStart).take substituteNameLength)
          if target.contains kColon then .otherLink else .relativeSymlink target

/-! ## The walk -/

/-- The layers, and the reparse data of the entry at a path of one of them. -/
structure LinkedLayers where
  config : LayerConfig
  reparseData : LayerSource → Option Nat → RelPath → Option (List UInt8)

/-- `INVALID_FILE_ATTRIBUTES` has every bit. -/
def kInvalidFileAttributes : Attributes :=
  { directory := true, reparsePoint := true, readOnly := true, archive := true, sparse := true }

def ResolvedPath.attributeBits (shown : ResolvedPath) : Attributes :=
  shown.attributes.getD kInvalidFileAttributes

/-- The link that an entry found is, read for a reparse point only. -/
def LinkedLayers.linkAt (S : LinkedLayers) (shown : ResolvedPath) : ReparseLink :=
  if shown.attributeBits.reparsePoint then
    readReparseLink
      (S.reparseData shown.source shown.lowerIndex (shown.absolutePath.getD []))
  else .none

/-- The names of a text in `NormalizePath` form. -/
def namesOfText (F : CaseFold) (text : WideString) : RelPath :=
  (splitComponents (normalizePath F text)).map decodeUtf16

/-- `ResolvePath` of a text. -/
def LinkedLayers.resolveText (S : LinkedLayers) (F : CaseFold) (text : WideString)
    (cache : Cache) : ResolvedPath × Cache :=
  resolvePath S.config (namesOfText F text) cache

def kMaxLinkHops : Nat := 40

/-- The loop of `ViewPathThroughLinks`; `none` is a walk with too many links. -/
def walkThroughLinks (S : LinkedLayers) (F : CaseFold) (finalLink : FinalLink)
    (components : List WideString) (hops walked : Nat) (cache : Cache) :
    Option (List WideString) × Cache :=
  if walked < components.length then
    if walked + 1 = components.length ∧ finalLink = .keep then (some components, cache)
    else
      let (shown, cache) := S.resolveText F (joinComponents components (walked + 1)) cache
      if !shown.found then (some components, cache)
      else
        match S.linkAt shown with
        | .otherLink => (some components, cache)
        | .relativeSymlink target =>
          if kMaxLinkHops < hops + 1 then (none, cache)
          else walkThroughLinks S F finalLink (spliceLinkTarget components walked target)
            (hops + 1) 0 cache
        | .none =>
          if !shown.attributeBits.directory then (some components, cache)
          else walkThroughLinks S F finalLink components hops (walked + 1) cache
  else (some components, cache)
termination_by (kMaxLinkHops - hops, components.length - walked)
decreasing_by
  · apply Prod.Lex.left
    omega
  · apply Prod.Lex.right
    omega

structure ViewPath where
  path : WideString
  normalized : WideString
  deriving DecidableEq, Repr

/-- A path, or `STATUS_REPARSE_POINT_NOT_RESOLVED`. -/
inductive ViewLookup where
  | found (path : ViewPath)
  | reparsePointNotResolved
  deriving DecidableEq, Repr

/-- The components of a caller's path before its stream suffix. -/
def callerComponents (path : WideString) : List WideString :=
  splitComponents (hostText (normalizePathPreserveCase path))

def viewPathThroughLinks (S : LinkedLayers) (F : CaseFold) (path : WideString)
    (finalLink : FinalLink) (cache : Cache) : ViewLookup × Cache :=
  let callerPath := normalizePathPreserveCase path
  let components := callerComponents path
  if components.contains kDotDot then
    (.found { path := callerPath, normalized := normalizePath F callerPath }, cache)
  else
    match walkThroughLinks S F finalLink (components.filter (· ≠ [kDot])) 0 0 cache with
    | (none, cache) => (.reparsePointNotResolved, cache)
    | (some components, cache) =>
      let viewPath := joinComponents components components.length ++ streamSuffixOf callerPath
      (.found { path := viewPath, normalized := normalizePath F viewPath }, cache)

/-! ## Splitting and joining -/

/-- What `SplitComponents` gives is not empty and holds no separator. -/
theorem mem_splitComponents {path component : WideString} (h : component ∈ splitComponents path) :
    component ≠ [] ∧ kBackslash ∉ component ∧ ∀ u ∈ component, u ∈ path := by
  induction hlength : path.length using Nat.strong_induction_on generalizing path with
  | _ n ih =>
    unfold splitComponents at h
    split at h
    · next hnone =>
      rw [List.idxOf?_eq_none_iff] at hnone
      split at h
      · exact absurd h (by simp)
      · next hne =>
        rw [List.mem_singleton] at h
        rw [h]
        exact ⟨by simpa using hne, hnone, fun u hu => hu⟩
    · next fin hfin =>
      have hmem : kBackslash ∈ path := by
        by_contra hmem
        rw [List.idxOf?_eq_none_iff.mpr hmem] at hfin
        exact absurd hfin (by simp)
      obtain ⟨start, rest, rfl, hstart⟩ := List.eq_append_cons_of_mem hmem
      rw [idxOf?_append_cons hstart] at hfin
      injection hfin with hfin
      subst hfin
      have hrest : component ∈ splitComponents rest →
          component ≠ [] ∧ kBackslash ∉ component ∧
            ∀ u ∈ component, u ∈ start ++ kBackslash :: rest := by
        intro hin
        have hparts := ih rest.length (by simp at hlength; omega) hin rfl
        exact ⟨hparts.1, hparts.2.1, fun u hu => by simp [hparts.2.2 u hu]⟩
      split at h
      · next hzero =>
        rw [List.length_eq_zero_iff] at hzero
        subst hzero
        exact hrest h
      · next hpos =>
        rw [List.take_left, drop_append_cons, List.mem_cons] at h
        cases h with
        | inl h =>
          rw [h]
          refine ⟨?_, hstart, fun u hu => by simp [hu]⟩
          intro hnil
          exact hpos (by rw [hnil]; rfl)
        | inr h => exact hrest h

theorem splitComponents_plain {component : WideString} (hne : component ≠ [])
    (h : kBackslash ∉ component) : splitComponents component = [component] := by
  unfold splitComponents
  split
  · rw [if_neg (by simpa using hne)]
  · next fin hfin =>
    rw [List.idxOf?_eq_none_iff.mpr h] at hfin
    exact absurd hfin (by simp)

theorem splitComponents_cons {component : WideString} (hne : component ≠ [])
    (h : kBackslash ∉ component) (rest : WideString) :
    splitComponents (component ++ kBackslash :: rest) = component :: splitComponents rest := by
  rw [splitComponents]
  split
  · next hnone =>
    rw [idxOf?_append_cons h] at hnone
    exact absurd hnone (by simp)
  · next fin hfin =>
    rw [idxOf?_append_cons h] at hfin
    injection hfin with hfin
    subst hfin
    rw [if_neg (by simpa using hne), List.take_left, drop_append_cons]

/-- A component of a view path: not empty, `.` or `..`, and without a mark of the path. -/
structure PlainComponent (component : WideString) : Prop where
  ne_nil : component ≠ []
  ne_dot : component ≠ [kDot]
  ne_dotdot : component ≠ kDotDot
  noBackslash : kBackslash ∉ component
  noSlash : kSlash ∉ component
  noColon : kColon ∉ component

def PlainComponents (components : List WideString) : Prop := ∀ c ∈ components, PlainComponent c

theorem joinComponents_all (components : List WideString) :
    joinComponents components components.length = [kBackslash].intercalate components := by
  rw [joinComponents, List.take_length]

theorem splitComponents_joined {components : List WideString} (h : PlainComponents components) :
    splitComponents ([kBackslash].intercalate components) = components := by
  match components with
  | [] =>
    unfold splitComponents
    rfl
  | [c] =>
    have hc := h c List.mem_cons_self
    have hjoined : [kBackslash].intercalate [c] = c := by simp [List.intercalate]
    rw [hjoined, splitComponents_plain hc.ne_nil hc.noBackslash]
  | c :: d :: rest =>
    have hc := h c List.mem_cons_self
    have hplain : PlainComponents (d :: rest) := (List.forall_mem_cons.mp h).2
    have hrest := splitComponents_joined hplain
    rw [intercalate_cons_cons, splitComponents_cons hc.ne_nil hc.noBackslash, hrest]

/-- The text between two separators of a joined path is a component. -/
theorem splitOn_joined {components : List WideString} (h : PlainComponents components)
    (hne : components ≠ []) :
    ([kBackslash].intercalate components).splitOn kBackslash = components := by
  match components with
  | [c] =>
    have hjoined : [kBackslash].intercalate [c] = c := by simp [List.intercalate]
    rw [hjoined, List.splitOn_eq_singleton (h c List.mem_cons_self).noBackslash]
  | c :: d :: rest =>
    have hc := (h c List.mem_cons_self).noBackslash
    have hplain : PlainComponents (d :: rest) := (List.forall_mem_cons.mp h).2
    have hrest := splitOn_joined hplain (by simp)
    rw [intercalate_cons_cons, List.splitOn_append_cons_self_of_not_mem hc, hrest]

/-! ## The stream suffix -/

/-- A stream suffix is empty or starts with its colon. -/
def IsStreamSuffix (suffix : WideString) : Prop := suffix = [] ∨ ∃ rest, suffix = kColon :: rest

section

variable {host suffix : WideString}

theorem hostText_append (hhost : kColon ∉ host) (hsuffix : IsStreamSuffix suffix) :
    hostText (host ++ suffix) = host := by
  rcases hsuffix with rfl | ⟨rest, rfl⟩
  · rw [List.append_nil, hostText, List.idxOf?_eq_none_iff.mpr hhost, Option.getD_none,
      List.take_length]
  · rw [hostText, idxOf?_append_cons hhost, Option.getD_some, List.take_left]

theorem streamSuffixOf_append (hhost : kColon ∉ host) (hsuffix : IsStreamSuffix suffix) :
    streamSuffixOf (host ++ suffix) = suffix := by
  unfold streamSuffixOf
  rcases hsuffix with rfl | ⟨rest, rfl⟩
  · rw [List.append_nil, List.idxOf?_eq_none_iff.mpr hhost]
  · simp only [idxOf?_append_cons hhost, List.drop_left]

end

/-- A path is its host and its stream suffix. -/
theorem exists_hostText (path : WideString) : ∃ host suffix, path = host ++ suffix ∧
    kColon ∉ host ∧ IsStreamSuffix suffix := by
  by_cases hcolon : kColon ∈ path
  · obtain ⟨host, rest, rfl, hhost⟩ := List.eq_append_cons_of_mem hcolon
    exact ⟨host, _, rfl, hhost, .inr ⟨rest, rfl⟩⟩
  · exact ⟨path, [], (List.append_nil path).symm, hcolon, .inl rfl⟩

theorem hostText_append_streamSuffixOf (path : WideString) :
    hostText path ++ streamSuffixOf path = path := by
  obtain ⟨host, suffix, rfl, hhost, hsuffix⟩ := exists_hostText path
  rw [hostText_append hhost hsuffix, streamSuffixOf_append hhost hsuffix]

theorem colon_not_mem_hostText (path : WideString) : kColon ∉ hostText path := by
  obtain ⟨host, suffix, rfl, hhost, hsuffix⟩ := exists_hostText path
  rwa [hostText_append hhost hsuffix]

theorem isStreamSuffix_streamSuffixOf (path : WideString) :
    IsStreamSuffix (streamSuffixOf path) := by
  obtain ⟨host, suffix, rfl, hhost, hsuffix⟩ := exists_hostText path
  rwa [streamSuffixOf_append hhost hsuffix]

/-! ## Normalized paths -/

theorem normalizePathPreserveCase_eq_self {path : WideString} (hslash : kSlash ∉ path)
    (hhead : path.head? ≠ some kBackslash) (hlast : path.getLast? ≠ some kBackslash) :
    normalizePathPreserveCase path = path := by
  have hmap : (path.map fun u => if u = kSlash then kBackslash else u) = path := by
    rw [List.map_congr_left (g := id), List.map_id]
    intro u hu
    exact if_neg (ne_of_mem_of_not_mem hu hslash)
  have hdrop : path.dropWhile (· = kBackslash) = path := by
    cases path with
    | nil => rfl
    | cons u rest =>
      apply List.dropWhile_cons_of_neg
      simpa using hhead
  rw [normalizePathPreserveCase, hmap, hdrop, List.rdropWhile_eq_self_iff]
  intro hne
  rw [List.getLast?_eq_some_getLast hne] at hlast
  simpa using hlast

/-! ## The target of a link -/

theorem PlainComponents.take {components : List WideString} (h : PlainComponents components)
    (n : Nat) : PlainComponents (components.take n) :=
  fun c hc => h c (List.mem_of_mem_take hc)

theorem PlainComponents.append {a b : List WideString} (ha : PlainComponents a)
    (hb : PlainComponents b) : PlainComponents (a ++ b) :=
  List.forall_mem_append.mpr ⟨ha, hb⟩

/-- A step into a component of a target keeps a path of plain components. -/
theorem plain_enterComponent {parent : List WideString} {component : WideString}
    (hparent : PlainComponents parent) (hne : component ≠ []) (hback : kBackslash ∉ component)
    (hslash : kSlash ∉ component) (hcolon : kColon ∉ component) :
    PlainComponents (enterComponent parent component) := by
  unfold enterComponent
  split
  · exact fun c hc => hparent c (List.mem_of_mem_dropLast hc)
  · next hdotdot =>
    split
    · exact hparent
    · next hdot =>
      apply hparent.append
      intro c hc
      rw [List.mem_singleton.mp hc]
      exact ⟨hne, hdot, hdotdot, hback, hslash, hcolon⟩

/-- The induction is on the components of the target. -/
theorem plain_foldl_enterComponent {parent entered : List WideString}
    (hparent : PlainComponents parent) (hentered : ∀ c ∈ entered,
      c ≠ [] ∧ kBackslash ∉ c ∧ kSlash ∉ c ∧ kColon ∉ c) :
    PlainComponents (entered.foldl enterComponent parent) := by
  induction entered generalizing parent with
  | nil => exact hparent
  | cons c rest ih =>
    rw [List.forall_mem_cons] at hentered
    have hc := hentered.1
    rw [List.foldl_cons]
    exact ih (plain_enterComponent hparent hc.1 hc.2.1 hc.2.2.1 hc.2.2.2) hentered.2

theorem plain_resolveRelativeTarget {parent : List WideString} {target : WideString}
    (hparent : PlainComponents parent) (htarget : kColon ∉ target) :
    PlainComponents (resolveRelativeTarget parent target) := by
  apply plain_foldl_enterComponent
  · split
    · exact fun c hc => absurd hc (by simp)
    · exact hparent
  · intro c hc
    have hparts := mem_splitComponents hc
    refine ⟨hparts.1, hparts.2.1, ?_, ?_⟩
    · intro hslash
      obtain ⟨u, _, hu⟩ := List.mem_map.mp (hparts.2.2 _ hslash)
      split at hu
      · exact absurd hu (by decide)
      · next hne => exact hne hu
    · intro hcolon
      obtain ⟨u, hmem, hu⟩ := List.mem_map.mp (hparts.2.2 _ hcolon)
      split at hu
      · exact absurd hu (by decide)
      · exact htarget (hu ▸ hmem)

theorem plain_spliceLinkTarget {components : List WideString} {target : WideString}
    (h : PlainComponents components) (linkIndex : Nat) (htarget : kColon ∉ target) :
    PlainComponents (spliceLinkTarget components linkIndex target) :=
  (plain_resolveRelativeTarget (h.take linkIndex) htarget).append
    fun c hc => h c (List.mem_of_mem_drop hc)

/-- A relative target has no colon. -/
theorem colon_not_mem_target {data : Option (List UInt8)} {target : WideString}
    (h : readReparseLink data = .relativeSymlink target) : kColon ∉ target := by
  unfold readReparseLink at h
  split at h
  · cases h
  · dsimp only at h
    split at h
    · cases h
    · split at h
      · cases h
      · split at h
        · cases h
        · split at h
          · cases h
          · split at h
            · cases h
            · next hcolon =>
              injection h with h
              rw [← h]
              simpa using hcolon

/-- `..` steps to the root and past it. -/
theorem foldl_enterComponent_parents {parent : List WideString} {steps : Nat}
    (h : parent.length ≤ steps) :
    (List.replicate steps kDotDot).foldl enterComponent parent = [] := by
  induction steps generalizing parent with
  | zero => exact List.eq_nil_of_length_eq_zero (Nat.le_zero.mp h)
  | succ steps ih =>
    have hparent : enterComponent parent kDotDot = parent.dropLast := if_pos rfl
    rw [List.replicate_succ, List.foldl_cons, hparent]
    exact ih (by rw [List.length_dropLast]; omega)

/-- Wherever in a target, as many `..` steps as there are directories above lead to the root,
and more stay there. -/
theorem foldl_enterComponent_root {parent entered : List WideString} {steps : Nat}
    (h : (entered.foldl enterComponent parent).length ≤ steps) (rest : List WideString) :
    (entered ++ (List.replicate steps kDotDot ++ rest)).foldl enterComponent parent
      = rest.foldl enterComponent [] := by
  rw [List.foldl_append, List.foldl_append, foldl_enterComponent_parents h]

/-! ## Lookups and the cache -/

/-- Every entry of the cache is what a lookup without it puts there. -/
def Cache.Fresh (c : LayerConfig) (cache : Cache) : Prop :=
  ∀ entry ∈ cache.entries, probeLayers c entry.key = .put entry.resolved

theorem fresh_empty (c : LayerConfig) : Cache.Fresh c {} := nofun

theorem Cache.Fresh.get {c : LayerConfig} {cache : Cache} (h : cache.Fresh c) (p : RelPath) :
    (cache.get p).2.Fresh c := by
  intro entry hentry
  obtain ⟨old, hold, hkey, hresolved⟩ := mem_get_entries hentry
  rw [← hkey, ← hresolved]
  exact h old hold

theorem Cache.Fresh.put {c : LayerConfig} {cache : Cache} {p : RelPath} {r : ResolvedPath}
    (h : cache.Fresh c) (hr : probeLayers c p = .put r) : (cache.put p r).Fresh c := by
  intro entry hentry
  rcases mem_put_entries hentry with ⟨hkey, hresolved⟩ | hold
  · rw [hkey, hresolved, hr]
  · exact h entry hold

theorem Cache.Fresh.answer {c : LayerConfig} {cache : Cache} {p : RelPath} {r : ResolvedPath}
    (h : cache.Fresh c) (hget : (cache.get p).1 = some r) : probeLayers c p = .put r := by
  rw [Cache.get] at hget
  cases hfind : cache.find p with
  | none =>
    rw [hfind] at hget
    cases hget
  | some entry =>
    rw [hfind] at hget
    have hkey : entry.key = p := by simpa using List.find?_some hfind
    rw [← Option.some.inj hget, ← hkey]
    exact h entry (List.mem_of_find?_eq_some hfind)

/-- A lookup with a fresh cache gives what one without a cache gives, and leaves its cache
fresh.  A redirect is never cached, so the count of redirects does not matter.  The induction
is on that count. -/
theorem resolvePathInternal_fresh {c : LayerConfig} {cache : Cache} (h : cache.Fresh c)
    (redirects : Nat) (p : RelPath) :
    (resolvePathInternal c redirects p cache).1 = (resolvePathInternal c redirects p {}).1 ∧
      (resolvePathInternal c redirects p cache).2.2.Fresh c := by
  induction redirects generalizing p cache with
  | zero => exact ⟨rfl, h⟩
  | succ redirects ih =>
    have hsteps := resolvePathInternal_steps c redirects p cache
    have hfresh := congrArg Prod.fst (resolvePathInternal_steps c redirects p {})
    have hmiss : Cache.get {} p = (none, {}) := rfl
    rw [hmiss] at hfresh
    by_cases hroot : p.isEmpty
    · rw [if_pos hroot] at hsteps hfresh
      rw [Prod.mk.injEq] at hsteps
      rw [hsteps.1, hsteps.2]
      exact ⟨hfresh.symm, h⟩
    rw [if_neg hroot] at hsteps hfresh
    by_cases hres : !isResolvablePath c p
    · rw [if_pos hres] at hsteps hfresh
      rw [Prod.mk.injEq] at hsteps
      rw [hsteps.1, hsteps.2]
      exact ⟨hfresh.symm, h⟩
    rw [if_neg hres] at hsteps hfresh
    have hget := h.get p
    cases hcached : cache.get p with
    | mk hit cache' =>
      rw [hcached] at hsteps hget
      cases hit with
      | some r =>
        rw [h.answer (by rw [hcached])] at hfresh
        rw [Prod.mk.injEq] at hsteps
        rw [hsteps.1, hsteps.2]
        exact ⟨hfresh.symm, hget⟩
      | none =>
        cases hprobe : probeLayers c p with
        | redirect target =>
          rw [hprobe] at hsteps hfresh
          rw [Prod.mk.injEq] at hsteps
          rw [hsteps.1, hsteps.2]
          exact ⟨(ih hget target).1.trans hfresh.symm, (ih hget target).2⟩
        | put r =>
          rw [hprobe] at hsteps hfresh
          rw [Prod.mk.injEq] at hsteps
          rw [hsteps.1, hsteps.2]
          exact ⟨hfresh.symm, hget.put hprobe⟩
        | absent =>
          rw [hprobe] at hsteps hfresh
          rw [Prod.mk.injEq] at hsteps
          rw [hsteps.1, hsteps.2]
          exact ⟨hfresh.symm, hget⟩

/-! ## What the walk meets -/

inductive ShownKind where
  | missing
  | file
  | directory
  | otherLink
  | relativeSymlink (target : WideString)
  deriving DecidableEq, Repr

/-- The walk goes no further at a missing entry, at a file and at a link that Win32 follows. -/
def ShownKind.EndsWalk (kind : ShownKind) : Prop :=
  kind = .missing ∨ kind = .file ∨ kind = .otherLink

namespace LinkedLayers

variable (S : LinkedLayers) (F : CaseFold)

def kindOf (shown : ResolvedPath) : ShownKind :=
  if !shown.found then .missing
  else
    match S.linkAt shown with
    | .otherLink => .otherLink
    | .relativeSymlink target => .relativeSymlink target
    | .none => if shown.attributeBits.directory then .directory else .file

/-- What the view shows at a text, as a lookup without a cache finds it. -/
def kindAt (text : WideString) : ShownKind := S.kindOf (uncached S.config (namesOfText F text))

theorem resolveText_fresh {cache : Cache} (h : cache.Fresh S.config) (text : WideString) :
    S.kindOf (S.resolveText F text cache).1 = S.kindAt F text ∧
      (S.resolveText F text cache).2.Fresh S.config := by
  have hfresh := resolvePathInternal_fresh h (kMaxRedirectDepth + 1) (namesOfText F text)
  exact ⟨congrArg S.kindOf hfresh.1, hfresh.2⟩

/-- No target that the walk puts into a path has a colon. -/
theorem colon_not_mem_of_kindOf {shown : ResolvedPath} {target : WideString}
    (h : S.kindOf shown = .relativeSymlink target) : kColon ∉ target := by
  unfold kindOf at h
  split at h
  · cases h
  · split at h
    · cases h
    · next target' hlink =>
      injection h with h
      unfold linkAt at hlink
      split at hlink
      · rw [← h]
        exact colon_not_mem_target hlink
      · cases hlink
    · split at h
      · cases h
      · cases h

end LinkedLayers

section

variable {S : LinkedLayers} {F : CaseFold} {finalLink : FinalLink}

/-- One turn of the loop, by what the lookup shows. -/
theorem walkThroughLinks_turn (components : List WideString) (hops walked : Nat) (cache : Cache)
    (hwalked : walked < components.length)
    (hlast : finalLink = .keep → walked + 1 < components.length) :
    walkThroughLinks S F finalLink components hops walked cache =
      match S.kindOf (S.resolveText F (joinComponents components (walked + 1)) cache).1 with
      | .relativeSymlink target =>
        if kMaxLinkHops < hops + 1 then
          (none, (S.resolveText F (joinComponents components (walked + 1)) cache).2)
        else walkThroughLinks S F finalLink (spliceLinkTarget components walked target)
          (hops + 1) 0 (S.resolveText F (joinComponents components (walked + 1)) cache).2
      | .directory => walkThroughLinks S F finalLink components hops (walked + 1)
          (S.resolveText F (joinComponents components (walked + 1)) cache).2
      | _ =>
        (some components, (S.resolveText F (joinComponents components (walked + 1)) cache).2) := by
  have hnot : ¬(walked + 1 = components.length ∧ finalLink = .keep) := by
    intro h
    have hlt := hlast h.2
    omega
  rw [walkThroughLinks, if_pos hwalked, if_neg hnot]
  unfold LinkedLayers.kindOf
  cases S.resolveText F (joinComponents components (walked + 1)) cache with
  | mk shown cache' =>
    dsimp only
    by_cases hfound : !shown.found
    · simp only [if_pos hfound]
    · simp only [if_neg hfound]
      cases S.linkAt shown with
      | otherLink => rfl
      | relativeSymlink target => rfl
      | none => cases shown.attributeBits.directory <;> rfl

theorem walkThroughLinks_end (components : List WideString) (hops walked : Nat) (cache : Cache)
    (h : walked = components.length ∨ (walked + 1 = components.length ∧ finalLink = .keep)) :
    walkThroughLinks S F finalLink components hops walked cache = (some components, cache) := by
  rw [walkThroughLinks]
  rcases h with hall | hlast
  · rw [if_neg (by omega)]
  · rw [if_pos (by omega), if_pos hlast]

/-- The rule for the loop: what holds before each turn gives what holds of the components that
the walk ends with.  The measure is the links left, then the components left. -/
theorem walkThroughLinks_ensures {I : List WideString → Nat → Cache → Prop}
    {Q : List WideString → Prop}
    (hend : ∀ components walked cache, I components walked cache →
      (walked = components.length ∨ (walked + 1 = components.length ∧ finalLink = .keep)) →
        Q components)
    (hstop : ∀ components walked cache, I components walked cache → walked < components.length →
      (S.kindOf (S.resolveText F (joinComponents components (walked + 1)) cache).1).EndsWalk →
        Q components)
    (hdirectory : ∀ components walked cache, I components walked cache →
      walked < components.length → (finalLink = .keep → walked + 1 < components.length) →
      S.kindOf (S.resolveText F (joinComponents components (walked + 1)) cache).1 = .directory →
        I components (walked + 1)
          (S.resolveText F (joinComponents components (walked + 1)) cache).2)
    (hlink : ∀ components walked cache target, I components walked cache →
      S.kindOf (S.resolveText F (joinComponents components (walked + 1)) cache).1
          = .relativeSymlink target →
        I (spliceLinkTarget components walked target) 0
          (S.resolveText F (joinComponents components (walked + 1)) cache).2)
    {components result : List WideString} {hops walked : Nat} {cache : Cache}
    (h : I components walked cache) (hwalked : walked ≤ components.length)
    (hresult : (walkThroughLinks S F finalLink components hops walked cache).1 = some result) :
    Q result := by
  by_cases hover : walked = components.length ∨
      (walked + 1 = components.length ∧ finalLink = .keep)
  · rw [walkThroughLinks_end components hops walked cache hover] at hresult
    injection hresult with hresult
    exact hresult ▸ hend components walked cache h hover
  rw [not_or, not_and] at hover
  have hlt : walked < components.length := by omega
  have hlast : finalLink = .keep → walked + 1 < components.length := by
    intro hkeep
    have hne : walked + 1 ≠ components.length := fun heq => hover.2 heq hkeep
    omega
  rw [walkThroughLinks_turn components hops walked cache hlt hlast] at hresult
  have hstops := hstop components walked cache h hlt
  split at hresult
  · next target hkind =>
    split at hresult
    · cases hresult
    · exact walkThroughLinks_ensures hend hstop hdirectory hlink
        (hlink components walked cache target h hkind) (Nat.zero_le _) hresult
  · next hkind =>
    exact walkThroughLinks_ensures hend hstop hdirectory hlink
      (hdirectory components walked cache h hlt hlast hkind) hlt hresult
  · next hother hdir =>
    injection hresult with hresult
    rw [← hresult]
    apply hstops
    unfold ShownKind.EndsWalk
    cases hkind : S.kindOf (S.resolveText F (joinComponents components (walked + 1)) cache).1 with
    | missing => exact .inl rfl
    | file => exact .inr (.inl rfl)
    | directory => exact absurd hkind hdir
    | otherLink => exact .inr (.inr rfl)
    | relativeSymlink target => exact absurd hkind (hother target)
termination_by (kMaxLinkHops - hops, components.length - walked)
decreasing_by
  · apply Prod.Lex.left
    omega
  · apply Prod.Lex.right
    omega

/-- The walk ends with plain components. -/
theorem walkThroughLinks_plain {components result : List WideString} {hops walked : Nat}
    {cache : Cache} (h : PlainComponents components) (hwalked : walked ≤ components.length)
    (hresult : (walkThroughLinks S F finalLink components hops walked cache).1 = some result) :
    PlainComponents result := by
  apply walkThroughLinks_ensures (I := fun components _ _ => PlainComponents components)
    (fun _ _ _ h _ => h) (fun _ _ _ h _ _ => h) (fun _ _ _ h _ _ _ => h) ?_ h hwalked hresult
  intro components walked cache target h hkind
  exact plain_spliceLinkTarget h walked (S.colon_not_mem_of_kindOf hkind)

/-- The walk of the components came so far: it has passed directories only. -/
structure WalkedTo (S : LinkedLayers) (F : CaseFold) (finalLink : FinalLink)
    (components : List WideString) (walked : Nat) : Prop where
  le : walked ≤ components.length
  directory : ∀ i < walked, S.kindAt F (joinComponents components (i + 1)) = .directory
  last : ∀ i < walked, finalLink = .keep → i + 1 < components.length

/-- The walk of the components ends here, at no relative link that it follows. -/
structure EndsAt (S : LinkedLayers) (F : CaseFold) (finalLink : FinalLink)
    (components : List WideString) (walked : Nat) : Prop extends
    WalkedTo S F finalLink components walked where
  ends : (walked = components.length ∨ (walked + 1 = components.length ∧ finalLink = .keep)) ∨
    (walked < components.length ∧ (S.kindAt F (joinComponents components (walked + 1))).EndsWalk)

theorem WalkedTo.zero (components : List WideString) : WalkedTo S F finalLink components 0 where
  le := Nat.zero_le _
  directory _ hi := absurd hi (Nat.not_lt_zero _)
  last _ hi := absurd hi (Nat.not_lt_zero _)

theorem WalkedTo.succ {components : List WideString} {walked : Nat}
    (h : WalkedTo S F finalLink components walked) (hwalked : walked < components.length)
    (hlast : finalLink = .keep → walked + 1 < components.length)
    (hkind : S.kindAt F (joinComponents components (walked + 1)) = .directory) :
    WalkedTo S F finalLink components (walked + 1) where
  le := hwalked
  directory i hi := by
    cases Nat.lt_succ_iff_lt_or_eq.mp hi with
    | inl hlt => exact h.directory i hlt
    | inr heq => exact heq ▸ hkind
  last i hi := by
    cases Nat.lt_succ_iff_lt_or_eq.mp hi with
    | inl hlt => exact h.last i hlt
    | inr heq => exact heq ▸ hlast

/-- The walk ends with components that it has walked as they are. -/
theorem walkThroughLinks_endsAt {components result : List WideString} {hops : Nat} {cache : Cache}
    (hcache : cache.Fresh S.config)
    (hresult : (walkThroughLinks S F finalLink components hops 0 cache).1 = some result) :
    ∃ walked, EndsAt S F finalLink result walked := by
  apply walkThroughLinks_ensures
    (I := fun components walked cache =>
      cache.Fresh S.config ∧ WalkedTo S F finalLink components walked)
    (Q := fun result => ∃ walked, EndsAt S F finalLink result walked)
    ?_ ?_ ?_ ?_ ⟨hcache, .zero components⟩ (Nat.zero_le _) hresult
  · intro components walked cache h hend
    exact ⟨walked, h.2, .inl hend⟩
  · intro components walked cache h hlt hkind
    rw [(S.resolveText_fresh F h.1 _).1] at hkind
    exact ⟨walked, h.2, .inr ⟨hlt, hkind⟩⟩
  · intro components walked cache h hlt hlast hkind
    have hfresh := S.resolveText_fresh F h.1 (joinComponents components (walked + 1))
    rw [hfresh.1] at hkind
    exact ⟨hfresh.2, h.2.succ hlt hlast hkind⟩
  · intro components walked cache target h _
    exact ⟨(S.resolveText_fresh F h.1 _).2, .zero _⟩

/-- Components that a walk ends with are walked unchanged.  The induction is on what is left
of that walk. -/
theorem EndsAt.walk_eq {components : List WideString} {fin walked : Nat} {cache : Cache}
    (h : EndsAt S F finalLink components fin) (hops : Nat) (hwalked : walked ≤ fin)
    (hcache : cache.Fresh S.config) :
    (walkThroughLinks S F finalLink components hops walked cache).1 = some components := by
  induction hleft : fin - walked generalizing walked cache with
  | zero =>
    have heq : walked = fin := by omega
    subst heq
    rcases h.ends with hend | ⟨hlt, hkind⟩
    · rw [walkThroughLinks_end components hops walked cache hend]
    · by_cases hkeep : walked + 1 = components.length ∧ finalLink = .keep
      · rw [walkThroughLinks_end components hops walked cache (.inr hkeep)]
      · have hlast : finalLink = .keep → walked + 1 < components.length := by
          intro hk
          have hne : walked + 1 ≠ components.length := fun heq => hkeep ⟨heq, hk⟩
          omega
        rw [walkThroughLinks_turn components hops walked cache hlt hlast,
          (S.resolveText_fresh F hcache _).1]
        rcases hkind with hkind | hkind | hkind
        · rw [hkind]
        · rw [hkind]
        · rw [hkind]
  | succ left ih =>
    have hlt : walked < fin := by omega
    have hfresh := S.resolveText_fresh F hcache (joinComponents components (walked + 1))
    have hle := h.le
    rw [walkThroughLinks_turn components hops walked cache (by omega) (h.last walked hlt),
      hfresh.1, h.directory walked hlt]
    exact ih hlt hfresh.2 (by omega)

/-- No text that the walk looks up is shown as a relative link, unless it has stopped before. -/
def LinkFree (S : LinkedLayers) (F : CaseFold) (finalLink : FinalLink)
    (components : List WideString) : Prop :=
  ∀ i < components.length, (finalLink = .keep → i + 1 < components.length) → ∀ target,
    S.kindAt F (joinComponents components (i + 1)) = .relativeSymlink target →
      ∃ j < i, (S.kindAt F (joinComponents components (j + 1))).EndsWalk

theorem EndsAt.linkFree {components : List WideString} {walked : Nat}
    (h : EndsAt S F finalLink components walked) : LinkFree S F finalLink components := by
  intro i hi hlast target hkind
  rcases Nat.lt_trichotomy i walked with hlt | rfl | hgt
  · rw [h.directory i hlt] at hkind
    cases hkind
  · rcases h.ends with (hall | ⟨hfinal, hkeep⟩) | ⟨_, hends⟩
    · omega
    · have hlt := hlast hkeep
      omega
    · rw [hkind] at hends
      unfold ShownKind.EndsWalk at hends
      simp at hends
  · rcases h.ends with (hall | ⟨hfinal, _⟩) | ⟨_, hends⟩
    · omega
    · omega
    · exact ⟨walked, hgt, hends⟩

end

/-! ## The path of a lookup -/

/-- The components before the stream suffix are names. -/
def CanonicalHost (path : WideString) : Prop :=
  hostText path = [] ∨
    ∀ component ∈ (hostText path).splitOn kBackslash,
      component ≠ [] ∧ component ≠ [kDot] ∧ component ≠ kDotDot

/-- The walk starts with plain components. -/
theorem plain_callerComponents {path : WideString} (h : kDotDot ∉ callerComponents path) :
    PlainComponents ((callerComponents path).filter (· ≠ [kDot])) := by
  intro c hc
  obtain ⟨hmem, hdot⟩ := List.mem_filter.mp hc
  have hparts := mem_splitComponents hmem
  have hnormalized : ∀ u ∈ c, u ∈ normalizePathPreserveCase path := by
    intro u hu
    rw [← hostText_append_streamSuffixOf (normalizePathPreserveCase path)]
    exact List.mem_append_left _ (hparts.2.2 u hu)
  exact
    { ne_nil := hparts.1
      ne_dot := by simpa using hdot
      ne_dotdot := ne_of_mem_of_not_mem hmem h
      noBackslash := hparts.2.1
      noSlash := fun hslash => slash_not_mem_normalized path (hnormalized _ hslash)
      noColon := fun hcolon => colon_not_mem_hostText _ (hparts.2.2 _ hcolon) }

section

variable {components : List WideString} {suffix : WideString}

theorem not_mem_joined (h : PlainComponents components) {u : UInt16} (hu : u ≠ kBackslash)
    (hplain : ∀ c, PlainComponent c → u ∉ c) : u ∉ [kBackslash].intercalate components := by
  intro hmem
  rcases mem_intercalate hmem with hmark | ⟨c, hc, huc⟩
  · exact hu hmark
  · exact hplain c (h c hc) huc

theorem head?_joined (h : PlainComponents components) :
    ([kBackslash].intercalate components).head? ≠ some kBackslash := by
  match components with
  | [] => simp [List.intercalate]
  | c :: rest =>
    have hc := h c List.mem_cons_self
    obtain ⟨tail, htail⟩ := joined_cons c rest
    rw [htail, List.head?_append_of_ne_nil _ hc.ne_nil]
    intro hhead
    exact hc.noBackslash (List.mem_of_mem_head? hhead)

/-- A joined path and the stream suffix of a normalized path are a normalized path. -/
theorem normalizePathPreserveCase_joined (h : PlainComponents components)
    (hsuffix : IsStreamSuffix suffix) (hslash : kSlash ∉ suffix)
    (hlast : suffix.getLast? ≠ some kBackslash) :
    normalizePathPreserveCase ([kBackslash].intercalate components ++ suffix)
      = [kBackslash].intercalate components ++ suffix := by
  apply normalizePathPreserveCase_eq_self
  · rw [List.mem_append, not_or]
    exact ⟨not_mem_joined h (by decide) fun c hc => hc.noSlash, hslash⟩
  · rw [List.head?_append]
    cases hhead : ([kBackslash].intercalate components).head? with
    | some u => simpa [hhead] using head?_joined h
    | none =>
      rcases hsuffix with rfl | ⟨rest, rfl⟩
      · simp
      · simp [kColon, kBackslash]
  · rw [List.getLast?_append]
    cases hend : suffix.getLast? with
    | some u => simpa [hend] using hlast
    | none => simpa using getLast?_joined fun c hc => ⟨(h c hc).ne_nil, (h c hc).noBackslash⟩

end

theorem canonicalHost_joined {components : List WideString} {suffix : WideString}
    (h : PlainComponents components) (hsuffix : IsStreamSuffix suffix) :
    CanonicalHost ([kBackslash].intercalate components ++ suffix) := by
  have hcolon := not_mem_joined h (u := kColon) (by decide) fun c hc => hc.noColon
  rw [CanonicalHost, hostText_append hcolon hsuffix]
  cases components with
  | nil => exact .inl (by simp [List.intercalate])
  | cons c rest =>
    rw [splitOn_joined h (List.cons_ne_nil _ _)]
    exact .inr fun d hd => ⟨(h d hd).ne_nil, (h d hd).ne_dot, (h d hd).ne_dotdot⟩

section

variable {S : LinkedLayers} {F : CaseFold} {finalLink : FinalLink} {path : WideString}

/-- A walk without a `..` component gives the components that its loop ends with. -/
theorem viewPathThroughLinks_found {cache : Cache} {view : ViewPath}
    (hpath : kDotDot ∉ callerComponents path)
    (hview : (viewPathThroughLinks S F path finalLink cache).1 = .found view) :
    ∃ components,
      (walkThroughLinks S F finalLink ((callerComponents path).filter (· ≠ [kDot])) 0 0 cache).1
        = some components ∧
      view.path = [kBackslash].intercalate components ++
        streamSuffixOf (normalizePathPreserveCase path) ∧
      view.normalized = normalizePath F view.path := by
  have hdots : ¬(callerComponents path).contains kDotDot = true := by simpa using hpath
  unfold viewPathThroughLinks at hview
  dsimp only at hview
  rw [if_neg hdots] at hview
  cases hwalk : walkThroughLinks S F finalLink
      ((callerComponents path).filter (· ≠ [kDot])) 0 0 cache with
  | mk ended cache' =>
    rw [hwalk] at hview
    cases ended with
    | none => cases hview
    | some components =>
      injection hview with hview
      rw [← hview]
      exact ⟨components, rfl, by rw [joinComponents_all], rfl⟩

/-- The components of a view path are those that the loop ended with. -/
theorem callerComponents_joined {components : List WideString} (h : PlainComponents components)
    (path : WideString) :
    callerComponents ([kBackslash].intercalate components ++
        streamSuffixOf (normalizePathPreserveCase path)) = components ∧
      normalizePathPreserveCase ([kBackslash].intercalate components ++
          streamSuffixOf (normalizePathPreserveCase path))
        = [kBackslash].intercalate components ++
          streamSuffixOf (normalizePathPreserveCase path) := by
  have hsuffix := isStreamSuffix_streamSuffixOf (normalizePathPreserveCase path)
  have hwhole := hostText_append_streamSuffixOf (normalizePathPreserveCase path)
  have hcolon := not_mem_joined h (u := kColon) (by decide) fun c hc => hc.noColon
  have hslash : kSlash ∉ streamSuffixOf (normalizePathPreserveCase path) := by
    intro hmem
    apply slash_not_mem_normalized path
    rw [← hwhole]
    exact List.mem_append_right _ hmem
  have hlast : (streamSuffixOf (normalizePathPreserveCase path)).getLast? ≠ some kBackslash := by
    intro hmark
    apply getLast?_normalized path
    rw [← hwhole, List.getLast?_append, hmark]
    rfl
  have hself := normalizePathPreserveCase_joined h hsuffix hslash hlast
  refine ⟨?_, hself⟩
  rw [callerComponents, hself, hostText_append hcolon hsuffix, splitComponents_joined h]

end

/-- For any layers, any reparse data in them and any cache, the walk of a path without a `..`
component ends.  Where it gives a path, that path is made of names before the caller's stream
suffix; and where the cache is fresh, the view shows no relative link on it that the walk
follows, and a walk of it gives it back.  A `..` at the root of a target stays at the root. -/
theorem viewPathThroughLinks_canonical (S : LinkedLayers) (F : CaseFold) {path : WideString}
    (finalLink : FinalLink) (cache : Cache) (hpath : kDotDot ∉ callerComponents path) :
    (∀ view, (viewPathThroughLinks S F path finalLink cache).1 = .found view →
      CanonicalHost view.path ∧
      streamSuffixOf view.path = streamSuffixOf (normalizePathPreserveCase path) ∧
      (cache.Fresh S.config →
        LinkFree S F finalLink (callerComponents view.path) ∧
        ∀ later : Cache, later.Fresh S.config →
          (viewPathThroughLinks S F view.path finalLink later).1 = .found view)) ∧
    (∀ (parent entered rest : List WideString) (steps : Nat),
      (entered.foldl enterComponent parent).length ≤ steps →
        (entered ++ (List.replicate steps kDotDot ++ rest)).foldl enterComponent parent
          = rest.foldl enterComponent []) := by
  refine ⟨?_, fun parent entered rest steps h => foldl_enterComponent_root h rest⟩
  intro view hview
  obtain ⟨components, hwalk, hviewPath, hnormalized⟩ := viewPathThroughLinks_found hpath hview
  have hplain := walkThroughLinks_plain (plain_callerComponents hpath) (Nat.zero_le _) hwalk
  have hsuffix := isStreamSuffix_streamSuffixOf (normalizePathPreserveCase path)
  have hcolon := not_mem_joined hplain (u := kColon) (by decide) fun c hc => hc.noColon
  obtain ⟨hcomponents, hself⟩ := callerComponents_joined hplain path
  refine ⟨?_, ?_, ?_⟩
  · rw [hviewPath]
    exact canonicalHost_joined hplain hsuffix
  · rw [hviewPath, streamSuffixOf_append hcolon hsuffix]
  · intro hcache
    obtain ⟨fin, hends⟩ := walkThroughLinks_endsAt hcache hwalk
    rw [hviewPath, hcomponents]
    refine ⟨hends.linkFree, fun later hlater => ?_⟩
    have hnodots : ¬components.contains kDotDot = true := by
      intro hmem
      exact (hplain kDotDot (by simpa using hmem)).ne_dotdot rfl
    have hfilter : components.filter (· ≠ [kDot]) = components := by
      rw [List.filter_eq_self]
      intro c hc
      simpa using (hplain c hc).ne_dot
    have hagain := hends.walk_eq 0 (Nat.zero_le _) hlater
    unfold viewPathThroughLinks
    dsimp only
    rw [hcomponents, hself, if_neg hnodots, hfilter]
    cases hrun : walkThroughLinks S F finalLink components 0 0 later with
    | mk ended cache' =>
      rw [hrun] at hagain
      obtain rfl : ended = some components := hagain
      dsimp only
      rw [joinComponents_all, streamSuffixOf_append hcolon hsuffix, ← hviewPath, ← hnormalized]

/-- The upper's directory `d`, and beside it the link `l` with the relative target `d`. -/
def linkedUpper : LinkedLayers where
  config := configOf [] (some (.node {} [(['d'], .node {} []), (['l'], .leaf .deadLink)])) []
  reparseData _ _ p :=
    if p = [['l']] then
      some ([0x0C, 0, 0, 0xA0, 14, 0, 0, 0, 0, 0, 2, 0, 0, 0, 0, 0, 1, 0, 0, 0] ++ [0x64, 0])
    else none

theorem namesOfText_unit {F : CaseFold} {u : UInt16} (hu : normalizePath F [u] = [u])
    (hback : u ≠ kBackslash) : namesOfText F [u] = [decodeUtf16 [u]] := by
  rw [namesOfText, hu, splitComponents_plain (by simp) (by simpa using hback.symm)]
  rfl

theorem kindAt_linkedUpper_l : linkedUpper.kindAt asciiLower [0x6C] = .relativeSymlink [0x64] := by
  rw [LinkedLayers.kindAt, namesOfText_unit (by decide) (by decide)]
  decide

theorem kindAt_linkedUpper_d : linkedUpper.kindAt asciiLower [0x64] = .directory := by
  rw [LinkedLayers.kindAt, namesOfText_unit (by decide) (by decide)]
  decide

theorem walk_linkedUpper :
    (walkThroughLinks linkedUpper asciiLower .follow [[0x6C]] 0 0 {}).1 = some [[0x64]] := by
  have hfirst := linkedUpper.resolveText_fresh asciiLower (fresh_empty _) [0x6C]
  have hsecond := linkedUpper.resolveText_fresh asciiLower hfirst.2 [0x64]
  have hsplice : spliceLinkTarget [[0x6C]] 0 [0x64] = [[0x64]] := by
    have hunit : [0x64].map (fun u => if u = kSlash then kBackslash else u) = [0x64] := by decide
    unfold spliceLinkTarget resolveRelativeTarget
    dsimp only
    rw [hunit, splitComponents_plain (by decide) (by decide)]
    decide
  rw [kindAt_linkedUpper_l] at hfirst
  rw [kindAt_linkedUpper_d] at hsecond
  have hl : joinComponents [[0x6C]] (0 + 1) = [0x6C] := rfl
  have hd : joinComponents [[0x64]] (0 + 1) = [0x64] := rfl
  rw [walkThroughLinks_turn _ _ _ _ (by decide) (by simp), hl, hfirst.1]
  dsimp only
  rw [if_neg (by decide), hsplice, walkThroughLinks_turn _ _ _ _ (by decide) (by simp), hd,
    hsecond.1]
  dsimp only
  rw [walkThroughLinks_end _ _ _ _ (.inl (by decide))]

theorem callerComponents_l : callerComponents [0x6C] = [[0x6C]] := by
  have hhost : hostText (normalizePathPreserveCase [0x6C]) = [0x6C] := by decide
  rw [callerComponents, hhost, splitComponents_plain (by decide) (by decide)]

/-- The link's path gives the directory's. -/
theorem viewPathThroughLinks_linkedUpper :
    (viewPathThroughLinks linkedUpper asciiLower [0x6C] .follow {}).1
      = .found { path := [0x64], normalized := [0x64] } := by
  have hwalk := walk_linkedUpper
  unfold viewPathThroughLinks
  dsimp only
  rw [callerComponents_l, if_neg (by decide)]
  have hfilter : [[0x6C]].filter (· ≠ [kDot]) = [[0x6C]] := by decide
  rw [hfilter]
  cases hrun : walkThroughLinks linkedUpper asciiLower .follow [[0x6C]] 0 0 {} with
  | mk ended cache =>
    rw [hrun] at hwalk
    obtain rfl : ended = some [[0x64]] := hwalk
    have hview : joinComponents [[0x64]] 1 ++ streamSuffixOf (normalizePathPreserveCase [0x6C])
        = [0x64] := by decide
    have hnormalized : normalizePath asciiLower [0x64] = [0x64] := by decide
    dsimp only [List.length_singleton]
    rw [hview, hnormalized]

theorem viewPathThroughLinks_canonical_linkedUpper :
    CanonicalHost [0x64] ∧
      (viewPathThroughLinks linkedUpper asciiLower [0x64] .follow {}).1
        = .found { path := [0x64], normalized := [0x64] } := by
  have hpath : kDotDot ∉ callerComponents [0x6C] := by
    rw [callerComponents_l]
    decide
  have hview := (viewPathThroughLinks_canonical linkedUpper asciiLower .follow {} hpath).1 _
    viewPathThroughLinks_linkedUpper
  exact ⟨hview.1, (hview.2.2 (fresh_empty _)).2 {} (fresh_empty _)⟩

end LayerMount
