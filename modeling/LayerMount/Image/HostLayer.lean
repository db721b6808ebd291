import LayerMount.Ancestry
import LayerMount.Image.Placed
import LayerMount.PathResolver

/-!
# Trees of the host as layers

The layer of a tree without links: what the probes of the engine find in it, by folded
paths.  No entry of such a layer has an opaque stream or a redirect record, so a layer hides
what is below it by whiteout markers and by files alone (`hasWhitedOut_ofHost`,
`lowersBelow_ofHost`).
-/

namespace LayerMount

open Lib

variable {H : Host} {t : HostDir H} {p q d : RelPath} {n : Name}

/-! ## The layer of a tree -/

/-- The attributes of an entry that the engine reads. -/
def layerAttributes (e : HostEntry) : Attributes where
  directory := e.isDirectory
  readOnly := e.attributes &&& 0x1 ≠ 0
  archive := e.attributes &&& kFileAttributeArchive ≠ 0
  sparse := e.attributes &&& 0x200 ≠ 0

/-- What a probe of a folded path finds. -/
def HostDir.probe (t : HostDir H) (p : RelPath) : Probe :=
  if p = [] then .entry { attributes := { directory := true } }
  else
    match t.entries.find? fun e => H.foldPath e.path = p with
    | some e => .entry { attributes := layerAttributes e }
    | none => .missing

theorem probe_nil : t.probe [] = .entry { attributes := { directory := true } } := rfl

/-- A probe of a folded path. -/
theorem probe_foldPath (hp : p ≠ []) :
    t.probe (H.foldPath p)
      = match t.find p with
        | some e => .entry { attributes := layerAttributes e }
        | none => .missing := by
  rw [HostDir.probe, if_neg (by simpa using hp)]
  rfl

theorem probe_ne_missing_iff (hp : p ≠ []) :
    t.probe p ≠ .missing ↔ ∃ e ∈ t.entries, H.foldPath e.path = p := by
  rw [HostDir.probe, if_neg hp]
  cases hfind : t.entries.find? fun e => H.foldPath e.path = p with
  | none =>
    rw [List.find?_eq_none] at hfind
    simpa using hfind
  | some e =>
    have hpath := List.find?_some hfind
    rw [decide_eq_true_eq] at hpath
    simp only [ne_eq, reduceCtorEq, not_false_eq_true, true_iff]
    exact ⟨e, List.mem_of_find?_eq_some hfind, hpath⟩

def childNames (t : HostDir H) (p : RelPath) : List Name :=
  t.entries.filterMap fun e =>
    if (H.foldPath e.path).dropLast = p then (H.foldPath e.path).getLast? else none

theorem mem_childNames : n ∈ childNames t p ↔ ∃ e ∈ t.entries, H.foldPath e.path = p ++ [n] := by
  simp only [childNames, List.mem_filterMap]
  apply exists_congr
  intro e
  apply and_congr_right
  intro _
  constructor
  · intro h
    split at h
    · rename_i hdrop
      rw [← hdrop]
      exact (List.dropLast_append_getLast? n h).symm
    · cases h
  · intro h
    rw [h]
    simp

def Layer.ofHost (t : HostDir H) : Layer where
  get := t.probe
  scan p := .ok (childNames t p)
  sidecarOpaque _ := false
  parent_directory := by
    intro p n _ h
    rw [probe_ne_missing_iff (by simp)] at h
    obtain ⟨e, he, hpath⟩ := h
    right
    by_cases hp : p = []
    · rw [hp]
      exact ⟨_, probe_nil, rfl⟩
    · have hfolded : H.foldPath p = p := by
        have hfold := congrArg H.foldPath hpath
        rw [H.foldPath_foldPath, H.foldPath_append, hpath] at hfold
        exact (List.append_inj' hfold.symm rfl).1
      have hdir : t.HasDir p := by
        apply HostDir.hasDir_of_above he
        · rw [hfolded, hpath]
          exact List.prefix_append p [n]
        · rw [hfolded, hpath]
          simp
      rcases hdir with hnil | ⟨x, hx, hxdir⟩
      · exact absurd hnil hp
      · refine ⟨{ attributes := layerAttributes x }, ?_, hxdir⟩
        rw [← hfolded, probe_foldPath hp, hx]
  mem_scan := by
    intro p names h n _
    rw [← Except.ok.inj h, mem_childNames, probe_ne_missing_iff (by simp)]
  get_dot := by
    intro p h
    rw [probe_ne_missing_iff (by simp)] at h
    obtain ⟨e, he, hpath⟩ := h
    obtain ⟨d, n, hsnoc⟩ := (t.ok e he).exists_snoc
    rw [hsnoc, H.foldPath_append, H.foldPath_singleton] at hpath
    have hdot := (List.cons.inj (List.append_inj' hpath rfl).2).1
    have hname := H.foldName_eq_dots (k := 1) hdot
    exact absurd hname ((t.ok e he).archiveNames n (by simp [hsnoc])).ne_dot

theorem get_ofHost (p : RelPath) : (Layer.ofHost t).get p = t.probe p := rfl

theorem readable_ofHost : (Layer.ofHost t).Readable where
  get := by
    intro p
    rw [get_ofHost, HostDir.probe]
    split
    · simp
    · split <;> simp
  tag := by
    intro p e he _ hreparse
    rw [get_ofHost, HostDir.probe] at he
    split at he
    · rw [← Probe.entry.inj he] at hreparse
      cases hreparse
    · split at he
      · rw [← Probe.entry.inj he] at hreparse
        cases hreparse
      · cases he
  scan := fun _ => ⟨_, rfl⟩

/-- The kind of the component at a folded path. -/
theorem componentKind_ofHost (hp : p ≠ []) :
    componentKindInLayer (Layer.ofHost t) (H.foldPath p)
      = match t.find p with
        | some e => if e.isDirectory then .directory else .file
        | none => .missing := by
  rw [componentKindInLayer, get_ofHost, probe_foldPath hp]
  cases t.find p with
  | none => rfl
  | some e =>
    cases hdir : e.isDirectory <;> simp [LayerEntry.kind, layerAttributes, hdir]

/-- No component is a link. -/
theorem componentKind_ne_link : componentKindInLayer (Layer.ofHost t) p ≠ .link := by
  rw [componentKindInLayer, get_ofHost, HostDir.probe]
  split
  · simp
  · simp
  · rename_i e he
    have hreparse : e.attributes.reparsePoint = false := by
      split at he
      · rw [← Probe.entry.inj he]
      · split at he
        · rw [← Probe.entry.inj he]
          rfl
        · cases he
    unfold LayerEntry.kind
    rw [hreparse]
    cases e.attributes.directory <;> simp

theorem walk_stop_ne_link (d : RelPath) :
    (walkToFirstNonDirectory (Layer.ofHost t) d).stop ≠ .link := by
  induction d using List.reverseRecOn with
  | nil => simp [walk_nil]
  | append_singleton d n ih =>
    rw [walk_snoc readable_ofHost]
    split
    · exact ih
    · split
      · simp
      · rw [ne_eq, walkStopAt_eq_link_iff]
        exact componentKind_ne_link

theorem endsAtLinkOrUnreadable_ofHost (d : RelPath) :
    endsAtLinkOrUnreadable (walkToFirstNonDirectory (Layer.ofHost t) d).stop = false := by
  rw [← Bool.not_eq_true, endsAtLinkOrUnreadable_iff readable_ofHost]
  exact walk_stop_ne_link d

theorem hasLinkUnderHigherLayerEntry_ofHost (c : LayerConfig) (i : Nat) (d : RelPath) :
    hasLinkUnderHigherLayerEntry c (Layer.ofHost t) i d = false := by
  rw [hasLinkUnderHigherLayerEntry, decide_eq_false (walk_stop_ne_link d), Bool.false_and]

/-! ## Whiteouts -/

theorem foldPath_getWhiteoutFileName (d : RelPath) (n : Name) :
    H.foldPath (getWhiteoutFileName (d ++ [n])) = H.foldPath d ++ [whiteoutName (H.foldName n)] := by
  rw [getWhiteoutFileName_append, H.foldPath_append, H.foldPath_singleton, H.foldName_whiteoutName]

theorem hasWhiteout_ofHost (d : RelPath) (n : Name) :
    hasWhiteout (Layer.ofHost t) (H.foldPath (d ++ [n])) = true ↔
      (t.find (getWhiteoutFileName (d ++ [n]))).isSome = true := by
  rw [H.foldPath_append, H.foldPath_singleton, hasWhiteout_snoc readable_ofHost,
    ← foldPath_getWhiteoutFileName, get_ofHost, probe_foldPath (by simp)]
  cases t.find (getWhiteoutFileName (d ++ [n])) with
  | none => simp
  | some e => simp [walk_stop_ne_link]

/-- The path or one above it has a whiteout marker beside it. -/
def Whited (t : HostDir H) (p : RelPath) : Prop :=
  ∃ q, q ≠ [] ∧ q <+: p ∧ (t.find (getWhiteoutFileName q)).isSome = true

theorem whited_nil : ¬Whited t [] := by
  rintro ⟨q, hq, hpre, _⟩
  exact hq (List.prefix_nil.mp hpre)

theorem whited_snoc : Whited t (d ++ [n]) ↔
    Whited t d ∨ (t.find (getWhiteoutFileName (d ++ [n]))).isSome = true := by
  constructor
  · rintro ⟨q, hq, hpre, hfind⟩
    rcases List.prefix_concat_iff.mp hpre with rfl | hpre
    · exact Or.inr hfind
    · exact Or.inl ⟨q, hq, hpre, hfind⟩
  · rintro (⟨q, hq, hpre, hfind⟩ | hfind)
    · exact ⟨q, hq, hpre.trans (List.prefix_append d [n]), hfind⟩
    · exact ⟨d ++ [n], by simp, List.prefix_rfl, hfind⟩

theorem anyWhiteout_ofHost (d : RelPath) :
    anyDirectoryUpToRoot false (hasWhiteout (Layer.ofHost t)) (H.foldPath d) = true ↔
      Whited t d := by
  induction d using List.reverseRecOn with
  | nil =>
    have hroot : anyDirectoryUpToRoot false (hasWhiteout (Layer.ofHost t)) (H.foldPath []) = false :=
      rfl
    rw [hroot]
    exact iff_of_false Bool.false_ne_true whited_nil
  | append_singleton d n ih =>
    have hself := hasWhiteout_ofHost (t := t) d n
    rw [H.foldPath_append, H.foldPath_singleton] at hself ⊢
    rw [anyDirectoryUpToRoot_snoc, Bool.or_eq_true, ih, hself, whited_snoc]

theorem hasWhitedOut_ofHost (d : RelPath) (n : Name) :
    (hasWhiteout (Layer.ofHost t) (H.foldPath (d ++ [n])) ||
      hasWhitedOutAncestorInLayer (Layer.ofHost t) (H.foldPath (d ++ [n]))) = true ↔
      Whited t (d ++ [n]) := by
  rw [Bool.or_eq_true, hasWhiteout_ofHost, hasWhitedOutAncestorInLayer, ← H.foldPath_dropLast,
    List.dropLast_concat, anyWhiteout_ofHost, whited_snoc, or_comm]

/-! ## Files and opaque markers -/

/-- A file is at the path or above it. -/
def Blocked (t : HostDir H) (d : RelPath) : Prop :=
  ∃ q x, q <+: d ∧ t.find q = some x ∧ x.isDirectory = false

theorem blocked_nil : ¬Blocked t [] := by
  rintro ⟨q, x, hpre, hfind, _⟩
  rw [List.prefix_nil.mp hpre, HostDir.find_nil] at hfind
  cases hfind

theorem blocked_snoc : Blocked t (d ++ [n]) ↔
    Blocked t d ∨ ∃ x, t.find (d ++ [n]) = some x ∧ x.isDirectory = false := by
  constructor
  · rintro ⟨q, x, hpre, hfind, hfile⟩
    rcases List.prefix_concat_iff.mp hpre with rfl | hpre
    · exact Or.inr ⟨x, hfind, hfile⟩
    · exact Or.inl ⟨q, x, hpre, hfind, hfile⟩
  · rintro (⟨q, x, hpre, hfind, hfile⟩ | ⟨x, hfind, hfile⟩)
    · exact ⟨q, x, hpre.trans (List.prefix_append d [n]), hfind, hfile⟩
    · exact ⟨d ++ [n], x, List.prefix_rfl, hfind, hfile⟩

theorem walk_stop_ofHost (d : RelPath) :
    (walkToFirstNonDirectory (Layer.ofHost t) (H.foldPath d)).stop ≠ .none ↔ Blocked t d := by
  induction d using List.reverseRecOn with
  | nil => exact iff_of_false (fun h => h rfl) blocked_nil
  | append_singleton d n ih =>
    have hkind := componentKind_ofHost (t := t) (p := d ++ [n]) (by simp)
    rw [H.foldPath_append, H.foldPath_singleton] at hkind ⊢
    rw [walk_snoc readable_ofHost, blocked_snoc, ← ih]
    by_cases hstop : (walkToFirstNonDirectory (Layer.ofHost t) (H.foldPath d)).stop ≠ .none
    · rw [if_pos hstop]
      exact iff_of_true hstop (Or.inl hstop)
    · rw [if_neg hstop, hkind]
      cases hfind : t.find (d ++ [n]) with
      | none => simp [walkStopAt, hstop]
      | some x => cases hdir : x.isDirectory <;> simp [walkStopAt, hstop, hdir]

/-- No directory of the tree has an opaque marker file. -/
def NoOpaqueMarker (t : HostDir H) : Prop := ∀ d, t.find (d ++ [kOpaqueMarkerFile]) = none

theorem foldName_kOpaqueMarkerFile : H.foldName kOpaqueMarkerFile = kOpaqueMarkerFile := by
  have hascii : ∀ c ∈ kOpaqueMarkerFile, H.fold c = c := by
    intro c hc
    have hall : kOpaqueMarkerFile.all (fun x => x.toNat < 128 ∧ x.toLower = x) = true := by decide
    have hlow := of_decide_eq_true (List.all_eq_true.mp hall c hc)
    rw [H.fold_ascii c hlow.1, hlow.2]
  rw [Host.foldName, List.map_congr_left (g := id) hascii, List.map_id]

theorem isOpaqueInLayer_ofHost (h : NoOpaqueMarker t) (d : RelPath) :
    isOpaqueInLayer (Layer.ofHost t) (H.foldPath d) = false := by
  have hmarker : markerFileExists (Layer.ofHost t) (H.foldPath d ++ [kOpaqueMarkerFile]) = false := by
    have hpath : H.foldPath (d ++ [kOpaqueMarkerFile]) = H.foldPath d ++ [kOpaqueMarkerFile] := by
      rw [H.foldPath_append, H.foldPath_singleton, foldName_kOpaqueMarkerFile]
    rw [markerFileExists, ← hpath, get_ofHost, probe_foldPath (by simp), h d]
    rfl
  have hmeta : hasOpaqueMetadata (Layer.ofHost t) (H.foldPath d) = false := by
    rw [hasOpaqueMetadata, get_ofHost, HostDir.probe]
    split
    · rename_i e he
      split at he
      · rw [← Probe.entry.inj he]
        rfl
      · split at he
        · rw [← Probe.entry.inj he]
          rfl
        · cases he
    · rfl
  rw [isOpaqueInLayer, holdsOpaqueMarker, hmeta, hmarker]
  rfl

theorem hasOpaqueSelfOrAncestor_ofHost (h : NoOpaqueMarker t) (d : RelPath) :
    hasOpaqueSelfOrAncestorInLayer (Layer.ofHost t) (H.foldPath d) = false := by
  unfold hasOpaqueSelfOrAncestorInLayer
  induction d using List.reverseRecOn with
  | nil =>
    have hroot := isOpaqueInLayer_ofHost h []
    rw [H.foldPath_nil] at hroot ⊢
    simp [anyDirectoryUpToRoot, hroot]
  | append_singleton d n ih =>
    have hself := isOpaqueInLayer_ofHost h (d ++ [n])
    rw [H.foldPath_append, H.foldPath_singleton] at hself ⊢
    rw [anyDirectoryUpToRoot_snoc, ih, hself]
    rfl

/-- Without opaque markers only a file hides what the layers below have. -/
theorem lowersBelow_ofHost (h : NoOpaqueMarker t) (d : RelPath) :
    lowersBelow (Layer.ofHost t) (H.foldPath d) = .visible ↔ ¬Blocked t d := by
  rw [lowersBelow, hasOpaqueSelfOrAncestor_ofHost h, if_neg Bool.false_ne_true,
    hasNonDirectoryOrLinkSelfOrAncestorInLayer, ← walk_stop_ofHost]
  by_cases hstop : (walkToFirstNonDirectory (Layer.ofHost t) (H.foldPath d)).stop ≠ .none
  · simp [hstop]
  · simp [hstop]

end LayerMount
