import LayerMount.TreeView

/-!
# Lookups in trees

A lookup with an empty cache gives what the slots of the trees show
(`resolvePath_eq`), and so does the view (`viewAt_eq`).  Two mounts that agree along
a path give the same result there (`LayerMount.ViewFrame`).
-/

namespace LayerMount

open Lib

variable {files files' : List FileObj} {e e' : Engine} {p q d : RelPath} {n : Name}

theorem Engine.sound (e : Engine) : e.config.Sound := sound_ofTrees e.files e.upper e.lowers

theorem Engine.noRedirect (e : Engine) : e.config.NoRedirect :=
  noRedirect_ofTrees e.files e.upper e.lowers

/-! ## What a lookup accepts -/

theorem isInLinkTarget_eq (e : Engine) (d : RelPath) :
    isInLinkTarget e.config d = (slotsAt e d).any fun s => s.stop = .link := by
  have hcor := corresponds_slots e d
  rw [Bool.eq_iff_iff, isInLinkTarget_iff e.sound]
  generalize liveSlots e.config d = l, slotsAt e d = l' at hcor
  induction hcor with
  | nil => simp
  | @cons s t l l' hst _ ih =>
    have hlink : SlotInLink s ↔ t.stop = .link := by
      obtain ⟨hl, rfl⟩ := hst
      rw [SlotInLink, hl, slotOf_stop e.files]
    rw [List.any_cons, Bool.or_eq_true, ← ih, decide_eq_true_eq, ← hlink]
    simp

theorem stop_of_mem_cut {t : TreeSlot} (ht : t ∈ (treeOverlay e.files).cut (treeStack e)) :
    t.stop = .none := by
  have hroot : ∀ i (lowers : List Place), ∀ t ∈ lowerStackFrom i lowers, t.stop = .none := by
    intro i lowers
    induction lowers generalizing i with
    | nil => simp [lowerStackFrom]
    | cons o rest ih => simpa [lowerStackFrom] using ih (i + 1)
  have hmem : ∀ slots : List TreeSlot, t ∈ (treeOverlay e.files).cut slots → t ∈ slots := by
    intro slots
    induction slots with
    | nil => simp [Overlay.cut]
    | cons s rest ih =>
      intro h
      rw [Overlay.cut] at h
      split at h
      · simp_all
      · rcases List.mem_cons.mp h with rfl | h
        · simp
        · simp [ih h]
  rcases List.mem_cons.mp (hmem _ ht) with rfl | h
  · rfl
  · exact hroot 0 _ t h

/-- A lookup accepts a path that passes name by name from the roots. -/
theorem isResolvablePath_eq (e : Engine) (hp : p ≠ []) :
    isResolvablePath e.config p
      = (!isRootSidecarPath p && passes e.files ((treeOverlay e.files).cut (treeStack e)) p) := by
  induction p using List.reverseRecOn with
  | nil => exact absurd rfl hp
  | append_singleton d n ih =>
    have hsafe : isSafeRelativePath (d ++ [n])
        = ((d.isEmpty || isSafeRelativePath d) && (!n.contains ':' && n ≠ ['.', '.'])) := by
      cases d <;> simp [isSafeRelativePath, Bool.and_assoc]
    rw [passes_snoc, isResolvablePath, hsafe, nameShown]
    have hany := isInLinkTarget_eq e d
    rw [slotsAt, Overlay.live] at hany
    rw [← hany]
    by_cases hd : d = []
    · subst hd
      have hnone : isInLinkTarget e.config [] = false := by
        rw [isInLinkTarget_eq, List.any_eq_false]
        intro t ht
        simp [stop_of_mem_cut ht]
      rw [hnone]
      cases hw : isWhiteoutName n <;>
        simp [isReservedOverlayPath, parentOfFirstMarkerSegment, hw, passes, Bool.and_comm]
    · have ih := ih hd
      rw [isResolvablePath] at ih
      rw [isRootSidecarPath_snoc hd]
      have hne : d.isEmpty = false := by simpa using hd
      rw [hne, Bool.false_or]
      cases hroot : isRootSidecarPath d with
      | true => simp [isReservedOverlayPath, isRootSidecarPath_snoc hd, hroot]
      | false =>
        rw [hroot, Bool.not_false, Bool.true_and] at ih
        rw [Bool.not_false, Bool.true_and, ← ih]
        simp only [isReservedOverlayPath, isRootSidecarPath_snoc hd, hroot,
          parentOfFirstMarkerSegment_snoc, Bool.false_eq_true, if_false]
        cases hpar : parentOfFirstMarkerSegment d with
        | none =>
          cases hw : isWhiteoutName n <;> simp [hne, Bool.and_assoc]
        | some m =>
          -- below a marker's name in a link's target every name is accepted
          by_cases hm : isInLinkTarget e.config m = true
          · have hd' : isInLinkTarget e.config d = true := by
              obtain ⟨r, rfl⟩ := prefix_of_parentOfFirstMarkerSegment hpar
              rw [isInLinkTarget_eq] at hm ⊢
              obtain ⟨t, ht, hstop⟩ := List.any_eq_true.mp hm
              have hin := inLink_slotsAt e m ⟨t, ht, by simpa using hstop⟩
              rw [slotsAt, Overlay.live_append]
              exact (hin.walk r).any
            cases isSafeRelativePath d <;> simp [hd', hm, Bool.and_comm]
          · simp [hm]

/-! ## What a lookup gives -/

/-- The result of a lookup that found an entry. -/
def hitAt (p : RelPath) (source : LayerSource) (lowerIndex : Option Nat)
    (attributes : Attributes) : ResolvedPath :=
  { absolutePath := some p, source, lowerIndex, attributes := some attributes }

theorem findInLowersFrom_cases (c : LayerConfig) (p : RelPath) (lowers : List Layer) (i : Nat) :
    (∃ k a, findInLowersFrom c p i lowers = hitAt p .lower (some k) a) ∨
      findInLowersFrom c p i lowers = {} := by
  induction lowers generalizing i with
  | nil => exact .inr rfl
  | cons l rest ih =>
    rw [findInLowersFrom]
    split
    · exact .inr rfl
    · split
      · exact .inr rfl
      · split
        · exact .inr rfl
        · split
          · exact .inl ⟨i, _, rfl⟩
          · split
            · exact .inr rfl
            · exact ih (i + 1)

/-- A whiteout of the upper at the path or above it. -/
def whitedOut (c : LayerConfig) (p : RelPath) : Bool :=
  anyDirectoryUpToRoot false (hasWhiteout c.upper) p

/-- A lookup finds an entry at its own path, or says whether the upper has a
whiteout for it. -/
theorem resolvePath_cases {c : LayerConfig} (hred : c.NoRedirect) (hp : p ≠ []) :
    (∃ source i a, source ≠ .none ∧ (resolvePath c p {}).1 = hitAt p source i a) ∨
      (resolvePath c p {}).1 = { isWhiteout := isResolvablePath c p && whitedOut c p } := by
  have hne : p.isEmpty = false := by simpa using hp
  rw [resolvePath, resolvePathInternal]
  simp only [hne, Bool.false_eq_true, if_false]
  cases hres : isResolvablePath c p with
  | false => exact .inr rfl
  | true =>
    have hget0 : Cache.get {} p = (none, {}) := rfl
    simp only [Bool.not_true, Bool.false_eq_true, if_false, hget0]
    split
    · rename_i entry hentry
      rw [hred _ _ hentry]
      exact .inl ⟨.upper, none, entry.attributes, by decide, rfl⟩
    · obtain ⟨d, n, rfl⟩ : ∃ d n, p = d ++ [n] :=
        ⟨_, _, (List.dropLast_append_getLast hp).symm⟩
      have hwhited : whitedOut c (d ++ [n])
          = (hasWhiteout c.upper (d ++ [n]) || hasWhitedOutAncestorInLayer c.upper (d ++ [n])) := by
        rw [whitedOut, anyDirectoryUpToRoot_snoc, hasWhitedOutAncestorInLayer,
          List.dropLast_concat, Bool.or_comm]
      simp only [hidingInUpper, upperAncestorHiding, hwhited]
      cases hasWhiteout c.upper (d ++ [n]) with
      | true => exact .inr rfl
      | false =>
        cases hasWhitedOutAncestorInLayer c.upper (d ++ [n]) with
        | true => exact .inr rfl
        | false =>
          cases lowersBelow c.upper (d ++ [n]).dropLast with
          | hiddenByOpaqueMarker => exact .inr rfl
          | hiddenByNonDirectoryOrLink => exact .inr rfl
          | visible =>
            have hlow := findInLowersFrom_cases c (d ++ [n]) c.lowers 0
            simp only [Bool.false_eq_true, if_false, findInLowers, List.drop_zero]
            rcases hlow with ⟨k, a, hhit⟩ | hmiss
            · rw [hhit]
              exact .inl ⟨.lower, some k, a, by decide, rfl⟩
            · rw [hmiss]
              exact .inr rfl

/-- A marker of the upper for a component of the path. -/
def whitesAlong (s : TreeSlot) : RelPath → Bool
  | [] => false
  | n :: q => (treeOverlay []).whites s n || whitesAlong (s.child n) q

theorem whitesAlong_snoc (s : TreeSlot) (d : RelPath) (n : Name) :
    whitesAlong s (d ++ [n])
      = (whitesAlong s d || (treeOverlay []).whites (d.foldl TreeSlot.child s) n) := by
  induction d generalizing s with
  | nil => simp [whitesAlong]
  | cons m d ih => simp [whitesAlong, ih, Bool.or_assoc]

theorem whitedOut_eq (e : Engine) (p : RelPath) :
    whitedOut e.config p = whitesAlong { lowerIndex := none, sub := e.upper } p := by
  induction p using List.reverseRecOn with
  | nil => rfl
  | append_singleton d n ih =>
    rw [whitesAlong_snoc, ← ih, whitedOut, anyDirectoryUpToRoot_snoc]
    congr 1
    exact @hasWhiteout_ofTree e.files e.upper none d n

/-- The result that a shown entry gives, or the lack of one. -/
def resultOf (p : RelPath) (whited : Bool) : Option TreeEntry → ResolvedPath
  | some t =>
    hitAt p (if t.lowerIndex.isNone then .upper else .lower) t.lowerIndex t.attributes
  | none => { isWhiteout := whited }

/-- Corresponding slots of a path show the same entry, and its tree is where a
lookup's result points. -/
theorem look_corresponds {slots : List LayerSlot} {trees : List TreeSlot}
    (hcor : List.Forall₂ (Corresponds e) slots trees) (hpath : ∀ s ∈ slots, s.path = p) :
    (layersOverlay.look slots = none ∧ (treeOverlay e.files).look trees = none) ∨
      ∃ (i : Option Nat) (t : Tree), placeAt (treeAt e i) p = some t ∧
        slotOf (treeAt e i) i p ∈ trees ∧
        layersOverlay.look slots
          = some ⟨if i.isNone then .upper else .lower, i, (layerEntry e.files t).attributes⟩ ∧
        (treeOverlay e.files).look trees
          = some ⟨i, (layerEntry e.files t).attributes,
              shownOf e.files (i.isNone && (slotOf (treeAt e i) i p).stop ≠ .link) t⟩ := by
  rcases (corresponds_simulates e).look (p := []) hcor with
    hnone | ⟨s, hs, t, ht, ⟨hl, rfl⟩, hsome, hlook, hlook'⟩
  · exact .inl hnone
  · right
    have hp : s.path = p := hpath s hs
    rw [hlook, hlook']
    subst hp
    cases hplace : placeAt (treeAt e s.lowerIndex) s.path with
    | none => simp [layersOverlay, hl, get_ofTree, hplace, probeOf] at hsome
    | some t =>
      refine ⟨s.lowerIndex, t, hplace, ht, ?_, ?_⟩
      · simp [layersOverlay, hl, get_ofTree, hplace, probeOf, LayerSlot.source]
      · simp [treeOverlay, hplace]

theorem look_slotsAt (e : Engine) (p : RelPath) :
    (layersOverlay.look (liveSlots e.config p) = none ∧
        (treeOverlay e.files).look (slotsAt e p) = none) ∨
      ∃ (i : Option Nat) (t : Tree), placeAt (treeAt e i) p = some t ∧
        slotOf (treeAt e i) i p ∈ slotsAt e p ∧
        layersOverlay.look (liveSlots e.config p)
          = some ⟨if i.isNone then .upper else .lower, i, (layerEntry e.files t).attributes⟩ ∧
        (treeOverlay e.files).look (slotsAt e p)
          = some ⟨i, (layerEntry e.files t).attributes,
              shownOf e.files (i.isNone && (slotOf (treeAt e i) i p).stop ≠ .link) t⟩ :=
  look_corresponds (corresponds_slots e p) fun _ hs => (readable_of_mem_liveSlots e.sound hs).2

theorem showAt_eq (e : Engine) (hp : p ≠ []) :
    showAt e p = if isResolvablePath e.config p then (treeOverlay e.files).look (slotsAt e p)
      else none := by
  rw [isResolvablePath_eq e hp, showAt, showFrom]
  cases isRootSidecarPath p <;> rfl

/-- A lookup with an empty cache gives what the trees show. -/
theorem resolvePath_eq (e : Engine) (hp : p ≠ []) :
    (resolvePath e.config p {}).1
      = resultOf p (isResolvablePath e.config p && whitedOut e.config p) (showAt e p) := by
  obtain ⟨d, n, rfl⟩ : ∃ d n, p = d ++ [n] := ⟨_, _, (List.dropLast_append_getLast hp).symm⟩
  have hshown := resolvePath_shown (d := d) (n := n) e.sound e.noRedirect
  rw [showAt_eq e hp]
  rcases resolvePath_cases e.noRedirect hp with ⟨source, i, a, hsource, hhit⟩ | hmiss
  · rw [hhit] at hshown ⊢
    have hfound : (hitAt (d ++ [n]) source i a).shown = some ⟨source, i, a⟩ := by
      simp [hitAt, ResolvedPath.shown, ResolvedPath.found, hsource]
    rw [hfound] at hshown
    split at hshown
    · rename_i hres
      rw [if_pos hres]
      rcases look_slotsAt e (d ++ [n]) with ⟨hnone, -⟩ | ⟨k, t, -, -, hlook, hlook'⟩
      · rw [hnone] at hshown
        cases hshown
      · rw [hlook, Option.some.injEq, ShownEntry.mk.injEq] at hshown
        obtain ⟨rfl, rfl, rfl⟩ := hshown
        rw [hlook']
        rfl
    · cases hshown
  · rw [hmiss] at hshown ⊢
    have hlook : (if isResolvablePath e.config (d ++ [n]) = true then
        (treeOverlay e.files).look (slotsAt e (d ++ [n])) else none) = none := by
      split
      · rename_i hres
        rw [if_pos hres] at hshown
        rcases look_slotsAt e (d ++ [n]) with ⟨-, hnone⟩ | ⟨k, t, -, -, hlook, -⟩
        · exact hnone
        · rw [hlook] at hshown
          cases hshown
      · rfl
    rw [hlook]
    rfl

theorem shownOf_record {r r' : Bool} {t : Tree} (h : treeKind t = .file → r = r') :
    shownOf files r t = shownOf files r' t := by
  cases t with
  | node d children => rfl
  | leaf v =>
    cases v with
    | file id => rw [h rfl]
    | deadLink => rfl
    | marker => rfl

/-- A copy-up record counts at a file of the upper unless a link is above it. -/
theorem record_of_file {t : Tree} (hplace : e.upperAt (d ++ [n]) = some t)
    (hfile : treeKind t = .file) :
    (findLinkOnPath e.upperLayer d = .none) ↔ (slotOf e.upper none (d ++ [n])).stop ≠ .link := by
  rw [Engine.upperLayer, findLinkOnPath_eq_none_iff readable_ofTree, slotOf_snoc, TreeSlot.child,
    slotIn, slotOf_stop e.files, slotOf_sub, ← placeAt_snoc]
  rw [Engine.upperAt] at hplace
  have hkind : placeKind (some t) = .file := by simp [placeKind, hfile]
  split
  · rename_i hstop
    simp [hplace, hkind, walkStopAt, hstop]
  · exact Iff.rfl

/-- The view shows the kind and content of what the trees show. -/
theorem viewAt_eq (e : Engine) (hp : p ≠ []) : viewAt e p = (showAt e p).map TreeEntry.shown := by
  rw [viewAt, resolvePath_eq e hp, showAt_eq e hp]
  split
  · rcases look_slotsAt e p with ⟨-, hnone⟩ | ⟨i, t, hplace, -, -, hlook⟩
    · rw [hnone]
      rfl
    · rw [hlook]
      cases i with
      | none =>
        have hplace' : e.upperAt p = some t := hplace
        obtain ⟨d, n, rfl⟩ : ∃ d n, p = d ++ [n] :=
          ⟨_, _, (List.dropLast_append_getLast hp).symm⟩
        simp only [resultOf, hitAt, ResolvedPath.found, Engine.resolvedAt, hplace',
          Option.isNone_none, if_true, Option.isSome_some, ne_eq, reduceCtorEq,
          not_false_eq_true, decide_true, Bool.and_true, Option.map_some, Bool.true_and,
          List.dropLast_concat, Option.some.injEq]
        apply shownOf_record
        intro hfile
        rw [decide_eq_decide, record_of_file hplace' hfile]
        rfl
      | some k =>
        have hplace' : e.lowerAt k p = some t := hplace
        simp [resultOf, hitAt, ResolvedPath.found, Engine.resolvedAt, hplace']
  · rfl

theorem viewAt_nil (e : Engine) : viewAt e [] = e.upper.map (shownOf e.files true) := by
  have hroot : (resolvePath e.config [] {}).1 = resolveRoot e.config := rfl
  have hlink : findLinkOnPath e.upperLayer [] = .none := rfl
  rw [viewAt, hroot]
  simp [resolveRoot, ResolvedPath.found, Engine.resolvedAt, Engine.upperAt, hlink]

end LayerMount
