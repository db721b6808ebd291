import LayerMount.OpenRead

/-!
# The logical content under a copy-up

The view has the content that a read hands out, and a read takes the record of a copy-up
only from the upper.  The logical content counts a shell as its origin wherever it is, in a
lower that was once an upper too (`logicalAt`).

A copy-up keeps the logical content of every path but one.  It copies the data of a lower's
shell and not its origin's, so it keeps that content exactly when the two are the same
(`copyUp_keeps_logical_iff`).
-/

namespace LayerMount

open Lib

variable {e f g : Engine} {d p q : RelPath} {n : Name} {id : FileId}

/-- The kind and logical content at a path.  What is in a link's target is outside the
layers, and no record counts there. -/
def logicalAt (e : Engine) (p : RelPath) : Option Shown :=
  let r := (resolvePath e.config p {}).1
  if r.found then (e.resolvedAt r).map (shownOf e.files !isInLinkTarget e.config p.dropLast)
  else none

/-- A lower's own shell shows at `p`, and its data is not its origin's. -/
structure ShowsShell (e : Engine) (p : RelPath) (id : FileId) : Prop where
  source : (resolvePath e.config p {}).1.source = .lower
  place : e.resolvedAt (resolvePath e.config p {}).1 = some (.leaf (.file id))
  unlinked : isInLinkTarget e.config p.dropLast = false
  unfilled : logicalData e.files id ≠ (fileAt e.files id).data

/-! ## The logical view and the view -/

theorem ShowsShell.ne_nil (h : ShowsShell e p id) : p ≠ [] := by
  rintro rfl
  cases h.source

theorem ShowsShell.found (h : ShowsShell e p id) : (resolvePath e.config p {}).1.found = true := by
  rcases resolvePath_cases e.noRedirect h.ne_nil with ⟨source, i, a, hsource, hhit⟩ | hmiss
  · rw [hhit]
    simp [ResolvedPath.found, hitAt, hsource]
  · have hsource := h.source
    rw [hmiss] at hsource
    cases hsource

theorem ShowsShell.viewAt (h : ShowsShell e p id) :
    viewAt e p = some (.file (fileAt e.files id).data) := by
  rw [LayerMount.viewAt, if_pos h.found, h.place, h.source]
  simp [shownOf]

theorem ShowsShell.logicalAt (h : ShowsShell e p id) :
    logicalAt e p = some (.file (logicalData e.files id)) := by
  rw [LayerMount.logicalAt, if_pos h.found, h.place, h.unlinked]
  simp [shownOf]

/-- An entry of the upper is in a link's target exactly when a link of the upper is above it. -/
theorem isInLinkTarget_of_upper (hheld : (e.upperAt (d ++ [n])).isSome = true) :
    isInLinkTarget e.config d = false ↔ findLinkOnPath e.upperLayer d = .none := by
  refine ⟨findLinkOnPath_of_unlinked, fun hnone => ?_⟩
  rw [Engine.upperLayer, findLinkOnPath_eq_none_iff readable_ofTree,
    ← @slotOf_stop e.upper none e.files] at hnone
  refine isInLinkTarget_of_held (n := n) ?_ hnone
  right
  rw [List.dropLast_concat]
  cases hd : e.upperAt d with
  | some t => rfl
  | none =>
    rw [Engine.upperAt, placeAt_append, ← Engine.upperAt, hd, placeAt_none] at hheld
    cases hheld

theorem upperAt_of_source (hp : p ≠ [])
    (hsource : (resolvePath e.config p {}).1.source = .upper) :
    e.upperAt p = e.resolvedAt (resolvePath e.config p {}).1 := by
  rcases resolvePath_cases e.noRedirect hp with ⟨source, i, a, -, hhit⟩ | hmiss
  · rw [hhit] at hsource ⊢
    obtain rfl : source = .upper := hsource
    rfl
  · rw [hmiss] at hsource
    cases hsource

/-- Where no lower's shell shows, the logical view is the view. -/
theorem logicalAt_eq_viewAt (h : ∀ id, ¬ShowsShell e p id) : logicalAt e p = viewAt e p := by
  by_cases hp : p = []
  · subst hp
    have hlink := isInLinkTarget_root e
    have hroot : (resolvePath e.config [] {}).1 = resolveRoot e.config := rfl
    rw [viewAt_nil, logicalAt, List.dropLast_nil, hlink, hroot]
    simp [resolveRoot, ResolvedPath.found, Engine.resolvedAt, Engine.upperAt]
  obtain ⟨d, n, rfl⟩ : ∃ d n, p = d ++ [n] := ⟨_, _, (List.dropLast_append_getLast hp).symm⟩
  rw [logicalAt, viewAt, List.dropLast_concat]
  split
  · next hfound =>
    cases hplace : e.resolvedAt (resolvePath e.config (d ++ [n]) {}).1 with
    | none => rfl
    | some t =>
      rw [Option.map_some, Option.map_some]
      cases hsource : (resolvePath e.config (d ++ [n]) {}).1.source with
      | none => simp [ResolvedPath.found, hsource] at hfound
      | upper =>
        have hheld : (e.upperAt (d ++ [n])).isSome = true := by
          rw [upperAt_of_source (by simp) hsource, hplace]
          rfl
        have hiff := isInLinkTarget_of_upper hheld
        refine congrArg some (shownOf_record fun _ => ?_)
        cases hlink : isInLinkTarget e.config d <;> simp_all
      | lower =>
        cases hlink : isInLinkTarget e.config d with
        | true => simp
        | false =>
          cases t with
          | node v children => rfl
          | leaf v =>
            cases v with
            | marker => rfl
            | deadLink => rfl
            | file id =>
              have hdata : logicalData e.files id = (fileAt e.files id).data := by
                by_contra hne
                exact h id ⟨hsource, hplace, by rwa [List.dropLast_concat], hne⟩
              simp [shownOf, hdata]
  · rfl

/-- What the upper holds is no lower's shell. -/
theorem not_showsShell_of_held (hheld : (e.upperAt p).isSome = true) (id : FileId) :
    ¬ShowsShell e p id := by
  intro h
  have hsource := source_of_held h.viewAt hheld
  rw [h.source] at hsource
  cases hsource

/-! ## Raised states -/

theorem Engine.Wf.logicalData (he : e.Wf) (hr : Raised e g) (hid : id < e.files.length) :
    logicalData g.files id = logicalData e.files id := by
  rw [LayerMount.logicalData, LayerMount.logicalData, hr.fileAt hid]
  cases horigin : (fileAt e.files id).metacopy with
  | none => rfl
  | some origin => exact congrArg FileObj.data (hr.fileAt (he.origin_lt horigin))

/-- A path that is in no upper finds the same entry of the same lower. -/
theorem resolvedAt_of_raised (hr : Raised e g) (hp : p ≠ []) (hfree : g.upperAt p = none) :
    (resolvePath g.config p {}).1.source = (resolvePath e.config p {}).1.source ∧
      ((resolvePath e.config p {}).1.source = .lower →
        g.resolvedAt (resolvePath g.config p {}).1
          = e.resolvedAt (resolvePath e.config p {}).1) := by
  rw [resolvePath_eq g hp, resolvePath_eq e hp, hr.exact p hp hfree]
  cases showAt e p with
  | none => exact ⟨rfl, fun h => by cases h⟩
  | some x =>
    refine ⟨rfl, fun hlower => ?_⟩
    obtain ⟨lowerIndex, attributes, shown⟩ := x
    cases lowerIndex with
    | none => cases hlower
    | some i => simp [resultOf, hitAt, Engine.resolvedAt, Engine.lowerAt, hr.lowers]

theorem showsShell_congr (he : e.Wf) (hr : Raised e g) (hp : p ≠ [])
    (hfree : g.upperAt p = none) (id : FileId) : ShowsShell g p id ↔ ShowsShell e p id := by
  have hresolved := resolvedAt_of_raised hr hp hfree
  have hsame : e.resolvedAt (resolvePath e.config p {}).1 = some (.leaf (.file id)) →
      (viewAt e p).isSome = true →
        isInLinkTarget g.config p.dropLast = isInLinkTarget e.config p.dropLast ∧
        logicalData g.files id = logicalData e.files id ∧
        fileAt g.files id = fileAt e.files id := by
    intro hplace hshows
    have hid : id < e.files.length := he.resolvedAt _ [] id (by rw [hplace]; rfl)
    have hparent : p.dropLast = [] ∨ ShowsDirectory e p.dropLast := by
      apply parent_shows (n := p.getLast hp)
      rwa [List.dropLast_append_getLast hp]
    exact ⟨isInLinkTarget_congr hparent fun r _ => hr.view r, he.logicalData hr hid, hr.fileAt hid⟩
  constructor
  · intro h
    have hsource := hresolved.1.symm.trans h.source
    have hplace := (hresolved.2 hsource).symm.trans h.place
    obtain ⟨hlink, hlogical, hfile⟩ := hsame hplace (by rw [← hr.view, h.viewAt]; rfl)
    refine ⟨hsource, hplace, hlink ▸ h.unlinked, ?_⟩
    rw [← hlogical, ← hfile]
    exact h.unfilled
  · intro h
    obtain ⟨hlink, hlogical, hfile⟩ := hsame h.place (by rw [h.viewAt]; rfl)
    refine ⟨hresolved.1.trans h.source, (hresolved.2 h.source).trans h.place,
      hlink.trans h.unlinked, ?_⟩
    rw [hlogical, hfile]
    exact h.unfilled

/-- What a copy-up has not put into the upper keeps its logical content. -/
theorem logicalAt_of_free (he : e.Wf) (hr : Raised e g) (hp : p ≠ [])
    (hfree : g.upperAt p = none) : logicalAt g p = logicalAt e p := by
  by_cases h : ∃ id, ShowsShell e p id
  · obtain ⟨id, h⟩ := h
    have hid : id < e.files.length := he.resolvedAt _ [] id (by rw [h.place]; rfl)
    rw [h.logicalAt, ((showsShell_congr he hr hp hfree id).mpr h).logicalAt,
      he.logicalData hr hid]
  · rw [not_exists] at h
    rw [logicalAt_eq_viewAt h, ← hr.view]
    exact logicalAt_eq_viewAt fun id hg => h id ((showsShell_congr he hr hp hfree id).mp hg)

/-! ## Copy-ups -/

/-- A copy-up of `p` keeps the logical content of every path and the names of every listing.
When it succeeds the upper supplies the path; when it fails the upper has gained at most
the way to the parent. -/
structure KeepsLogicalView {α : Type} (e g : Engine) (p : RelPath) (r : Except NtStatus α) :
    Prop extends LeavesClean e g p r where
  logical : ∀ q, logicalAt g q = logicalAt e q
  listing : ∀ d, ∃ before after, mergeDirectoryAcrossLayers e.config d = .ok before ∧
    mergeDirectoryAcrossLayers g.config d = .ok after ∧
    ∀ n, ':' ∉ n → (after.lookup n).isSome = (before.lookup n).isSome
  supplied : ∀ a, r = .ok a → (resolvePath g.config p {}).1.source = .upper

/-- What the upper holds is what shows. -/
theorem shown_of_held {v : Shown} {t : Tree} (hp : p ≠ []) (hview : viewAt e p = some v)
    (ht : e.upperAt p = some t) : ∃ record, v = shownOf e.files record t := by
  have hplace := upperAt_of_source hp (source_of_held hview (by rw [ht]; rfl))
  rw [viewAt, ← hplace, ht] at hview
  split at hview
  · exact ⟨_, (Option.some.inj hview).symm⟩
  · cases hview

theorem viewAt_of_kind {v : Shown} (hp : p ≠ []) (hview : viewAt e p = some v) :
    (placeKind (e.upperAt p) = .directory → v = .directory) ∧
      (placeKind (e.upperAt p) = .link → v = .link) := by
  cases ht : e.upperAt p with
  | none => exact ⟨nofun, nofun⟩
  | some t =>
    obtain ⟨record, rfl⟩ := shown_of_held hp hview ht
    rw [shownOf_eq_directory_iff, shownOf_eq_link_iff, placeKind]
    cases treeKind t <;> decide

/-- A failed copy-up keeps the logical view, and one that succeeds does so exactly where no
lower's shell shows at `p`. -/
def KeepsUnlessShell {α : Type} (e g : Engine) (p : RelPath) (r : Except NtStatus α) : Prop :=
  (∀ status, r = .error status → KeepsLogicalView e g p r) ∧
    ∀ a, r = .ok a → (KeepsLogicalView e g p r ↔ ∀ id, ¬ShowsShell e p id)

/-- A path that now holds a directory, or is at or behind a link, showed no lower's shell. -/
theorem not_showsShell_of_brought (hview : ∀ r, viewAt g r = viewAt e r)
    (hkind : placeKind (g.upperAt q) = .directory ∨
      ∃ a, a ≠ [] ∧ a <+: q ∧ placeKind (g.upperAt a) = .link) (id : FileId) :
    ¬ShowsShell e q id := by
  intro h
  have hshown : viewAt g q = some (.file (fileAt e.files id).data) := (hview q).trans h.viewAt
  rcases hkind with hdir | ⟨a, ha, hpre, hlink⟩
  · cases (viewAt_of_kind h.ne_nil hshown).1 hdir
  · have habove : viewAt e a = some .link := by
      rw [← hview]
      cases hview' : viewAt g a with
      | none =>
        obtain ⟨b, rfl⟩ := hpre
        rw [viewAt_none_below ha hview'] at hshown
        cases hshown
      | some v => rw [(viewAt_of_kind ha hview').2 hlink]
    rcases List.prefix_concat_iff.mp
      ((List.dropLast_append_getLast h.ne_nil).symm ▸ hpre) with heq | hpre
    · have hfile := h.viewAt
      rw [heq, List.dropLast_append_getLast h.ne_nil, hfile] at habove
      cases habove
    · have hunlinked := h.unlinked
      rw [isInLinkTarget_of_link ha hpre habove] at hunlinked
      cases hunlinked

theorem logicalAt_of_view (hview : ∀ r, viewAt g r = viewAt e r)
    (he : ∀ id, ¬ShowsShell e q id) (hg : ∀ id, ¬ShowsShell g q id) :
    logicalAt g q = logicalAt e q := by
  rw [logicalAt_eq_viewAt hg, hview, logicalAt_eq_viewAt he]

/-- A path keeps its logical content, but the one that a copy-up has brought to the upper. -/
theorem logicalAt_of_copyUp {α : Type} {r : Except NtStatus α} (he : e.Wf) (hr : Raised e g)
    (hclean : LeavesClean e g p r) (hq : q ≠ p ∨ ∃ status, r = .error status) :
    logicalAt g q = logicalAt e q := by
  by_cases hroot : q = []
  · exact logicalAt_of_view hr.view (fun _ h => h.ne_nil hroot) fun _ h => h.ne_nil hroot
  cases hg : g.upperAt q with
  | none => exact logicalAt_of_free he hr hroot hg
  | some t =>
    have hsome : (g.upperAt q).isSome = true := by rw [hg]; rfl
    refine logicalAt_of_view hr.view ?_ (not_showsShell_of_held hsome)
    cases heq : e.upperAt q with
    | some u => exact not_showsShell_of_held (by rw [heq]; rfl)
    | none =>
      apply not_showsShell_of_brought hr.view
      rcases hq with hne | ⟨status, hstatus⟩
      · exact hclean.brings q hne heq hsome
      · exact brings_of_gains (hclean.gains status hstatus) heq hsome

theorem CopiedUp.keepsUnlessShell {α : Type} {r : Except NtStatus α} (h : CopiedUp e g p r)
    (he : e.Wf) : KeepsUnlessShell e g p r := by
  have hkeeps : (∀ q, logicalAt g q = logicalAt e q) → KeepsLogicalView e g p r :=
    fun hlogical => ⟨h.toLeavesClean, hlogical, h.listing, h.supplied⟩
  refine ⟨fun status hr => hkeeps fun q =>
    logicalAt_of_copyUp he h.raised h.toLeavesClean (.inr ⟨status, hr⟩), ?_⟩
  intro a hr
  have hheld := not_showsShell_of_held (h.holds a hr)
  constructor
  · intro hsame id hshell
    have hlogical := hsame.logical p
    rw [logicalAt_eq_viewAt hheld, h.raised.view, hshell.viewAt, hshell.logicalAt] at hlogical
    exact hshell.unfilled (by simpa using hlogical.symm)
  · intro hnone
    refine hkeeps fun q => ?_
    by_cases hq : q = p
    · exact hq ▸ logicalAt_of_view h.raised.view hnone hheld
    · exact logicalAt_of_copyUp he h.raised h.toLeavesClean (.inl hq)

end LayerMount
