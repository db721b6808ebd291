import LayerMount.CompletedDelete
import LayerMount.FailedDelete
import LayerMount.Handles

/-!
# A new entry in the view

A create puts an entry at a free name of an upper directory.  What the lowers hold there
shows through a new directory unless the directory is opaque, so a create looks at the
lowers alone, without the whiteout of the path (`NewName`).  A directory that is new, and
opaque where a lower has one, lists nothing (`merge_empty_of_new`).

A create also changes the contexts, so the states of its steps are compared by their
layers (`SameLayers`).
-/

namespace LayerMount

open Lib

variable {e f g : Engine} {d p q : RelPath} {n m : Name}

/-! ## Layers that hold the same -/

structure SameLayers (e g : Engine) : Prop where
  entries : ∀ r, entryAt g.upper r = entryAt e.upper r
  lowers : g.lowers = e.lowers
  files : g.files = e.files

theorem SameLayers.refl (e : Engine) : SameLayers e e := ⟨fun _ => rfl, rfl, rfl⟩

theorem SameLayers.trans (h : SameLayers e f) (h' : SameLayers f g) : SameLayers e g :=
  ⟨fun r => (h'.entries r).trans (h.entries r), h'.lowers.trans h.lowers,
    h'.files.trans h.files⟩

theorem Untouched.sameLayers (h : Untouched e g) : SameLayers e g :=
  ⟨fun r => by rw [h.upper], h.lowers, h.files⟩

theorem SameEntries.sameLayers (h : SameEntries e g) : SameLayers e g :=
  ⟨h.entries, h.lowers, h.files⟩

/-- The state `e` with the layers of `g`. -/
def Engine.withLayersOf (e g : Engine) : Engine :=
  { e with upper := g.upper, lowers := g.lowers, files := g.files }

theorem SameLayers.sameEntries (h : SameLayers e g) : SameEntries e (e.withLayersOf g) :=
  ⟨h.entries, h.lowers, h.files, rfl, rfl, rfl⟩

theorem viewAt_withLayersOf (e g : Engine) (r : RelPath) :
    viewAt (e.withLayersOf g) r = viewAt g r := by
  have hconfig : (e.withLayersOf g).config = g.config := rfl
  have hresolved : ∀ x, (e.withLayersOf g).resolvedAt x = g.resolvedAt x := fun _ => rfl
  have hlayer : (e.withLayersOf g).upperLayer = g.upperLayer := rfl
  have hfiles : (e.withLayersOf g).files = g.files := rfl
  rw [viewAt, viewAt, hconfig, hresolved, hlayer, hfiles]

theorem SameLayers.viewAt (h : SameLayers e g) (r : RelPath) : viewAt g r = viewAt e r := by
  rw [← viewAt_withLayersOf e g]
  exact h.sameEntries.viewAt r

theorem SameLayers.agreeAlong (h : SameLayers e g) (r : RelPath) :
    AgreeAlong id e.files g.files r (rootSlot e) (rootSlot g) :=
  (h.sameEntries.sameAlong r).agreeAlong

theorem SameLayers.isSome_upperAt (h : SameLayers e g) (r : RelPath) :
    (g.upperAt r).isSome = (e.upperAt r).isSome :=
  isSome_upperAt_congr (h.entries r)

theorem leadsToDirectory_congr {r : RelPath} (hentry : entryAt g.upper r = entryAt e.upper r) :
    leadsToDirectory (g.upperAt r) = leadsToDirectory (e.upperAt r) := by
  rw [entryAt, entryAt] at hentry
  rw [Engine.upperAt, Engine.upperAt]
  cases hg : placeAt g.upper r with
  | none =>
    cases he : placeAt e.upper r with
    | none => rfl
    | some t => rw [hg, he] at hentry; cases hentry
  | some t =>
    cases he : placeAt e.upper r with
    | none => rw [hg, he] at hentry; cases hentry
    | some u =>
      rw [hg, he] at hentry
      cases t <;> cases u <;> simp_all [PathTree.entry, leadsToDirectory]

theorem SameLayers.leadsToDirectory (h : SameLayers e g) (r : RelPath) :
    leadsToDirectory (g.upperAt r) = leadsToDirectory (e.upperAt r) :=
  leadsToDirectory_congr (h.entries r)

/-! ## Whiteouts of the upper -/

theorem hasUpperWhiteout_eq (e : Engine) (d : RelPath) (n : Name) :
    hasUpperWhiteout e (d ++ [n])
      = (decide ((slotOf e.upper none d).stop ≠ .link) &&
          (e.upperAt (d ++ [whiteoutName n])).isSome) := by
  have hwhites := @hasWhiteout_ofTree e.files e.upper none d n
  rw [hasUpperWhiteout, Engine.upperLayer, hwhites, Engine.upperAt, placeAt_snoc]
  simp [treeOverlay]

theorem whites_eq (e : Engine) (d : RelPath) (n : Name) :
    (treeOverlay []).whites (slotOf e.upper none d) n = hasUpperWhiteout e (d ++ [n]) := by
  rw [hasUpperWhiteout_eq, Engine.upperAt, placeAt_snoc]
  simp [treeOverlay]

theorem SameLayers.hasUpperWhiteout (h : SameLayers e g) :
    hasUpperWhiteout g (d ++ [n]) = hasUpperWhiteout e (d ++ [n]) := by
  rw [hasUpperWhiteout_eq, hasUpperWhiteout_eq, h.isSome_upperAt,
    (h.agreeAlong d).slotOf_stop]

/-- An entry that comes or goes at the name leaves the whiteout of the name. -/
theorem PutsAt.hasUpperWhiteout {t : Place} (h : PutsAt e g (d ++ [n]) t)
    (hn : PlainAt e d n) : hasUpperWhiteout g (d ++ [n]) = hasUpperWhiteout e (d ++ [n]) := by
  rw [← whites_eq, ← whites_eq, h.whites_parent hn]

theorem slotOf_stop_of_entries {c : RelPath}
    (h : ∀ a, a <+: c → entryAt g.upper a = entryAt e.upper a) :
    (slotOf g.upper none c).stop = (slotOf e.upper none c).stop := by
  induction c using List.reverseRecOn with
  | nil => rfl
  | append_singleton c m ih =>
    have hparent := ih fun a ha => h a (ha.trans (List.prefix_append c [m]))
    have hkind := (@node_congr [] _ _ (h (c ++ [m]) (List.prefix_refl _))).1
    rw [slotOf_snoc, slotOf_snoc, TreeSlot.child, TreeSlot.child, slotIn, slotIn, hparent,
      slotOf_sub, slotOf_sub, ← placeAt_snoc, ← placeAt_snoc, hkind]
    split <;> rfl

theorem stop_link_of_kind {a : RelPath} (ha : a ≠ []) (had : a <+: d)
    (hkind : placeKind (e.upperAt a) = .link) : (slotOf e.upper none d).stop = .link := by
  obtain ⟨q, rfl⟩ := had
  cases ht : e.upperAt a with
  | none => rw [ht] at hkind; cases hkind
  | some t =>
    have hk : treeKind t = .link := by
      rw [ht, placeKind] at hkind
      cases hk : treeKind t <;> simp_all
    have hstop := stop_of_link (i := none) ha ht hk
    rw [slotOf_append, stop_foldl_child (by rw [hstop]; decide), hstop]

/-- What a copy-up of the parent gains is no whiteout of the path. -/
theorem Climbs.hasUpperWhiteout (hclimbs : Climbs e g d) :
    hasUpperWhiteout g (d ++ [n]) = hasUpperWhiteout e (d ++ [n]) := by
  have h := hclimbs.gains
  rw [hasUpperWhiteout_eq, hasUpperWhiteout_eq]
  cases hheld : (e.upperAt d).isSome with
  | true =>
    have habove : ∀ a, a <+: d → (e.upperAt a).isSome = true := by
      rintro a ⟨q, rfl⟩
      cases ha : e.upperAt a with
      | some t => rfl
      | none =>
        rw [Engine.upperAt, placeAt_append, ← Engine.upperAt, ha, placeAt_none] at hheld
        cases hheld
    rw [slotOf_stop_of_entries fun a ha => h.kept a (habove a ha)]
    congr 1
    cases hmark : e.upperAt (d ++ [whiteoutName n]) with
    | some t =>
      have hsome : (e.upperAt (d ++ [whiteoutName n])).isSome = true := by rw [hmark]; rfl
      rw [isSome_upperAt_congr (h.kept _ hsome), hmark]
    | none =>
      by_contra hnew
      have hnew : (g.upperAt (d ++ [whiteoutName n])).isSome = true := by
        simpa [Option.isSome_iff_ne_none] using hnew
      rcases h.gained _ hmark hnew with ⟨hpre, -⟩ | ⟨a, ha, -, -, hfree, -⟩
      · exact PutsAt.not_prefix_self hpre
      · have := habove a ha
        rw [hfree] at this
        cases this
  | false =>
    have hfree : e.upperAt (d ++ [whiteoutName n]) = none := by
      have hd : e.upperAt d = none := by simpa using hheld
      rw [Engine.upperAt, placeAt_append, ← Engine.upperAt, hd, placeAt_none]
    rw [hfree, Option.isSome_none, Bool.and_false, Bool.and_eq_false_iff]
    cases hmark : (g.upperAt (d ++ [whiteoutName n])).isSome with
    | false => exact .inr rfl
    | true =>
      left
      rcases h.gained _ hfree hmark with ⟨hpre, -⟩ | ⟨a, ha, -, hne, -, hkind⟩
      · exact absurd hpre PutsAt.not_prefix_self
      · -- the new entries beside the path are behind a link
        have hlink := stop_link_of_kind hne ha hkind
        simp [hlink]

/-! ## Entries that come and go -/

theorem entryAt_putUpper {t : Place} (hlead : LayerMount.leadsToDirectory (e.upperAt d) = true)
    (hdot : n ≠ ['.']) (q : RelPath) :
    entryAt (e.putUpper (d ++ [n]) t).upper (d ++ [n] ++ q) = entryAt t q := by
  rw [entryAt, Engine.putUpper, placeAt_put hlead hdot]
  rfl

theorem SameLayers.puts {t : Place} (h : SameLayers e f)
    (hlead : LayerMount.leadsToDirectory (e.upperAt d) = true) (hdot : n ≠ ['.'])
    (hputs : PutsAt f g (d ++ [n]) t) : SameLayers (e.putUpper (d ++ [n]) t) g where
  entries := by
    intro r
    by_cases hpre : d ++ [n] <+: r
    · obtain ⟨q, rfl⟩ := hpre
      rw [entryAt_putUpper hlead hdot, hputs.upper]
      exact entryAt_putUpper (by rw [h.leadsToDirectory, hlead]) hdot q
    · rw [hputs.upper, entryAt_put_elsewhere hpre, h.entries, Engine.putUpper,
        entryAt_put_elsewhere hpre]
  lowers := hputs.lowers.trans h.lowers
  files := hputs.files.trans h.files

theorem leadsToDirectory_putUpper (t : Place) :
    leadsToDirectory ((e.putUpper (d ++ [n]) t).upperAt d) = leadsToDirectory (e.upperAt d) :=
  leadsToDirectory_congr (entryAt_put_elsewhere PutsAt.not_prefix_self t)

/-- An entry that is put over another. -/
theorem SameLayers.replaces {t t' : Place} (h : SameLayers (e.putUpper (d ++ [n]) t) f)
    (hlead : LayerMount.leadsToDirectory (e.upperAt d) = true) (hdot : n ≠ ['.'])
    (hputs : PutsAt f g (d ++ [n]) t') : SameLayers (e.putUpper (d ++ [n]) t') g := by
  have hlead' : LayerMount.leadsToDirectory ((e.putUpper (d ++ [n]) t).upperAt d) = true := by
    rw [leadsToDirectory_putUpper, hlead]
  have htwice : SameLayers (e.putUpper (d ++ [n]) t')
      ((e.putUpper (d ++ [n]) t).putUpper (d ++ [n]) t') := by
    refine ⟨fun r => ?_, rfl, rfl⟩
    by_cases hpre : d ++ [n] <+: r
    · obtain ⟨q, rfl⟩ := hpre
      rw [entryAt_putUpper hlead' hdot, entryAt_putUpper hlead hdot]
    · simp only [Engine.putUpper, entryAt_put_elsewhere hpre]
  exact htwice.trans (h.puts hlead' hdot hputs)

/-- An entry that was put at a free name and goes again. -/
theorem SameLayers.of_undo {t : Place} (h : SameLayers (e.putUpper p t) f)
    (hfree : e.upperAt p = none) (hputs : PutsAt f g p none) : SameLayers e g where
  entries := by
    intro r
    by_cases hpre : p <+: r
    · obtain ⟨q, rfl⟩ := hpre
      rw [Engine.upperAt] at hfree
      rw [entryAt, entryAt, hputs.upper, placeAt_put_none, placeAt_append, hfree, placeAt_none]
    · rw [hputs.upper, entryAt_put_elsewhere hpre, h.entries, Engine.putUpper,
        entryAt_put_elsewhere hpre]
  lowers := hputs.lowers.trans h.lowers
  files := hputs.files.trans h.files

/-! ## What the lowers hold at a new name -/

/-- Without a whiteout, a name that the view does not show is free in the lowers too. -/
theorem resolveLowerPath_of_unshown (hres : isResolvablePath e.config (d ++ [n]) = true)
    (hview : viewAt e (d ++ [n]) = none) (hwhite : hasUpperWhiteout e (d ++ [n]) = false) :
    resolveLowerPath e.config (d ++ [n]) = {} := by
  have hfree : e.upperAt (d ++ [n]) = none := by
    cases ht : e.upperAt (d ++ [n]) with
    | none => rfl
    | some t => rw [viewAt_of_held (by simp) hres ht] at hview; cases hview
  rw [viewAt_eq e (by simp), showAt_eq e (by simp), if_pos hres, Option.map_eq_none_iff,
    slotsAt_snoc, hfree, Overlay.look] at hview
  have hlook : (treeOverlay e.files).look (lowersOf e d n) = none := by
    by_cases hstop : (slotOf e.upper none d).stop = .none
    · have hcovers : (treeOverlay []).covers (slotIn none .none none) = false := by
        simp [treeOverlay, slotIn, placeKind, walkStopAt, holdsOpaquePlace]
      rw [hstop, lowersUnder, whites_eq, hwhite, hstop, hcovers] at hview
      simpa [treeOverlay, slotIn, lowersOf] using hview
    · rw [lowersOf, lowersAt_of_stop hstop]
      rfl
  rw [resolveLowerPath_eq, hlook, ite_self]
  rfl

theorem covers_of_leaf {i : Option Nat} {stop : WalkStop} {v : Leaf} :
    (treeOverlay []).covers (slotIn i stop (some (.leaf v))) = true := by
  apply covers_of_stop
  rw [slotIn]
  split
  · cases v <;> simp [placeKind, treeKind, walkStopAt]
  · assumption

/-- The lowers show no directory at the name. -/
def NoLowerDirectory (e : Engine) (d : RelPath) (n : Name) : Prop :=
  ∀ s ∈ lowersOf e d n, leadsToDirectory s.sub = false

theorem noLowerDirectory_of_resolve (hres : isResolvablePath e.config (d ++ [n]) = true)
    (h : ((resolveLowerPath e.config (d ++ [n])).found &&
      (resolveLowerPath e.config (d ++ [n])).isDirectory) = false) :
    NoLowerDirectory e d n := by
  have hpair : (lowersOf e d n).Pairwise fun s _ => (treeOverlay e.files).covers s = false :=
    (treeOverlay []).descendFrom_pairwise n false (lowersAt e d)
  rw [resolveLowerPath_eq, if_pos hres] at h
  cases hlook : (treeOverlay e.files).look (lowersOf e d n) with
  | none =>
    intro s hs
    rw [sub_eq_none_of_look hlook s hs]
    rfl
  | some x =>
    obtain ⟨pre, T, post, t, hsplit, hpre, hT, hentry⟩ := look_split hlook hpair
    have hdirectory : x.attributes.directory = false := by
      rw [hlook, resultOf] at h
      cases hidx : x.lowerIndex <;>
        simpa [hitAt, ResolvedPath.found, ResolvedPath.isDirectory, hidx] using h
    have hleaf : ∃ v, T.sub = some (.leaf v) := by
      cases t with
      | leaf v => exact ⟨v, hT⟩
      | node v children =>
        simp only [treeOverlay, hT, Option.map_some, Option.some.injEq] at hentry
        rw [← hentry] at hdirectory
        cases hdirectory
    obtain ⟨v, hleaf⟩ := hleaf
    have hmem : T ∈ lowersOf e d n := by rw [hsplit]; simp
    -- the file hides the lowers below it
    have hpost : post = [] := by
      obtain ⟨s, -, hs⟩ := (treeOverlay []).mem_descendFrom hmem
      have hT' : T = slotIn s.lowerIndex s.stop (some (.leaf v)) := by
        have hs : T = slotIn s.lowerIndex s.stop (childAt s.sub n) := hs
        have hsub : childAt s.sub n = some (.leaf v) := by
          rw [hs] at hleaf
          rw [← hleaf, slotIn]
          split <;> rfl
        rw [hs, hsub]
      cases post with
      | nil => rfl
      | cons u post =>
        rw [hsplit, List.pairwise_append] at hpair
        have hcovers := List.rel_of_pairwise_cons hpair.2.1 (List.mem_cons_self (a := u))
        rw [hT'] at hcovers
        rw [show (treeOverlay e.files).covers = (treeOverlay []).covers from rfl,
          covers_of_leaf] at hcovers
        cases hcovers
    intro s hs
    rw [hsplit, hpost] at hs
    rcases List.mem_append.mp hs with hs | hs
    · rw [(hpre s hs).1]
      rfl
    · rw [List.mem_singleton.mp hs, hleaf]
      rfl

/-- Under an entry of the upper, no more of the lowers counts. -/
theorem mem_descendFrom_held {files : List FileObj} {held : Bool} {slots : List TreeSlot}
    {s : TreeSlot} (hs : s ∈ (treeOverlay files).descendFrom n true slots) :
    s ∈ (treeOverlay files).descendFrom n held slots := by
  induction slots generalizing held with
  | nil => exact hs
  | cons u rest ih =>
    rw [Overlay.descendFrom] at hs ⊢
    split at hs
    · cases hs
    · rename_i hcut
      have hcut' : ¬(!(treeOverlay files).upper u && ((treeOverlay files).whites u n ||
          (held && (treeOverlay files).link ((treeOverlay files).child u n)))) = true := by
        intro h
        apply hcut
        simp only [Bool.and_eq_true, Bool.or_eq_true] at h ⊢
        exact ⟨h.1, h.2.imp id fun h => ⟨trivial, h.2⟩⟩
      rw [if_neg hcut']
      rcases List.mem_cons.mp hs with rfl | hs
      · exact List.mem_cons_self
      · apply List.mem_cons_of_mem
        split at hs
        · cases hs
        · rename_i hcovers
          rw [if_neg hcovers]
          exact ih (by simpa using hs)

/-! ## The listing of a new directory -/

theorem childAt_of_leads {o : Place} (h : leadsToDirectory o = false) (m : Name) :
    childAt o m = none := by
  cases o with
  | none => simp [childAt]
  | some t =>
    cases t with
    | leaf v => exact childAt_leaf v m
    | node v children => cases h

/-- A directory whose slots hold no name that a lookup accepts lists nothing. -/
theorem merge_empty (hres : isResolvablePath e.config p = true)
    (h : ∀ m, isReservedOverlayPath e.config (p ++ [m]) = false →
      ∀ s ∈ slotsAt e p, childAt s.sub m = none) :
    mergeDirectoryAcrossLayers e.config p = .ok [] := by
  rw [isResolvablePath, Bool.and_eq_true] at hres
  have hreserved : isReservedOverlayPath e.config p = false := by simpa using hres.2
  have hsafe : (!p.isEmpty && !isSafeRelativePath p) = false := by simp [hres.1]
  have hnone : ∀ m, ∃ entries, mergeDirectoryAcrossLayers e.config p = .ok entries ∧
      listedAt entries m = none := by
    intro m
    obtain ⟨entries, hentries, hlist⟩ := listedAt_cases e.sound hreserved hsafe m
    refine ⟨entries, hentries, ?_⟩
    rcases hlist with hlist | ⟨hname, hlist⟩
    · exact hlist
    · rw [hlist]
      rcases look_slotsAt e (p ++ [m]) with ⟨hlook, -⟩ | ⟨i, t, -, -, -, hlook⟩
      · exact hlook
      · have hempty : (treeOverlay e.files).look (slotsAt e (p ++ [m])) = none := by
          apply Overlay.look_eq_none
          intro s hs
          have hsnoc : slotsAt e (p ++ [m]) = (treeOverlay e.files).descend (slotsAt e p) m :=
            Overlay.live_snoc _ _ _ _
          rw [hsnoc] at hs
          obtain ⟨u, hu, rfl⟩ := (treeOverlay e.files).mem_descendFrom hs
          simp [treeOverlay, h m hname u hu]
        rw [hempty] at hlook
        cases hlook
  obtain ⟨entries, hentries, -⟩ := hnone []
  rw [hentries]
  cases entries with
  | nil => rfl
  | cons x rest =>
    obtain ⟨entries', hentries', hlist⟩ := hnone x.1
    rw [hentries] at hentries'
    cases hentries'
    simp [listedAt] at hlist

/-! ## New entries -/

/-- A name at which a create can put an entry. -/
structure NewName (e : Engine) (d : RelPath) (n : Name) : Prop where
  parent : leadsToDirectory (e.upperAt d) = true
  free : e.upperAt (d ++ [n]) = none
  plain : PlainAt e d n
  resolvable : isResolvablePath e.config (d ++ [n]) = true

/-- The state `g` is `e` with the entry `t` at the name, and perhaps without the whiteout of
the name. -/
structure NewEntry (e g : Engine) (d : RelPath) (n : Name) (t : Tree) : Prop where
  holds : ∀ q, entryAt g.upper (d ++ [n] ++ q) = entryAt (some t) q
  stop : (slotOf g.upper none d).stop = (slotOf e.upper none d).stop
  lowersAt : lowersAt g d = lowersAt e d
  resolvable : isResolvablePath g.config (d ++ [n]) = true
  kept : ∀ r, ¬d ++ [n] <+: r → viewAt g r = viewAt e r
  lowers : g.lowers = e.lowers
  files : g.files = e.files

theorem NewName.put (h : NewName e d n) (t : Tree) :
    NewEntry e (e.putUpper (d ++ [n]) (some t)) d n t := by
  have hputs := putUpper_puts e (d ++ [n]) (some t)
  refine ⟨entryAt_putUpper h.parent h.plain.1, hputs.slotOf_parent h.plain,
    lowersAt_congr hputs.lowers (hputs.agreeAlong_parent h.plain), ?_,
    fun r hr => hputs.viewAt h.plain hr, rfl, rfl⟩
  rw [hputs.isResolvablePath h.plain, h.resolvable]

namespace NewEntry

variable {t : Tree}

theorem sameLayers (h : NewEntry e f d n t) (hs : SameLayers f g) : NewEntry e g d n t where
  holds q := (hs.entries _).trans (h.holds q)
  stop := (hs.agreeAlong d).slotOf_stop.trans h.stop
  lowersAt := (lowersAt_congr hs.lowers (hs.agreeAlong d)).trans h.lowersAt
  resolvable := by
    rw [← h.resolvable]
    exact ((hs.sameEntries.sameAlong (f := id) d).isResolvablePath_snoc n).symm
  kept r hr := (hs.viewAt r).trans (h.kept r hr)
  lowers := hs.lowers.trans h.lowers
  files := hs.files.trans h.files

/-- The whiteout of the name goes. -/
theorem markerPut (h : NewEntry e f d n t) (hm : MarkerPut f g d n none) :
    NewEntry e g d n t where
  holds q := by
    rw [hm.puts.upper, entryAt_put_elsewhere, h.holds]
    rintro ⟨x, hx⟩
    have hlen : d ++ [whiteoutName n] = d ++ [n] := by
      have := congrArg (List.take (d.length + 1)) hx
      simpa [List.take_append] using this
    exact not_whiteout_above (d := d) n (by rw [hlen])
  stop := hm.sameAlong_parent.agreeAlong.slotOf_stop.trans h.stop
  lowersAt := (lowersAt_congr hm.puts.lowers hm.sameAlong_parent.agreeAlong).trans h.lowersAt
  resolvable := by
    rw [← h.resolvable]
    exact (hm.sameAlong_parent.isResolvablePath_snoc n).symm
  kept r hr := (hm.kept hr).trans (h.kept r hr)
  lowers := hm.puts.lowers.trans h.lowers
  files := hm.puts.files.trans h.files

theorem upperAt (h : NewEntry e g d n t) :
    ∃ t', g.upperAt (d ++ [n]) = some t' ∧ t'.entry = t.entry := by
  have hroot := h.holds []
  rw [List.append_nil, entryAt, entryAt, placeAt_nil] at hroot
  rw [Engine.upperAt]
  cases hu : placeAt g.upper (d ++ [n]) with
  | none => rw [hu] at hroot; cases hroot
  | some t' =>
    rw [hu] at hroot
    exact ⟨t', rfl, by simpa using hroot⟩

/-- The new entry shows. -/
theorem shown (h : NewEntry e g d n t) :
    viewAt g (d ++ [n])
      = some (shownOf e.files ((slotOf g.upper none (d ++ [n])).stop ≠ .link) t) := by
  obtain ⟨t', ht, hentry⟩ := h.upperAt
  rw [viewAt_of_held (by simp) h.resolvable ht, h.files]
  have hnode := (@node_congr e.files (some t') (some t) (by simp [hentry])).2
    ((slotOf g.upper none (d ++ [n])).stop ≠ .link)
  simp only [Option.map_some, Option.some.injEq, Prod.mk.injEq] at hnode
  rw [hnode.2]

theorem isSome_child (h : NewEntry e g d n t) (m : Name) :
    (childAt (g.upperAt (d ++ [n])) m).isSome = (childAt (some t) m).isSome := by
  have hchild := congrArg Option.isSome (h.holds [m])
  rw [isSome_entryAt, isSome_entryAt] at hchild
  rw [Engine.upperAt, ← placeAt_snoc, hchild]
  rfl

end NewEntry

/-- A directory that a create makes, opaque or not. -/
def newDirectory (marked : Bool) : Tree :=
  if marked then WhiteoutManager.markOpaqueNode (.node {} []) else .node {} []

theorem childAt_newDirectory {marked : Bool} {m : Name}
    (h : (childAt (some (newDirectory marked)) m).isSome = true) :
    marked = true ∧ m = kOpaqueMarkerFile := by
  cases marked with
  | false => simp [newDirectory, childAt, placeAt, PathTree.sub_cons, PathTree.child] at h
  | true =>
    refine ⟨rfl, ?_⟩
    by_contra hne
    have hnone : childAt (some (newDirectory true)) m = none := by
      rw [childAt, placeAt]
      split
      · rfl
      · rw [PathTree.sub_cons]
        have hmarked : newDirectory true = PathTree.setChild kOpaqueMarkerFile
            (some (.leaf .marker)) (.node { opaqueStream := true } []) := rfl
        rw [hmarked, PathTree.child_setChild_ne hne]
        rfl
    rw [hnone] at h
    cases h

theorem stop_of_found (h : (resolveLowerPath e.config (d ++ [n])).found = true) :
    (slotOf e.upper none d).stop = .none := by
  by_contra hstop
  rw [resolveLowerPath_eq, lowersOf, lowersAt_of_stop hstop, Overlay.descendFrom, Overlay.look,
    ite_self] at h
  cases h

/-- Where no link is on the way, an accepted name is no marker's. -/
theorem not_whiteoutName_of_accepted (hres : isResolvablePath e.config p = true)
    (hname : isReservedOverlayPath e.config (p ++ [m]) = false) (hsafe : isSafeRelativePath [m] = true)
    (hlink : ∀ s ∈ slotsAt e p, s.stop ≠ .link) : isWhiteoutName m = false := by
  rw [isResolvablePath, Bool.and_eq_true] at hres
  have hres' : isResolvablePath e.config (p ++ [m]) = true := by
    have hp := hres.1
    rw [isSafeRelativePath, Bool.and_eq_true] at hp hsafe
    have hnil : (p ++ [m]).isEmpty = false := by simp
    rw [isResolvablePath, hname, isSafeRelativePath, List.all_append, hp.2, hsafe.2, hnil]
    rfl
  rw [isResolvablePath_eq e (by simp), passes_snoc, Bool.and_eq_true, Bool.and_eq_true,
    nameShown, Bool.and_eq_true, Bool.or_eq_true] at hres'
  rcases hres'.2.2.2 with hm | hany
  · simpa using hm
  · obtain ⟨s, hs, hstop⟩ := List.any_eq_true.mp hany
    exact absurd (by simpa using hstop) (hlink s hs)

/-- An opaque directory counts alone. -/
theorem NewEntry.slotsAt_marked (h : NewEntry e g d n (newDirectory true))
    (hstop : (slotOf e.upper none d).stop = .none) :
    ∃ s, slotsAt g (d ++ [n]) = [s] ∧ s.stop = .none ∧ s.sub = g.upperAt (d ++ [n]) := by
  obtain ⟨t, ht, hentry⟩ := h.upperAt
  obtain ⟨children, rfl⟩ : ∃ children, t = .node { opaqueStream := true } children := by
    cases t with
    | leaf v => cases hentry
    | node v children =>
      have hentry : (Sum.inr v : Leaf ⊕ DirNode) = Sum.inr { opaqueStream := true } := hentry
      exact ⟨children, by rw [Sum.inr.inj hentry]⟩
  have hslot : slotIn none .none (some (.node { opaqueStream := true } children : Tree))
      = ⟨none, .none, false, some (.node { opaqueStream := true } children)⟩ := rfl
  refine ⟨⟨none, .none, false, some (.node { opaqueStream := true } children)⟩, ?_, rfl, ht.symm⟩
  rw [slotsAt_snoc, h.stop, hstop, ht, lowersUnder, h.stop, hstop, hslot]
  simp [treeOverlay, holdsOpaquePlace]

/-- A new directory lists nothing: it is opaque, or no lower has a directory there. -/
theorem merge_empty_of_new {marked : Bool} (h : NewEntry e g d n (newDirectory marked))
    (hmarked : marked = true → (slotOf e.upper none d).stop = .none)
    (hplain : marked = false → NoLowerDirectory e d n) :
    mergeDirectoryAcrossLayers g.config (d ++ [n]) = .ok [] := by
  apply merge_empty h.resolvable
  intro m hname s hs
  cases marked with
  | true =>
    obtain ⟨u, hslots, hstop, hsub⟩ := h.slotsAt_marked (hmarked rfl)
    have hlink : ∀ s ∈ slotsAt g (d ++ [n]), s.stop ≠ .link := by
      intro s hs
      rw [hslots, List.mem_singleton] at hs
      rw [hs, hstop]
      decide
    rw [hslots, List.mem_singleton] at hs
    by_contra hne
    have hchild : (childAt s.sub m).isSome = true := Option.isSome_iff_ne_none.mpr hne
    rw [hs, hsub, h.isSome_child] at hchild
    obtain ⟨-, rfl⟩ := childAt_newDirectory hchild
    have hmarker := not_whiteoutName_of_accepted h.resolvable hname (by decide) hlink
    exact absurd hmarker (by decide)
  | false =>
    rw [slotsAt_snoc, h.lowersAt, h.stop] at hs
    rcases List.mem_cons.mp hs with rfl | hs
    · have hsub : (slotIn none (slotOf e.upper none d).stop (g.upperAt (d ++ [n]))).sub
          = g.upperAt (d ++ [n]) := by
        rw [slotIn]
        split <;> rfl
      by_contra hne
      have hchild := Option.isSome_iff_ne_none.mpr hne
      rw [hsub, h.isSome_child] at hchild
      cases (childAt_newDirectory hchild).1
    · rw [lowersUnder] at hs
      split at hs
      · cases hs
      · obtain ⟨t, ht, -⟩ := h.upperAt
        rw [ht, Option.isSome_some] at hs
        exact childAt_of_leads (hplain rfl s (mem_descendFrom_held hs)) m

end LayerMount
