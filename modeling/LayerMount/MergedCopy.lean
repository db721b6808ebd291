import LayerMount.MergeSteps
import LayerMount.Rename
import LayerMount.UpperTree

/-!
# The staged copy of a merged directory

A rename of a directory that a lower holds copies the merge of the directory, entry by entry,
into a staged tree, and marks that tree opaque.  The copy of an entry shows what the view
shows there: a file its logical content, a link its target, a directory the copies of what
the merge of it lists (`copyMergedEntry_ensures`).  By induction on the levels below, the
whole staged tree shows the merged view of the directory (`buildMergedDirectory_shows`).
-/

namespace LayerMount

open Lib

variable {files : List FileObj} {e f g : Engine} {d p q : RelPath} {n m : Name}

/-! ## New files only -/

theorem SameFiles.probeOf {k : Nat} {files' : List FileObj} (h : SameFiles k files files')
    {o : Place} (ho : NamesBelow k o) : probeOf files' o = probeOf files o := by
  cases o with
  | none => rfl
  | some t =>
    cases t with
    | node v children => rfl
    | leaf v =>
      cases v with
      | deadLink => rfl
      | marker => rfl
      | file id =>
        have hid : id < k := ho [] id (by simp [entryAt, PathTree.entry])
        simp only [LayerMount.probeOf, layerEntry, (h id hid).1]

theorem SameFiles.ofTree {k : Nat} {files' : List FileObj} (h : SameFiles k files files')
    {o : Place} (ho : NamesBelow k o) : Layer.ofTree files' o = Layer.ofTree files o := by
  have hget : (fun p => LayerMount.probeOf files' (placeAt o p))
      = fun p => LayerMount.probeOf files (placeAt o p) :=
    funext fun p => h.probeOf (ho.placeAt p)
  simp only [Layer.ofTree, hget]

/-- Nothing changed but files that came to the table. -/
structure Grown (e g : Engine) : Prop where
  upper : g.upper = e.upper
  lowers : g.lowers = e.lowers
  files : e.files <+: g.files
  host : g.host = e.host
  undoFailed : g.undoFailed = e.undoFailed
  contexts : g.contexts = e.contexts
  wf : e.Wf → g.Wf

theorem Grown.trans (h : Grown e f) (h' : Grown f g) : Grown e g where
  upper := h'.upper.trans h.upper
  lowers := h'.lowers.trans h.lowers
  files := h.files.trans h'.files
  host := h'.host.trans h.host
  undoFailed := h'.undoFailed.trans h.undoFailed
  contexts := h'.contexts.trans h.contexts
  wf he := h'.wf (h.wf he)

theorem Untouched.grown (h : Untouched e g) : Grown e g where
  upper := h.upper
  lowers := h.lowers
  files := by rw [h.files]
  host := h.host
  undoFailed := h.undoFailed
  contexts := h.contexts
  wf := h.sameEntries.wf

theorem grown_newFile (x : FileObj)
    (hx : e.Wf → ∀ origin, x.metacopy = some origin → origin.file < e.files.length) :
    Grown e { e with files := e.files ++ [x] } where
  upper := rfl
  lowers := rfl
  files := List.prefix_append _ _
  host := rfl
  undoFailed := rfl
  contexts := rfl
  wf he := (raised_newFile he x (hx he)).wf he

section Grown

variable (h : Grown e g) (he : e.Wf)

include h he

theorem Grown.sameFiles : SameFiles e.files.length e.files g.files :=
  sameFiles_of_append he h.files

theorem Grown.config : g.config = e.config := by
  have hlowers : e.lowers.map (Layer.ofTree g.files) = e.lowers.map (Layer.ofTree e.files) :=
    List.map_congr_left fun o ho => (h.sameFiles he).ofTree (he.lowers o ho)
  rw [Engine.config, Engine.config, configOf, configOf, h.upper, h.lowers, hlowers,
    (h.sameFiles he).ofTree he.upper]

theorem Grown.sameAlong {V : Type} {f : TreeEntry → V} (r : RelPath) : SameAlong f e g r := by
  have hstack : treeStack g = treeStack e := by rw [treeStack, treeStack, h.upper, h.lowers]
  rw [SameAlong, hstack, List.forall₂_same]
  exact fun s hs => (h.sameFiles he).agreeAlong (namesBelow_of_mem_treeStack he hs) r

theorem Grown.viewAt (hp : p ≠ []) : viewAt g p = LayerMount.viewAt e p :=
  ((h.sameAlong he p).viewAt hp).symm

end Grown

theorem Grown.upperAt (h : Grown e g) (p : RelPath) : g.upperAt p = e.upperAt p := by
  rw [Engine.upperAt, Engine.upperAt, h.upper]

theorem Grown.lowerAt (h : Grown e g) (i : Nat) (p : RelPath) : g.lowerAt i p = e.lowerAt i p := by
  rw [Engine.lowerAt, Engine.lowerAt, h.lowers]

/-! ## The entry that a merge lists -/

theorem slot_eq_of_mem {s : TreeSlot} (hs : s ∈ slotsAt e p) :
    s = slotOf (treeAt e s.lowerIndex) s.lowerIndex p := by
  rw [slotsAt_cons] at hs
  rcases List.mem_cons.mp hs with rfl | hs
  · rw [slotOf_lowerIndex]
    rfl
  · obtain ⟨i, rfl⟩ := mem_lowersAt hs
    rw [slotOf_lowerIndex]
    rfl

/-- A directory of the view with directories above. -/
structure PlainDirectory (e : Engine) (d : RelPath) : Prop where
  ne_nil : d ≠ []
  directories : ∀ c, c <+: d → c ≠ [] → viewAt e c = some .directory

theorem PlainDirectory.shown (h : PlainDirectory e d) : viewAt e d = some .directory :=
  h.directories d (List.prefix_refl d) h.ne_nil

theorem PlainDirectory.resolvable (h : PlainDirectory e d) :
    isResolvablePath e.config d = true :=
  isResolvablePath_of_viewAt h.ne_nil (by rw [h.shown]; rfl)

theorem PlainDirectory.unlinked (h : PlainDirectory e d) : isInLinkTarget e.config d = false :=
  isInLinkTarget_of_directories h.directories

theorem PlainDirectory.snoc (h : PlainDirectory e d)
    (hshown : viewAt e (d ++ [n]) = some .directory) : PlainDirectory e (d ++ [n]) where
  ne_nil := by simp
  directories c hc hne := by
    rcases List.prefix_concat_iff.mp hc with rfl | hc
    · exact hshown
    · exact h.directories c hc hne

theorem PlainDirectory.grown (h : PlainDirectory e d) (hg : Grown e g) (he : e.Wf) :
    PlainDirectory g d where
  ne_nil := h.ne_nil
  directories c hc hne := (hg.viewAt he hne).trans (h.directories c hc hne)

/-- A name that a lookup accepts where no link is on the way. -/
def PlainName (n : Name) : Prop := ':' ∉ n ∧ n ≠ ['.', '.'] ∧ isWhiteoutName n = false

theorem nameShown_iff_plain {slots : List TreeSlot} (h : ∀ s ∈ slots, s.stop ≠ .link) :
    nameShown slots n = true ↔ PlainName n := by
  have hany : (slots.any fun s => decide (s.stop = .link)) = false := by
    rw [List.any_eq_false]
    intro s hs
    simpa using h s hs
  simp [nameShown, hany, PlainName, and_assoc]

theorem PlainDirectory.stop_ne_link (h : PlainDirectory e d) :
    ∀ s ∈ slotsAt e d, s.stop ≠ .link := by
  have hlink := h.unlinked
  rw [isInLinkTarget_eq, List.any_eq_false] at hlink
  exact fun s hs => by simpa using hlink s hs

/-- What a plain directory shows under a name that a lookup does not accept. -/
theorem PlainDirectory.viewAt_unplain (h : PlainDirectory e d) (hn : ¬PlainName n) (q : RelPath) :
    viewAt e (d ++ n :: q) = none := by
  rw [viewAt_below h.ne_nil h.resolvable, showFrom_cons,
    if_neg fun hname => hn ((nameShown_iff_plain h.stop_ne_link).mp hname)]
  rfl

/-- The layer that supplies an entry, and the tree there. -/
structure SuppliedBy (e : Engine) (p : RelPath) (i : Option Nat) (t : Tree) : Prop where
  place : placeAt (treeAt e i) p = some t
  shown : viewAt e p = some (shownOf e.files i.isNone t)
  slots : ∃ pre post, slotsAt e p = pre ++ slotIn i .none (some t) :: post ∧
    (∀ s ∈ pre, s.Empty) ∧
      ((treeOverlay e.files).covers (slotIn i .none (some t)) = true → post = [])

theorem slotIn_stop_eq_link {i : Option Nat} {t : Tree} :
    (slotIn i .none (some t)).stop = .link ↔ treeKind t = .link := by
  cases hk : treeKind t <;> simp [slotIn, placeKind, walkStopAt, hk]

theorem supplied_of_look {x : TreeEntry} (hd : ∀ s ∈ slotsAt e d, s.stop ≠ .link)
    (hres : isResolvablePath e.config (d ++ [n]) = true)
    (hlook : (treeOverlay e.files).look (slotsAt e (d ++ [n])) = some x) :
    ∃ t, SuppliedBy e (d ++ [n]) x.lowerIndex t ∧
      x.attributes = (layerEntry e.files t).attributes := by
  have hpair : (slotsAt e (d ++ [n])).Pairwise fun s _ => (treeOverlay e.files).covers s = false :=
    Overlay.live_pairwise _ _ _
  obtain ⟨pre, T, post, t, hsplit, hpre, hT, hx⟩ := look_split hlook hpair
  have hmem : T ∈ slotsAt e (d ++ [n]) := by rw [hsplit]; simp
  have hsnoc : slotsAt e (d ++ [n]) = (treeOverlay e.files).descend (slotsAt e d) n :=
    Overlay.live_snoc _ _ _ _
  obtain ⟨u, hu, hTu⟩ := (treeOverlay e.files).mem_descendFrom (hsnoc ▸ hmem)
  have hTu : T = u.child n := hTu
  have hslot : T = slotIn u.lowerIndex .none (some t) := by
    have hsub : childAt u.sub n = some t := by rw [← child_sub, ← hTu, hT]
    have hueq := slot_eq_of_mem hu
    have hplace : placeAt (treeAt e u.lowerIndex) (d ++ [n]) = some t := by
      rw [placeAt_snoc, ← hsub, hueq, slotOf_sub, slotOf_lowerIndex]
    have hstop : u.stop = .none := by
      have habove := stop_above (i := u.lowerIndex) hplace
      rw [← hueq] at habove
      exact habove.resolve_right (hd u hu)
    rw [hTu, TreeSlot.child, hstop, hsub]
  have hidx : x.lowerIndex = u.lowerIndex := by
    have hx' := hx
    simp only [treeOverlay, hT, Option.map_some, Option.some.injEq] at hx'
    rw [← hx', hslot, slotIn_lowerIndex]
  have hTidx : T.lowerIndex = x.lowerIndex := by rw [hslot, slotIn_lowerIndex, hidx]
  have hTeq := slot_eq_of_mem hmem
  rw [hTidx] at hTeq
  refine ⟨t, ⟨?_, ?_, pre, post, ?_, hpre, ?_⟩, ?_⟩
  · rw [← hT, hTeq, slotOf_sub]
  · rw [viewAt_eq e (by simp), showAt_eq e (by simp), if_pos hres, hlook, ← hx, hslot, hidx]
    have hrecord : shownOf e.files (u.lowerIndex.isNone &&
        (slotIn u.lowerIndex .none (some t)).stop ≠ .link) t
          = shownOf e.files u.lowerIndex.isNone t := by
      refine shownOf_record fun hfile => ?_
      have hstop := (slotIn_stop_eq_link (i := u.lowerIndex) (t := t)).not.mpr (by simp [hfile])
      simp [hstop]
    simp only [treeOverlay, slotIn_sub, slotIn_lowerIndex, Option.map_some, hrecord]
  · rw [hsplit, hslot, hidx]
  · intro hcov
    cases post with
    | nil => rfl
    | cons y ys =>
      rw [hsplit, List.pairwise_append, List.pairwise_cons] at hpair
      have := hpair.2.1.1 y (by simp)
      rw [hslot, ← hidx] at this
      rw [this] at hcov
      cases hcov
  · have hx' := hx
    simp only [treeOverlay, hT, Option.map_some, Option.some.injEq] at hx'
    rw [← hx']

theorem supplied_of_listed {entries : List (Name × MergedEntry)} {entry : MergedEntry}
    (hd : PlainDirectory e d)
    (hmerged : (mergeDirectoryWithAncestry e.config d).merged = .ok entries) (hentry : entries.lookup n = some entry) (hn : PlainName n) :
    ∃ i t, SuppliedBy e (d ++ [n]) i t ∧ entry.source = (if i.isNone then .upper else .lower) ∧
      Rename.mergedEntryAt e entry (d ++ [n]) = some t := by
  have hres := hd.resolvable
  rw [isResolvablePath, Bool.and_eq_true] at hres
  have hreserved : isReservedOverlayPath e.config d = false := by simpa using hres.2
  obtain ⟨entries', hentries, hcases⟩ :=
    listedAt_cases e.sound hreserved (by simp [hres.1]) n
  obtain rfl : entries = entries' := Except.ok.inj (hmerged.symm.trans hentries)
  have hlisted : listedAt entries n = some ⟨entry.source, entry.lowerIndex, entry.attributes⟩ := by
    rw [listedAt, hentry]
    rfl
  rw [hlisted] at hcases
  obtain ⟨hfree, hlook⟩ := hcases.resolve_left (by simp)
  have hsafe : isSafeRelativePath (d ++ [n]) = true := by
    have hsafe := hres.1
    rw [isSafeRelativePath, Bool.and_eq_true] at hsafe ⊢
    refine ⟨by simp, ?_⟩
    rw [List.all_append, hsafe.2]
    simp [hn.1, hn.2.1]
  have hresolvable : isResolvablePath e.config (d ++ [n]) = true := by
    rw [isResolvablePath, hsafe, hfree]
    rfl
  rcases look_slotsAt e (d ++ [n]) with ⟨hnone, -⟩ | ⟨i, u, hplace, -, hlayers, htrees⟩
  · rw [hnone] at hlook
    cases hlook
  · rw [hlayers, Option.some.injEq, ShownEntry.mk.injEq] at hlook
    obtain ⟨t, hsupplied, -⟩ := supplied_of_look hd.stop_ne_link hresolvable htrees
    refine ⟨i, t, hsupplied, hlook.1, ?_⟩
    have ht : treeAt e i = treeAt e i := rfl
    cases i with
    | none =>
      have hsource : entry.source = .upper := by simpa using hlook.1
      rw [Rename.mergedEntryAt, hsource]
      exact hsupplied.place
    | some i =>
      have hsource : entry.source = .lower := by simpa using hlook.1
      rw [Rename.mergedEntryAt, hsource, hlook.2.1]
      exact hsupplied.place

/-! ## What a copy shows -/

theorem shownAlone_nil (files : List FileObj) (t : Tree) :
    shownAlone files .none t [] = some (shownOf files true t) := by
  rw [shownAlone, showFrom_singleton_nil]
  have hrecord : shownOf files ((slotIn none .none (some t)).stop ≠ .link) t
      = shownOf files true t := by
    refine shownOf_record fun hfile => ?_
    have hstop := (slotIn_stop_eq_link (i := none) (t := t)).not.mpr (by simp [hfile])
    simp [hstop]
  simpa [treeOverlay] using hrecord

theorem shownAlone_leaf (files : List FileObj) (v : Leaf) (n : Name) (q : RelPath) :
    shownAlone files .none (.leaf v) (n :: q) = none := by
  rw [shownAlone, showFrom_leaf (slotIn_sub _)]
  rfl

theorem slotIn_directory {v : DirNode} {children : List (Name × Tree)} (h : v.link = false) :
    (slotIn none .none (some (.node v children))).stop = .none := by
  simp [slotIn, placeKind, treeKind, walkStopAt, h]

theorem shownAlone_unplain {v : DirNode} {children : List (Name × Tree)} (h : v.link = false)
    (hn : ¬PlainName n) (q : RelPath) :
    shownAlone files .none (.node v children) (n :: q) = none := by
  rw [shownAlone_cons, if_neg]
  intro hname
  refine hn ((nameShown_iff_plain ?_).mp hname)
  intro s hs
  rw [List.mem_singleton.mp hs, slotIn_directory h]
  exact fun hstop => by cases hstop

theorem shownAlone_child {v : DirNode} {children : List (Name × Tree)} (h : v.link = false)
    (hn : PlainName n) (q : RelPath) :
    shownAlone files .none (.node v children) (n :: q)
      = (childAt (some (.node v children)) n).bind fun c => shownAlone files .none c q := by
  have hname : nameShown [slotIn none .none (some (.node v children))] n = true := by
    refine (nameShown_iff_plain ?_).mpr hn
    intro s hs
    rw [List.mem_singleton.mp hs, slotIn_directory h]
    exact fun hstop => by cases hstop
  rw [shownAlone_cons, if_pos hname, slotIn_directory h]
  cases hchild : childAt (some (.node v children)) n with
  | none =>
    rw [showFrom_nowhere fun s hs => by rw [List.mem_singleton.mp hs, slotIn_sub]]
    rfl
  | some c => rfl

theorem viewAt_below_file {content : Data} (hp : p ≠ []) (h : viewAt e p = some (.file content))
    (n : Name) (q : RelPath) : viewAt e (p ++ n :: q) = none := by
  by_contra hne
  have hsome : (viewAt e (p ++ n :: q)).isSome = true := Option.isSome_iff_ne_none.mpr hne
  rcases showsDirectory_above hp (List.prefix_append p (n :: q)) (by simp) hsome with hd | hd
  · rw [h] at hd
    cases hd
  · rw [h] at hd
    cases hd

/-- The copy of a file holds the content that the view shows. -/
theorem logicalData_copiedFile (he : e.Wf) {id : FileId} (hid : id < e.files.length)
    (source : LayerSource) (sparseFiles : Bool) :
    logicalData (e.files ++ [Rename.copiedFile source sparseFiles (fileAt e.files id)])
        e.files.length
      = if source = .upper then logicalData e.files id else (fileAt e.files id).data := by
  have hdata : (Rename.copiedFile source sparseFiles (fileAt e.files id)).data
      = (fileAt e.files id).data := by
    rw [Rename.copiedFile]
    split <;> rfl
  have hrecord : (Rename.copiedFile source sparseFiles (fileAt e.files id)).metacopy
      = if source = .upper then (fileAt e.files id).metacopy else none := by
    rw [Rename.copiedFile]
    split <;> rfl
  rw [logicalData, fileAt_last, hrecord, hdata]
  by_cases hsource : source = .upper
  · rw [if_pos hsource, if_pos hsource, logicalData]
    cases horigin : (fileAt e.files id).metacopy with
    | none => rfl
    | some origin =>
      have hmem : fileAt e.files id ∈ e.files := by
        rw [fileAt, List.getD_eq_getElem?_getD, List.getElem?_eq_getElem hid]
        exact List.getElem_mem hid
      simp only [fileAt_newFile (he.origins _ hmem origin horigin)]
  · rw [if_neg hsource, if_neg hsource]

/-- The clone of a link shows what the link that it copies shows. -/
theorem shownAlone_clonedLink {i : Option Nat} {t : Tree} (h : SuppliedBy e p i t) (hp : p ≠ [])
    (hkind : treeKind t = .link) (q : RelPath) :
    shownAlone e.files .none (CopyUp.clonedLink t) q = viewAt e (p ++ q) := by
  have hres := isResolvablePath_of_viewAt hp (by rw [h.shown]; rfl)
  obtain ⟨pre, post, hsplit, hpre, hpost⟩ := h.slots
  have hstop := (slotIn_stop_eq_link (i := i) (t := t)).mpr hkind
  rw [hpost (covers_of_stop (by rw [hstop]; exact fun hs => by cases hs))] at hsplit
  rw [viewAt_below hp hres, hsplit, showFrom_empties hpre, shownAlone]
  refine showFrom_link ?_ hstop ?_ ?_ q
  · exact slotIn_stop_eq_link.mpr (by rw [treeKind_clonedLink, hkind])
  · rw [slotIn_sub, slotIn_sub, Option.map_some, Option.map_some, shownOf_clonedLink]
  · intro n
    rw [slotIn_sub, slotIn_sub, childAt_clonedLink]

/-! ## The copy of a directory -/

/-- The children of a copied directory show what the directory shows below. -/
def ShowsBelow (files : List FileObj) (children : List (Name × Tree)) (e : Engine)
    (d : RelPath) : Prop :=
  ∀ n q, shownAlone files .none (.node {} children) (n :: q) = viewAt e (d ++ n :: q)

/-- What a copy of the children of a merged directory ensures, when it returns them. -/
def CopiesChildren
    (copyChildren : MergedDirectoryWithAncestry → Op (List (Name × Tree))) : Prop :=
  ∀ (e : Engine) (oldDir : MergedDirectoryWithAncestry), e.Wf →
    (copyChildren oldDir).Ensures e fun r g => Grown e g ∧ ∀ children, r = .ok children →
      (∀ c ∈ children, NamesBelow g.files.length (some c.2)) ∧
      ∀ d, PlainDirectory e d → oldDir = mergeDirectoryWithAncestry e.config d →
        ShowsBelow g.files children e d

/-- The copy of one entry shows what the view shows at the entry. -/
structure CopyShows (e g : Engine) (d : RelPath) (n : Name) (c : Tree) : Prop where
  shows : PlainName n → ∀ q, shownAlone g.files .none c q = viewAt e (d ++ [n] ++ q)

theorem namesBelow_of_mergedEntryAt (he : e.Wf) {entry : MergedEntry} {t : Tree}
    (h : Rename.mergedEntryAt e entry p = some t) : NamesBelow e.files.length (some t) := by
  rw [Rename.mergedEntryAt] at h
  split at h
  · rw [← h]
    exact he.upperAt p
  · rw [← h]
    exact he.lowerAt _ p
  · cases h

theorem copyMergedEntry_ensures
    {copyChildren : MergedDirectoryWithAncestry → Op (List (Name × Tree))}
    (hcopy : CopiesChildren copyChildren) (he : e.Wf) (oldDir : MergedDirectoryWithAncestry)
    (n : Name) (entry : MergedEntry) :
    (Rename.copyMergedEntryWith copyChildren oldDir n entry).Ensures e fun r g =>
      Grown e g ∧ ∀ c, r = .ok c → NamesBelow g.files.length (some c) ∧
        ∀ d entries, PlainDirectory e d → oldDir = mergeDirectoryWithAncestry e.config d →
          oldDir.merged = .ok entries → entries.lookup n = some entry →
          CopyShows e g d n c := by
  have hself : Grown e e := (Untouched.refl e).grown
  -- the tree that the copy reads is the one that supplies the entry
  have hread : ∀ d entries, PlainDirectory e d → oldDir = mergeDirectoryWithAncestry e.config d →
      oldDir.merged = .ok entries → entries.lookup n = some entry → PlainName n →
      oldDir.dirPath = d ∧ ∃ i t, SuppliedBy e (d ++ [n]) i t ∧
        entry.source = (if i.isNone then .upper else .lower) ∧
        Rename.mergedEntryAt e entry (d ++ [n]) = some t := by
    intro d entries hd hold hmerged hentry hn
    rw [hold] at hmerged ⊢
    refine ⟨?_, supplied_of_listed hd hmerged hentry hn⟩
    rw [mergeDirectoryWithAncestry_of_resolvable hd.resolvable]
    rfl
  apply Step.Ensures.get
  split
  · exact ⟨hself, fun _ h => by cases h⟩
  · -- a file
    rename_i id hplace
    have hid : id < e.files.length :=
      namesBelow_of_mergedEntryAt he hplace [] id (by simp [entryAt, PathTree.entry])
    refine newFile_bind_ensures (Step.Ensures.pure
      ⟨grown_newFile _ fun he origin horigin => ?_, fun c hc => ?_⟩)
    · refine he.origins (fileAt e.files id) ?_ origin ?_
      · rw [fileAt, List.getD_eq_getElem?_getD, List.getElem?_eq_getElem hid]
        exact List.getElem_mem hid
      · rw [Rename.copiedFile] at horigin
        split at horigin <;>
        · simp only [CopyUp.clonedFile] at horigin
          split at horigin
          · exact horigin
          · cases horigin
    · obtain rfl : PathTree.leaf (.file e.files.length) = c := by simpa using hc
      refine ⟨namesBelow_leaf (by simp), fun d entries hd hold hmerged hentry => ⟨fun hn q => ?_⟩⟩
      obtain ⟨hpath, i, t, hsup, hsource, ht⟩ := hread d entries hd hold hmerged hentry hn
      rw [hpath, ht, Option.some.injEq] at hplace
      have hshown := hsup.shown
      rw [hplace] at hshown
      cases q with
      | nil =>
        rw [shownAlone_nil, List.append_nil, hshown, shownOf, shownOf, if_pos rfl,
          logicalData_copiedFile he hid, hsource]
        cases i <;> simp
      | cons m q => rw [shownAlone_leaf, viewAt_below_file (by simp) hshown]
  · -- a marker or a link that leads nowhere
    rename_i v hfile hplace
    refine Step.Ensures.pure ⟨hself, fun c hc => ?_⟩
    obtain rfl : PathTree.leaf v = c := by simpa using hc
    refine ⟨?_, fun d entries hd hold hmerged hentry => ⟨fun hn q => ?_⟩⟩
    · exact namesBelow_of_mergedEntryAt he hplace
    · obtain ⟨hpath, i, t, hsup, -, ht⟩ := hread d entries hd hold hmerged hentry hn
      rw [hpath, ht, Option.some.injEq] at hplace
      subst hplace
      cases v with
      | file id => exact absurd rfl (hfile id)
      | deadLink => exact shownAlone_clonedLink hsup (by simp) rfl q
      | marker =>
        cases q with
        | nil =>
          rw [shownAlone_nil, List.append_nil, hsup.shown]
          rfl
        | cons m q => rw [shownAlone_leaf, viewAt_below_file (by simp) hsup.shown]
  · rename_i v subtree hplace
    apply Step.Ensures.ite
    · -- a link
      intro hlink
      refine Step.Ensures.pure ⟨hself, fun c hc => ?_⟩
      obtain rfl : CopyUp.clonedLink (.node v subtree) = c := by simpa using hc
      refine ⟨(namesBelow_of_mergedEntryAt he hplace).clonedLink,
        fun d entries hd hold hmerged hentry => ⟨fun hn q => ?_⟩⟩
      obtain ⟨hpath, i, t, hsup, -, ht⟩ := hread d entries hd hold hmerged hentry hn
      rw [hpath, ht, Option.some.injEq] at hplace
      rw [hplace] at hsup
      exact shownAlone_clonedLink hsup (by simp) (by simp [treeKind, hlink]) q
    · -- a directory
      intro hlink
      refine Step.Ensures.bind (hcopy e _ he) ?_ fun _ _ h => ⟨h.1, fun _ hc => by cases hc⟩
      rintro children g ⟨hg, hchildren⟩
      obtain ⟨hnames, hshows⟩ := hchildren children rfl
      refine Step.Ensures.pure ⟨hg, fun c hc => ?_⟩
      obtain rfl : PathTree.node { readOnly := v.readOnly } children = c := by simpa using hc
      refine ⟨namesBelow_node hnames, fun d entries hd hold hmerged hentry => ⟨fun hn q => ?_⟩⟩
      obtain ⟨hpath, i, t, hsup, -, ht⟩ := hread d entries hd hold hmerged hentry hn
      rw [hpath, ht, Option.some.injEq] at hplace
      have hdir : viewAt e (d ++ [n]) = some .directory := by
        rw [hsup.shown, hplace, shownOf, if_neg hlink]
      cases q with
      | nil =>
        rw [shownAlone_nil, List.append_nil, hdir]
        rfl
      | cons m q =>
        have hsnoc := hd.snoc hdir
        have hstep : mergeChildDirectory e.config oldDir n
            = mergeDirectoryWithAncestry e.config (d ++ [n]) := by
          rw [hold] at hmerged ⊢
          exact mergeChildDirectory_eq hd.resolvable hsnoc.resolvable hmerged
        have hbelow := hshows (d ++ [n]) hsnoc hstep m q
        rw [← hbelow, shownAlone_cons, shownAlone_cons]
        rfl

/-- The copy under a name, of a list of copies. -/
def copyNamed (children : List (Name × Tree)) (n : Name) : Option Tree :=
  (PathTree.node {} children : Tree).child n

theorem child_node_cons {N L D : Type} [DecidableEq N] (v : D) (n m : N) (c : PathTree N L D)
    (rest : List (N × PathTree N L D)) :
    (PathTree.node v ((m, c) :: rest)).child n
      = if n = m then some c else (PathTree.node v rest).child n := by
  rw [PathTree.child, PathTree.child, List.lookup_cons]
  by_cases h : n = m
  · simp [h]
  · rw [beq_eq_false_iff_ne.mpr h, if_neg h]

theorem copyNamed_cons_self (c : Tree) (rest : List (Name × Tree)) :
    copyNamed ((n, c) :: rest) n = some c := by
  rw [copyNamed, child_node_cons, if_pos rfl]

theorem copyNamed_cons_of_ne (h : n ≠ m) (c : Tree) (rest : List (Name × Tree)) :
    copyNamed ((m, c) :: rest) n = copyNamed rest n := by
  rw [copyNamed, child_node_cons, if_neg h, copyNamed]

theorem copyMergedEntries_ensures
    {copyChildren : MergedDirectoryWithAncestry → Op (List (Name × Tree))}
    (hcopy : CopiesChildren copyChildren) (oldDir : MergedDirectoryWithAncestry)
    (list : List (Name × MergedEntry)) :
    ∀ e : Engine, e.Wf →
      (Rename.copyMergedEntriesWith copyChildren oldDir list).Ensures e fun r g =>
        Grown e g ∧ ∀ children, r = .ok children →
          (∀ c ∈ children, NamesBelow g.files.length (some c.2)) ∧
          ∀ d entries, PlainDirectory e d → oldDir = mergeDirectoryWithAncestry e.config d →
            oldDir.merged = .ok entries →
            ∀ n, (list.lookup n = none → copyNamed children n = none) ∧
              ∀ entry, list.lookup n = some entry → entries.lookup n = some entry →
                ∃ c, copyNamed children n = some c ∧ CopyShows e g d n c := by
  induction list with
  | nil =>
    intro e _
    rw [Rename.copyMergedEntriesWith]
    refine Step.Ensures.pure ⟨(Untouched.refl e).grown, fun children hc => ?_⟩
    obtain rfl : [] = children := by simpa using hc
    exact ⟨nofun, fun _ _ _ _ _ _ => ⟨fun _ => rfl, nofun⟩⟩
  | cons head rest ih =>
    intro e he
    obtain ⟨name, entry⟩ := head
    refine Step.Ensures.bind (copyMergedEntry_ensures hcopy he oldDir name entry) ?_
      fun _ _ h => ⟨h.1, fun _ hc => by cases hc⟩
    rintro copied f ⟨hf, hcopied⟩
    obtain ⟨hnames, hshows⟩ := hcopied copied rfl
    refine Step.Ensures.bind (ih f (hf.wf he)) ?_ fun _ _ h => ⟨hf.trans h.1, fun _ hc => by
      cases hc⟩
    rintro others g ⟨hg, hothers⟩
    obtain ⟨hnames', hshows'⟩ := hothers others rfl
    refine Step.Ensures.pure ⟨hf.trans hg, fun children hc => ?_⟩
    obtain rfl : (name, copied) :: others = children := by simpa using hc
    refine ⟨?_, fun d entries hd hold hmerged n => ?_⟩
    · intro c hc
      rcases List.mem_cons.mp hc with rfl | hc
      · exact hnames.mono hg.files.length_le
      · exact hnames' c hc
    · by_cases hn : n = name
      · subst hn
        refine ⟨fun h => ?_, fun entry' h hentry => ⟨copied, copyNamed_cons_self copied others, ?_⟩⟩
        · rw [List.lookup_cons_self] at h
          cases h
        · rw [List.lookup_cons_self, Option.some.injEq] at h
          rw [← h] at hentry
          refine ⟨fun hplain q => ?_⟩
          rw [← (hshows d entries hd hold hmerged hentry).shows hplain q]
          exact (hg.sameFiles (hf.wf he)).shownAlone hnames .none q
      · have hne : (n == name) = false := by simpa using hn
        rw [List.lookup_cons, hne, copyNamed_cons_of_ne hn]
        have hconfig := hf.config he
        obtain ⟨hnone, hsome⟩ := hshows' d entries (hd.grown hf he) (by rw [hold, hconfig])
          hmerged n
        refine ⟨hnone, fun entry' h hentry => ?_⟩
        obtain ⟨c, hc, hcshows⟩ := hsome entry' h hentry
        refine ⟨c, hc, ⟨fun hplain q => ?_⟩⟩
        rw [hcshows.shows hplain q]
        exact hf.viewAt he (by simp)

/-- The copies of the children, one level after the other. -/
theorem copyMergedChildren_copies (depth : Nat) :
    CopiesChildren (Rename.copyMergedChildren depth) := by
  induction depth with
  | zero => exact fun e _ _ => ⟨(Untouched.refl e).grown, fun _ h => by cases h⟩
  | succ depth ih =>
    intro e oldDir he
    rw [Rename.copyMergedChildren]
    cases hmerged : oldDir.merged with
    | error status => exact ⟨(Untouched.refl e).grown, fun _ h => by cases h⟩
    | ok entries =>
      refine (copyMergedEntries_ensures ih oldDir entries e he).mono fun r g h => ⟨h.1, ?_⟩
      intro children hc
      obtain ⟨hnames, hshows⟩ := h.2 children hc
      refine ⟨hnames, fun d hd hold n q => ?_⟩
      obtain ⟨hnone, hsome⟩ := hshows d entries hd hold hmerged n
      have hlink : ({} : DirNode).link = false := rfl
      by_cases hn : PlainName n
      · rw [shownAlone_child hlink hn]
        obtain ⟨entries', hentries, hlist⟩ := listed_iff_viewAt (n := n) e d hn.1
        have hentries' : entries = entries' := by
          rw [mergeDirectoryAcrossLayers, ← hold, hmerged] at hentries
          exact Except.ok.inj hentries
        rw [← hentries'] at hlist
        cases hlookup : entries.lookup n with
        | none =>
          rw [hlookup] at hlist
          have hview : viewAt e (d ++ [n]) = none := by simpa using hlist.symm
          have hbelow := viewAt_none_below (by simp) hview q
          rw [List.append_assoc, List.singleton_append] at hbelow
          rw [hbelow]
          have hchild : childAt (some (.node {} children)) n = none := by
            have hnone := hnone hlookup
            rw [copyNamed] at hnone
            rw [childAt, placeAt, PathTree.sub_cons, PathTree.sub_nil, hnone]
            split <;> rfl
          rw [hchild]
          rfl
        | some entry =>
          obtain ⟨c, hc, hcshows⟩ := hsome entry hlookup hlookup
          have hdot : n ≠ ['.'] := by
            rintro rfl
            obtain ⟨i, t, hsup, -⟩ := supplied_of_listed hd (by rw [← hold, hmerged]) hlookup hn
            have hplace := hsup.place
            rw [placeAt_snoc, childAt, placeAt] at hplace
            simp at hplace
          have hchild : childAt (some (.node {} children)) n = some c := by
            have hne : ['.'] ≠ n := fun h => hdot h.symm
            rw [copyNamed] at hc
            rw [childAt, placeAt, PathTree.sub_cons, PathTree.sub_nil, hc,
              if_neg (by simpa using hne)]
          rw [hchild, Option.bind_some, hcshows.shows hn q, List.append_assoc,
            List.singleton_append]
      · rw [shownAlone_unplain hlink hn, hd.viewAt_unplain hn]

/-- The staged copy of a merged directory, opaque marker included, shows the directory. -/
theorem buildMergedDirectory_shows (he : e.Wf) (hd : PlainDirectory e d) (source : ResolvedPath) :
    (Rename.buildMergedDirectory d source).Ensures e fun r g => Grown e g ∧
      ∀ t, r = .ok t → NamesBelow g.files.length (some t) ∧ treeKind t = .directory ∧
        holdsOpaquePlace (some t) = true ∧
        ∀ q, shownAlone g.files .none t q = viewAt e (d ++ q) := by
  rw [Rename.buildMergedDirectory]
  apply Step.Ensures.get
  refine Step.Ensures.bind (copyMergedChildren_copies _ e _ he) ?_
    fun _ _ h => ⟨h.1, fun _ hc => by cases hc⟩
  rintro children f ⟨hf, hchildren⟩
  obtain ⟨hnames, hshows⟩ := hchildren children rfl
  have hshows := hshows d hd rfl
  refine Step.Ensures.bind (diskStep_ensures .writeOpaqueMarkers f) ?_
    fun _ _ h => ⟨hf.trans h.grown, fun _ hc => by cases hc⟩
  intro _ g hg
  refine Step.Ensures.pure ⟨hf.trans hg.grown, fun t ht => ?_⟩
  obtain ⟨readOnly, rfl⟩ :
      ∃ readOnly, WhiteoutManager.markOpaqueNode (.node { readOnly } children) = t :=
    ⟨_, by simpa using ht⟩
  rw [hg.files]
  refine ⟨?_, ?_, ?_, fun q => ?_⟩
  · exact namesBelow_mark (namesBelow_node hnames)
  · exact treeKind_mark rfl
  · exact holdsOpaquePlace_mark _ _
  · rw [shownAlone_mark f.files rfl]
    cases q with
    | nil =>
      rw [shownAlone_nil, List.append_nil, hd.shown]
      rfl
    | cons n q =>
      rw [← hshows n q, shownAlone_cons, shownAlone_cons]
      rfl

end LayerMount
