import LayerMount.CopyUp
import LayerMount.ViewCopy

/-!
# What a copy-up keeps

A copy-up puts entries into the upper that the view showed from a lower.  `Raised`
is what every copy-up of a shown path keeps, whether it succeeds or fails half way:
the lowers, the view, and the layer of every path that is still not in the upper.
-/

namespace LayerMount

open Lib

variable {e g : Engine} {d p q : RelPath} {n : Name}

/-! ## Steps that touch no layer -/

/-- The cache, the plan and the staging area aside, the state is the same. -/
structure Untouched (e g : Engine) : Prop where
  upper : g.upper = e.upper
  lowers : g.lowers = e.lowers
  files : g.files = e.files
  host : g.host = e.host
  undoFailed : g.undoFailed = e.undoFailed
  contexts : g.contexts = e.contexts

theorem Untouched.refl (e : Engine) : Untouched e e := ⟨rfl, rfl, rfl, rfl, rfl, rfl⟩

theorem Untouched.trans {f : Engine} (h : Untouched e f) (h' : Untouched f g) :
    Untouched e g :=
  ⟨h'.upper.trans h.upper, h'.lowers.trans h.lowers, h'.files.trans h.files,
    h'.host.trans h.host, h'.undoFailed.trans h.undoFailed,
    h'.contexts.trans h.contexts⟩

theorem Untouched.upperAt (h : Untouched e g) (p : RelPath) : g.upperAt p = e.upperAt p := by
  rw [Engine.upperAt, Engine.upperAt, h.upper]

theorem Untouched.config (h : Untouched e g) : g.config = e.config := by
  rw [Engine.config, Engine.config, h.upper, h.lowers, h.files]

theorem Untouched.resolvedAt (h : Untouched e g) (r : ResolvedPath) :
    g.resolvedAt r = e.resolvedAt r := by
  simp only [Engine.resolvedAt, Engine.upperAt, Engine.lowerAt, h.upper, h.lowers]

theorem Untouched.viewAt (h : Untouched e g) (r : RelPath) : viewAt g r = viewAt e r := by
  have hlayer : g.upperLayer = e.upperLayer := by
    rw [Engine.upperLayer, Engine.upperLayer, h.upper, h.files]
  rw [LayerMount.viewAt, LayerMount.viewAt, h.config, h.resolvedAt, h.files, hlayer]

theorem Untouched.treeStack (h : Untouched e g) : treeStack g = treeStack e := by
  rw [LayerMount.treeStack, LayerMount.treeStack, h.upper, h.lowers]

theorem Untouched.showAt (h : Untouched e g) (r : RelPath) : showAt g r = showAt e r := by
  rw [LayerMount.showAt, LayerMount.showAt, h.treeStack, h.files]

theorem diskStep_ensures (s : DiskStep) (e : Engine) :
    (diskStep s).Ensures e fun _ g => Untouched e g := by
  unfold Step.Ensures diskStep
  split
  · exact Untouched.refl e
  · split
    · exact Untouched.refl e
    · split <;> exact ⟨rfl, rfl, rfl, rfl, rfl, rfl⟩

/-- The cache aside, the state is the same. -/
structure Looked (e g : Engine) : Prop extends Untouched e g where
  fault : g.fault = e.fault

theorem Looked.refl (e : Engine) : Looked e e := ⟨Untouched.refl e, rfl⟩

theorem Looked.trans {f : Engine} (h : Looked e f) (h' : Looked f g) : Looked e g :=
  ⟨h.toUntouched.trans h'.toUntouched, h'.fault.trans h.fault⟩

theorem lookup_ensures (p : RelPath) (e : Engine) :
    (lookup p).Ensures e fun r g => r = .ok (resolvePath e.config p {}).1 ∧ Looked e g :=
  ⟨rfl, ⟨rfl, rfl, rfl, rfl, rfl, rfl⟩, rfl⟩

theorem invalidate_ensures (p : RelPath) (e : Engine) :
    (invalidate p).Ensures e fun r g => r = .ok () ∧ Looked e g :=
  ⟨rfl, ⟨rfl, rfl, rfl, rfl, rfl, rfl⟩, rfl⟩

theorem invalidateWithAncestors_ensures (p : RelPath) (e : Engine) :
    (invalidateWithAncestors p).Ensures e fun r g => r = .ok () ∧ Looked e g :=
  ⟨rfl, ⟨rfl, rfl, rfl, rfl, rfl, rfl⟩, rfl⟩

theorem Untouched.puts {f : Engine} {t : Place} (h : Untouched e f) (h' : PutsAt f g p t) :
    PutsAt e g p t where
  upper := by rw [h'.upper, h.upper]
  lowers := h'.lowers.trans h.lowers
  files := h'.files.trans h.files
  host := h'.host.trans h.host
  undoFailed := h'.undoFailed.trans h.undoFailed
  contexts := h'.contexts.trans h.contexts

theorem PutsAt.untouched {f : Engine} {t : Place} (h : PutsAt e f p t) (h' : Untouched f g) :
    PutsAt e g p t where
  upper := by rw [h'.upper, h.upper]
  lowers := h'.lowers.trans h.lowers
  files := h'.files.trans h.files
  host := h'.host.trans h.host
  undoFailed := h'.undoFailed.trans h.undoFailed
  contexts := h'.contexts.trans h.contexts

theorem putUpper_puts (e : Engine) (p : RelPath) (t : Place) : PutsAt e (e.putUpper p t) p t :=
  ⟨rfl, rfl, rfl, rfl, rfl, rfl⟩

/-- Every entry of the upper is the same. -/
structure SameEntries (e g : Engine) : Prop where
  entries : ∀ r, entryAt g.upper r = entryAt e.upper r
  lowers : g.lowers = e.lowers
  files : g.files = e.files
  host : g.host = e.host
  undoFailed : g.undoFailed = e.undoFailed
  contexts : g.contexts = e.contexts

theorem Untouched.sameEntries (h : Untouched e g) : SameEntries e g :=
  ⟨fun r => by rw [h.upper], h.lowers, h.files, h.host, h.undoFailed, h.contexts⟩

theorem SameEntries.trans {f : Engine} (h : SameEntries e f) (h' : SameEntries f g) :
    SameEntries e g :=
  ⟨fun r => (h'.entries r).trans (h.entries r), h'.lowers.trans h.lowers,
    h'.files.trans h.files, h'.host.trans h.host,
    h'.undoFailed.trans h.undoFailed, h'.contexts.trans h.contexts⟩

theorem SameEntries.sameAlong {V : Type} {f : TreeEntry → V} (h : SameEntries e g)
    (r : RelPath) : SameAlong f e g r := by
  apply sameAlong_of_upper h.lowers h.files rfl
  refine agreeAlong_of_reads ?_ ?_ ?_ fun x _ => (h.entries x).symm <;> rfl

theorem SameEntries.showAt (h : SameEntries e g) (r : RelPath) : showAt g r = showAt e r := by
  simpa using (h.sameAlong (f := id) r).showAt.symm

theorem SameEntries.viewAt (h : SameEntries e g) (r : RelPath) : viewAt g r = viewAt e r := by
  cases r with
  | nil =>
    have hentry := h.entries []
    rw [entryAt, entryAt, placeAt_nil, placeAt_nil] at hentry
    have hshown := congrArg (Option.map Prod.snd) ((@node_congr e.files _ _ hentry).2 true)
    rw [viewAt_nil, viewAt_nil, h.files]
    simpa [Function.comp_def] using hshown
  | cons m r => exact ((h.sameAlong _).viewAt (by simp)).symm

theorem SameEntries.isSome_upperAt (h : SameEntries e g) (r : RelPath) :
    (g.upperAt r).isSome = (e.upperAt r).isSome := by
  have := congrArg Option.isSome (h.entries r)
  rw [isSome_entryAt, isSome_entryAt] at this
  exact this

/-- What is put at a free place and taken away again leaves every entry as it was. -/
theorem SameEntries.of_undo {f : Engine} {t : Place} (hfree : e.upperAt p = none)
    (h : PutsAt e f p t) (h' : PutsAt f g p none) : SameEntries e g where
  entries := by
    intro r
    by_cases hpre : p <+: r
    · obtain ⟨q, rfl⟩ := hpre
      rw [Engine.upperAt] at hfree
      rw [entryAt, entryAt, h'.upper, placeAt_put_none, placeAt_append, hfree, placeAt_none]
    · rw [h'.upper, h.upper, entryAt_put_elsewhere hpre, entryAt_put_elsewhere hpre]
  lowers := h'.lowers.trans h.lowers
  files := h'.files.trans h.files
  host := h'.host.trans h.host
  undoFailed := h'.undoFailed.trans h.undoFailed
  contexts := h'.contexts.trans h.contexts

/-! ## Raised states -/

/-- More entries are in the upper, and the view is the same. -/
structure Raised (e g : Engine) : Prop where
  lowers : g.lowers = e.lowers
  files : e.files <+: g.files
  host : g.host = e.host
  undoFailed : g.undoFailed = e.undoFailed
  contexts : g.contexts = e.contexts
  view : ∀ r, viewAt g r = viewAt e r
  grows : ∀ r, (e.upperAt r).isSome = true → (g.upperAt r).isSome = true
  exact : ∀ r, r ≠ [] → g.upperAt r = none → showAt g r = showAt e r
  wf : e.Wf → g.Wf

theorem SameEntries.wf (h : SameEntries e g) (he : e.Wf) : g.Wf where
  upper := by
    intro r id hid
    rw [h.entries] at hid
    rw [h.files]
    exact he.upper r id hid
  lowers := by
    rw [h.lowers, h.files]
    exact he.lowers
  origins := by
    rw [h.files]
    exact he.origins

theorem SameEntries.raised (h : SameEntries e g) : Raised e g where
  lowers := h.lowers
  files := by rw [h.files]
  host := h.host
  undoFailed := h.undoFailed
  contexts := h.contexts
  view := h.viewAt
  grows r hr := by rw [h.isSome_upperAt r]; exact hr
  exact r _ _ := h.showAt r
  wf := h.wf

theorem Untouched.raised (h : Untouched e g) : Raised e g := h.sameEntries.raised

theorem Raised.refl (e : Engine) : Raised e e := (Untouched.refl e).raised

theorem Raised.trans {f : Engine} (h : Raised e f) (h' : Raised f g) : Raised e g where
  lowers := h'.lowers.trans h.lowers
  files := h.files.trans h'.files
  host := h'.host.trans h.host
  wf he := h'.wf (h.wf he)
  undoFailed := h'.undoFailed.trans h.undoFailed
  contexts := h'.contexts.trans h.contexts
  view r := (h'.view r).trans (h.view r)
  grows r hr := h'.grows r (h.grows r hr)
  exact := by
    intro r hne hr
    have hf : f.upperAt r = none := by
      by_contra hf
      have := h'.grows r (Option.isSome_iff_ne_none.mpr hf)
      rw [hr] at this
      cases this
    rw [h'.exact r hne hr, h.exact r hne hf]

/-- What the lower `i` shows of its entry `t`. -/
def lowerEntry (files : List FileObj) (i : Nat) (t : Tree) : TreeEntry :=
  ⟨some i, (layerEntry files t).attributes, shownOf files false t⟩

/-- The path shows the entry `t` of the lower `i`, and the upper does not hold it. -/
structure ShownBelow (e : Engine) (d : RelPath) (n : Name) (i : Nat) (t : Tree) : Prop where
  stop : (slotOf e.upper none d).stop = .none
  unmarked : (treeOverlay []).whites (slotOf e.upper none d) n = false
  resolvable : isResolvablePath e.config (d ++ [n]) = true
  look : (treeOverlay e.files).look (lowersOf e d n) = some (lowerEntry e.files i t)
  place : e.lowerAt i (d ++ [n]) = some t

theorem shownBelow_of_showAt {x : TreeEntry} (hfree : e.upperAt (d ++ [n]) = none)
    (hshow : showAt e (d ++ [n]) = some x) :
    ∃ i t, ShownBelow e d n i t ∧ x = lowerEntry e.files i t := by
  have hne : d ++ [n] ≠ [] := by simp
  have hres : isResolvablePath e.config (d ++ [n]) = true := by
    by_contra hres
    rw [showAt_eq e hne, if_neg hres] at hshow
    cases hshow
  rw [showAt_eq e hne, if_pos hres, slotsAt_snoc, hfree] at hshow
  have hentry : (treeOverlay e.files).entry (slotIn none (slotOf e.upper none d).stop none)
      = none := by simp [treeOverlay]
  rw [Overlay.look, hentry, lowersUnder] at hshow
  have hcov : ¬((treeOverlay []).covers (slotIn none (slotOf e.upper none d).stop none) ||
      (treeOverlay []).whites (slotOf e.upper none d) n) = true := by
    intro hcov
    rw [if_pos hcov] at hshow
    cases hshow
  rw [if_neg hcov, Option.isSome_none] at hshow
  rw [Bool.or_eq_true, not_or, Bool.not_eq_true, Bool.not_eq_true] at hcov
  have hstop : (slotOf e.upper none d).stop = .none := by
    by_contra hstop
    have : (slotIn none (slotOf e.upper none d).stop none).stop ≠ .none := by
      simp [slotIn, hstop]
    rw [covers_of_stop this] at hcov
    cases hcov.1
  have hpair := (treeOverlay e.files).descendFrom_pairwise n false (lowersAt e d)
  rw [descendFrom_files e.files []] at hpair
  obtain ⟨pre, T, post, t, hsplit, -, hT, hx⟩ := look_split hshow hpair
  have hmem : T ∈ lowersOf e d n := by
    rw [lowersOf, hsplit]
    simp
  obtain ⟨u, hu, rfl⟩ := (treeOverlay []).mem_descendFrom hmem
  obtain ⟨i, rfl⟩ := mem_lowersAt hu
  have hslot : (treeOverlay []).child (slotOf (e.lowers.getD i none) (some i) d) n
      = slotOf (e.lowers.getD i none) (some i) (d ++ [n]) := (slotOf_snoc d n).symm
  rw [hslot] at hT hx
  rw [slotOf_sub] at hT
  have hxe : x = lowerEntry e.files i t := by
    simp only [treeOverlay, slotOf_sub, hT, slotOf_lowerIndex, Option.map_some,
      Option.some.injEq, Option.isNone_some, Bool.false_and] at hx
    exact hx.symm
  rw [hxe] at hshow
  exact ⟨i, t, ⟨hstop, hcov.2, hres, hshow, hT⟩, hxe⟩

theorem ShownBelow.resolveLowerPath {i : Nat} {t : Tree} (h : ShownBelow e d n i t) :
    resolveLowerPath e.config (d ++ [n])
      = hitAt (d ++ [n]) .lower (some i) (layerEntry e.files t).attributes := by
  rw [resolveLowerPath_eq, if_pos h.resolvable, h.look]
  rfl

theorem NamesBelow.clonedLink {k : Nat} {t : Tree} (h : NamesBelow k (some t)) :
    NamesBelow k (some (CopyUp.clonedLink t)) := by
  intro r id hid
  apply h r id
  cases r with
  | nil =>
    cases t with
    | node v children => simp [entryAt, CopyUp.clonedLink, PathTree.entry] at hid
    | leaf w => exact hid
  | cons m r =>
    rw [entryAt_cons, childAt_clonedLink] at hid
    rw [entryAt_cons]
    exact hid

theorem CopiesAt.wf {t t' : Tree} (h : CopiesAt e g d n t t') (he : e.Wf) : g.Wf := by
  apply h.puts.wf h.parent h.plain.1 _ he
  cases h.copies with
  | @file _ id hid hkind hshown =>
    intro r id' hr
    cases r with
    | nil =>
      obtain rfl : id = id' := by simpa [entryAt, PathTree.entry] using hr
      exact hid
    | cons m r =>
      rw [entryAt_cons, childAt_leaf, entryAt, placeAt_none] at hr
      cases hr
  | link hkind =>
    obtain ⟨x, i, -, -, hplace⟩ := h.shown
    have hnames := he.lowerAt i (d ++ [n])
    rw [hplace] at hnames
    exact hnames.clonedLink
  | @directory v children readOnly hlink =>
    intro r id hr
    cases r with
    | nil => simp [entryAt, PathTree.entry] at hr
    | cons m r =>
      have hnone : childAt (some (.node { readOnly } [] : Tree)) m = none := by
        simp [childAt, placeAt, PathTree.sub_cons, PathTree.child]
      rw [entryAt_cons, hnone, entryAt, placeAt_none] at hr
      cases hr

theorem CopiesAt.raised {t t' : Tree} (h : CopiesAt e g d n t t') : Raised e g where
  lowers := h.puts.lowers
  files := by rw [h.puts.files]
  host := h.puts.host
  wf := h.wf
  undoFailed := h.puts.undoFailed
  contexts := h.puts.contexts
  view := h.viewAt
  grows _ hr := h.grows hr
  exact _ _ hr := h.showAt_exact hr

/-- Below a directory of the upper a shown path from a lower can be copied. -/
theorem ShownBelow.copiesAt {i : Nat} {t t' : Tree} (h : ShownBelow e d n i t)
    (hparent : leadsToDirectory (e.upperAt d) = true) (hfree : e.upperAt (d ++ [n]) = none)
    (hputs : PutsAt e g (d ++ [n]) (some t')) (hcopy : Copies e.files t t') :
    CopiesAt e g d n t t' := by
  have hd : (e.upperAt d).isSome = true := by
    cases hu : e.upperAt d with
    | none => rw [hu] at hparent; cases hparent
    | some t => rfl
  have hdot : n ≠ ['.'] := by
    intro hn
    have hplace := h.place
    rw [Engine.lowerAt, hn, placeAt_snoc] at hplace
    simp [childAt, placeAt] at hplace
  have hplain : isWhiteoutName n = false := by
    have hres := h.resolvable
    rw [isResolvablePath_eq e (by simp), passes_snoc, Bool.and_eq_true, Bool.and_eq_true,
      nameShown, Bool.and_eq_true, Bool.or_eq_true] at hres
    rcases hres.2.2.2 with hn | hany
    · simpa using hn
    · -- no slot of the directory is in a link's target
      obtain ⟨s, hs, hlink⟩ := List.any_eq_true.mp hany
      have hs : s ∈ slotsAt e d := hs
      rw [slotsAt_cons] at hs
      rcases List.mem_cons.mp hs with rfl | hs
      · rw [h.stop] at hlink
        cases hlink
      · exact absurd (by simpa using hlink) (stop_of_mem_lowersAt hs hd)
  exact ⟨hputs, ⟨hdot, hplain⟩, hparent, hfree, h.stop, h.unmarked, ⟨_, i, h.look, rfl, h.place⟩,
    hcopy⟩

/-! ## A new file -/

/-- The tables give the first `k` files the same attributes and content. -/
def SameFiles (k : Nat) (files files' : List FileObj) : Prop :=
  ∀ id, id < k → fileAt files id = fileAt files' id ∧
    logicalData files id = logicalData files' id

theorem SameFiles.node {k : Nat} {files files' : List FileObj} (h : SameFiles k files files')
    {o : Place} (ho : NamesBelow k o) (record : Bool) :
    o.map (fun t => ((layerEntry files t).attributes, shownOf files record t))
      = o.map fun t => ((layerEntry files' t).attributes, shownOf files' record t) := by
  cases o with
  | none => rfl
  | some t =>
    cases t with
    | node v children => rfl
    | leaf w =>
      cases w with
      | file id =>
        have hid : id < k := by
          apply ho [] id
          rfl
        simp [layerEntry, shownOf, (h id hid).1, (h id hid).2]
      | deadLink => rfl
      | marker => rfl

theorem SameFiles.agreeAlong {V : Type} {f : TreeEntry → V} {k : Nat} {files files' : List FileObj}
    (h : SameFiles k files files') {s : TreeSlot} (hs : NamesBelow k s.sub) (r : RelPath) :
    AgreeAlong f files files' r s s := by
  have hsame : ∀ {s : TreeSlot}, NamesBelow k s.sub → SameSlot f files files' s s := by
    intro s hs
    refine ⟨rfl, rfl, rfl, ?_, rfl⟩
    have hnode := congrArg (Option.map fun x => f ⟨s.lowerIndex, x.1, x.2⟩)
      (h.node hs (s.lowerIndex.isNone && s.stop ≠ .link))
    simpa [treeOverlay, Function.comp_def] using hnode
  induction r generalizing s with
  | nil => exact hsame hs
  | cons n r ih =>
    refine ⟨hsame hs, rfl, ih ?_⟩
    rw [child_sub]
    exact hs.placeAt [n]

theorem namesBelow_of_mem_treeStack (he : e.Wf) {s : TreeSlot} (hs : s ∈ treeStack e) :
    NamesBelow e.files.length s.sub := by
  have hlow : ∀ (lowers : List Place) (i : Nat), ∀ s ∈ lowerStackFrom i lowers, s.sub ∈ lowers := by
    intro lowers
    induction lowers with
    | nil => simp [lowerStackFrom]
    | cons o rest ih =>
      intro i s hs
      rcases List.mem_cons.mp hs with rfl | hs
      · simp
      · simp [ih (i + 1) s hs]
  rcases List.mem_cons.mp hs with rfl | hs
  · exact he.upper
  · exact he.lowers _ (hlow _ _ s hs)

/-- The origin of a copy-up record exists. -/
theorem Engine.Wf.origin_lt {id : FileId} {origin : Origin} (he : e.Wf)
    (h : (fileAt e.files id).metacopy = some origin) : origin.file < e.files.length := by
  by_cases hid : id < e.files.length
  · refine he.origins (fileAt e.files id) ?_ origin h
    rw [fileAt, List.getD_eq_getElem?_getD, List.getElem?_eq_getElem hid]
    exact List.getElem_mem hid
  · rw [fileAt, List.getD_eq_getElem?_getD, List.getElem?_eq_none (Nat.le_of_not_lt hid)] at h
    cases h

theorem sameFiles_append (he : e.Wf) (x : FileObj) :
    SameFiles e.files.length e.files (e.files ++ [x]) := by
  have hat : ∀ id, id < e.files.length → fileAt (e.files ++ [x]) id = fileAt e.files id := by
    intro id hid
    simp only [fileAt, List.getD_eq_getElem?_getD, List.getElem?_append_left hid]
  intro id hid
  refine ⟨(hat id hid).symm, ?_⟩
  rw [logicalData, logicalData, hat id hid]
  cases hm : (fileAt e.files id).metacopy with
  | none => rfl
  | some origin => simp only [hat _ (he.origin_lt hm)]

/-- The state with one more file, which nothing names yet. -/
theorem raised_newFile (he : e.Wf) (x : FileObj)
    (horigin : ∀ origin, x.metacopy = some origin → origin.file < e.files.length) :
    Raised e { e with files := e.files ++ [x] } := by
  have hsame := sameFiles_append he x
  have halong : ∀ {V : Type} {f : TreeEntry → V} (r : RelPath),
      SameAlong f e { e with files := e.files ++ [x] } r := by
    intro V f r
    apply List.forall₂_same.mpr
    intro s hs
    exact hsame.agreeAlong (namesBelow_of_mem_treeStack he hs) r
  have hlen : (e.files ++ [x]).length = e.files.length + 1 := by simp
  refine ⟨rfl, List.prefix_append _ _, rfl, rfl, rfl, ?_, fun _ h => h, ?_, fun _ => ⟨?_, ?_, ?_⟩⟩
  · intro r
    cases r with
    | nil =>
      have hshown := congrArg (Option.map Prod.snd) (hsame.node he.upper true)
      rw [viewAt_nil, viewAt_nil]
      simpa [Function.comp_def] using hshown.symm
    | cons m r => exact ((halong (m :: r)).viewAt (by simp)).symm
  · intro r _ _
    simpa using (halong (f := id) r).showAt.symm
  · exact he.upper.mono (by simp)
  · exact fun o ho => (he.lowers o ho).mono (by simp)
  · intro f hf origin horig
    rw [hlen]
    rcases List.mem_append.mp hf with hf | hf
    · exact Nat.lt_succ_of_lt (he.origins f hf origin horig)
    · obtain rfl : f = x := by simpa using hf
      exact Nat.lt_succ_of_lt (horigin origin horig)

/-! ## The steps of a copy-up -/

theorem placeEntry_ensures (p : RelPath) (t : Tree) (e : Engine) :
    (placeEntry p t).Ensures e fun r g =>
      match r with
      | .ok _ => leadsToDirectory (e.upperAt p.dropLast) = true ∧ e.upperAt p = none ∧
          PutsAt e g p (some t)
      | .error _ => Untouched e g := by
  apply Step.Ensures.get
  apply Step.Ensures.ite
  · exact fun _ => Untouched.refl e
  · intro hlead
    apply Step.Ensures.ite
    · exact fun _ => Untouched.refl e
    · intro hfree
      exact ⟨by simpa using hlead, by simpa using hfree, putUpper_puts e p (some t)⟩

theorem removeStagedEntry_ensures (e : Engine) :
    removeStagedEntry.Ensures e fun r g => r = .ok () ∧ Untouched e g :=
  ⟨rfl, rfl, rfl, rfl, rfl, rfl, rfl⟩

/-- A failed step on a staged entry, and the removal of the entry. -/
theorem removingStagedOnFailure_ensures {α : Type} {m : Op α}
    {Q : Except NtStatus α → Engine → Prop} (h : m.Ensures e Q)
    (hfail : ∀ status f g, Q (.error status) f → Untouched f g → Q (.error status) g) :
    (removingStagedOnFailure m).Ensures e Q := by
  refine Step.Ensures.attempt_bind h ?_
  intro r f hf
  cases r with
  | ok a => exact hf
  | error status =>
    refine Step.Ensures.bind (removeStagedEntry_ensures f) ?_ fun _ _ hg => by cases hg.1
    intro _ g hg
    exact hfail status f g hf hg.2

theorem stageEntry_ensures (t : Tree) (e : Engine) :
    (stageEntry t).Ensures e fun _ g => Untouched e g := by
  have hpush : Untouched e { e with staging := t :: e.staging } := ⟨rfl, rfl, rfl, rfl, rfl, rfl⟩
  apply removingStagedOnFailure_ensures
  · exact (diskStep_ensures .stage _).mono fun _ _ hg => hpush.trans hg
  · exact fun _ _ _ hf hg => hf.trans hg

theorem commitStaged_ensures (p : RelPath) (t : Tree) (e : Engine) :
    (commitStaged p t).Ensures e fun r g =>
      match r with
      | .ok _ => leadsToDirectory (e.upperAt p.dropLast) = true ∧ e.upperAt p = none ∧
          PutsAt e g p (some t)
      | .error _ => SameEntries e g := by
  apply removingStagedOnFailure_ensures
  · refine Step.Ensures.bind (diskStep_ensures .commit e) ?_ ?_
    · intro _ f hf
      refine Step.Ensures.bind (placeEntry_ensures p t f) ?_ ?_
      · intro _ f' ⟨hlead, hfree, hputs⟩
        rw [hf.upperAt] at hlead hfree
        have hpop : Untouched f' { f' with staging := f'.staging.tail } :=
          ⟨rfl, rfl, rfl, rfl, rfl, rfl⟩
        have hputs := (hf.puts hputs).untouched hpop
        apply Step.Ensures.modify_bind
        refine Step.Ensures.attempt_bind (diskStep_ensures .moveRecord _) ?_
        intro r f'' hf''
        cases r with
        | ok _ => exact ⟨hlead, hfree, hputs.untouched hf''⟩
        | error status =>
          refine SameEntries.of_undo hfree (hputs.untouched hf'') ?_
          exact ⟨rfl, rfl, rfl, rfl, rfl, rfl⟩
      · intro _ f' hf'
        exact (hf.trans hf').sameEntries
    · intro _ f hf
      exact hf.sameEntries
  · exact fun _ _ _ hf hg => hf.trans hg.sameEntries

/-- The state after a copy-up of `p`: raised, and when it succeeds the upper holds `p`. -/
structure RaisedTo {α : Type} (e g : Engine) (p : RelPath) (r : Except NtStatus α) : Prop where
  raised : Raised e g
  holds : ∀ a, r = .ok a → (g.upperAt p).isSome = true

theorem RaisedTo.error {α : Type} {status : NtStatus} (h : Raised e g) :
    RaisedTo e g p (.error status : Except NtStatus α) :=
  ⟨h, fun _ hr => by cases hr⟩

theorem RaisedTo.failed {α β : Type} {status : NtStatus}
    (h : RaisedTo e g p (.error status : Except NtStatus α)) :
    RaisedTo e g p (.error status : Except NtStatus β) :=
  .error h.raised

theorem RaisedTo.untouched {α β : Type} {f : Engine} {a : α} {r : Except NtStatus β}
    (h : RaisedTo e f p (.ok a : Except NtStatus α)) (h' : Untouched f g) : RaisedTo e g p r :=
  ⟨h.raised.trans h'.raised, fun _ _ => by rw [h'.upperAt]; exact h.holds a rfl⟩

/-- A path that shows and that the upper does not hold shows an entry of a lower, and
the lookup of the lowers finds it. -/
theorem shownBelow_of_viewAt {v : Shown} (hfree : e.upperAt (d ++ [n]) = none)
    (hview : viewAt e (d ++ [n]) = some v) :
    ∃ i t, ShownBelow e d n i t ∧ v = shownOf e.files false t := by
  rw [viewAt_eq e (by simp), Option.map_eq_some_iff] at hview
  obtain ⟨x, hx, rfl⟩ := hview
  obtain ⟨i, t, hshown, rfl⟩ := shownBelow_of_showAt hfree hx
  exact ⟨i, t, hshown, rfl⟩

/-- A staged copy of what a shown path's lookup of the lowers found, moved to the upper
after more of its ancestors have been copied. -/
theorem commitStaged_raised {f : Engine} {v : Shown} {t t' : Tree}
    (hview : viewAt e (d ++ [n]) = some v) (hr : Raised e f)
    (ht : f.resolvedAt (resolveLowerPath e.config (d ++ [n])) = some t)
    (hcopy : v = shownOf f.files false t → Copies f.files t t') :
    (commitStaged (d ++ [n]) t').Ensures f fun r g => RaisedTo e g (d ++ [n]) r := by
  refine (commitStaged_ensures (d ++ [n]) t' f).mono ?_
  intro r g h
  cases r with
  | error _ => exact .error (hr.trans h.raised)
  | ok _ =>
    obtain ⟨hlead, hfree, hputs⟩ := h
    rw [List.dropLast_concat] at hlead
    have hfree' : e.upperAt (d ++ [n]) = none := by
      by_contra hne
      have := hr.grows _ (Option.isSome_iff_ne_none.mpr hne)
      rw [hfree] at this
      cases this
    -- the lookup of the lowers would still find the same entry
    have hview' := hview
    rw [viewAt_eq e (by simp), Option.map_eq_some_iff] at hview'
    obtain ⟨x, hx, rfl⟩ := hview'
    have hx' := hr.exact _ (by simp) hfree
    rw [hx] at hx'
    obtain ⟨i, u, hshown, hxi⟩ := shownBelow_of_showAt hfree' hx
    obtain ⟨i', u', hshown', hxi'⟩ := shownBelow_of_showAt hfree hx'
    obtain rfl : i = i' := by
      have := congrArg TreeEntry.lowerIndex (hxi.symm.trans hxi')
      exact Option.some.inj this
    have hu : u' = t := by
      have hplace : f.resolvedAt (resolveLowerPath e.config (d ++ [n]))
          = f.lowerAt i (d ++ [n]) := by
        rw [hshown.resolveLowerPath]
        rfl
      rw [hplace, hshown'.place] at ht
      exact Option.some.inj ht
    subst hu
    have hcopies := hshown'.copiesAt hlead hfree hputs (hcopy (by rw [hxi']; rfl))
    refine ⟨hr.trans hcopies.raised, fun _ _ => ?_⟩
    rw [hputs.upperAt hlead hcopies.plain.1]
    rfl

end LayerMount
