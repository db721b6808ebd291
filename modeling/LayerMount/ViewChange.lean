import LayerMount.ViewFrame

/-!
# The view at and below a changed place

The slots of a path are the slot of the upper and those of the lowers that still
count (`slotsAt_cons`).  When the upper changes at `d\n` alone, the slots there are
the new place over the same lowers (`slotsAt_put`).
-/

namespace LayerMount

open Lib

variable {files files' : List FileObj} {e g : Engine} {d p q : RelPath} {n : Name}

/-! ## The slots do not depend on the files -/

theorem descendFrom_files (files files' : List FileObj) (n : Name) (held : Bool)
    (slots : List TreeSlot) :
    (treeOverlay files).descendFrom n held slots
      = (treeOverlay files').descendFrom n held slots := by
  induction slots generalizing held with
  | nil => rfl
  | cons s rest ih =>
    have hentry : ((treeOverlay files).entry (s.child n)).isSome
        = ((treeOverlay files').entry (s.child n)).isSome := by
      simp [treeOverlay]
    have hchild : ∀ files, (treeOverlay files).child s n = s.child n := fun _ => rfl
    have hcov : ∀ s, (treeOverlay files).covers s = (treeOverlay files').covers s := fun _ => rfl
    rw [Overlay.descendFrom, Overlay.descendFrom, ih, hchild, hchild, hentry, hcov]
    rfl

theorem walk_files (files files' : List FileObj) (slots : List TreeSlot) (p : RelPath) :
    (treeOverlay files).walk slots p = (treeOverlay files').walk slots p := by
  induction p generalizing slots with
  | nil => rfl
  | cons n p ih =>
    rw [Overlay.walk_cons, Overlay.walk_cons, Overlay.descend, Overlay.descend,
      descendFrom_files files files', ih]

theorem cut_files (files files' : List FileObj) (slots : List TreeSlot) :
    (treeOverlay files).cut slots = (treeOverlay files').cut slots := by
  induction slots with
  | nil => rfl
  | cons s rest ih =>
    rw [Overlay.cut, Overlay.cut, ih]
    rfl

theorem passes_files (files files' : List FileObj) (slots : List TreeSlot) (p : RelPath) :
    passes files slots p = passes files' slots p := by
  induction p generalizing slots with
  | nil => rfl
  | cons n p ih =>
    rw [passes, passes, Overlay.descend, Overlay.descend, descendFrom_files files files', ih]

/-! ## The upper's slot and the lowers' slots -/

/-- The slots of the lowers that count at a path. -/
def lowersAt (e : Engine) (p : RelPath) : List TreeSlot := (slotsAt e p).tail

/-- What a place `o` of the upper leaves of the lowers' slots, at the name `n` below
the upper's slot `s`. -/
def lowersUnder (s : TreeSlot) (n : Name) (o : Place) (lowers : List TreeSlot) :
    List TreeSlot :=
  if (treeOverlay []).covers (slotIn none s.stop o) || (treeOverlay []).whites s n then []
  else (treeOverlay []).descendFrom n o.isSome lowers

theorem descend_upper {s : TreeSlot} (hs : s.lowerIndex = none) (n : Name)
    (lowers : List TreeSlot) :
    (treeOverlay files).descend (s :: lowers) n
      = slotIn none s.stop (childAt s.sub n) :: lowersUnder s n (childAt s.sub n) lowers := by
  have hup : (treeOverlay files).upper s = true := by simp [treeOverlay, hs]
  have hchild : (treeOverlay files).child s n = slotIn none s.stop (childAt s.sub n) := by
    rw [← hs]
    rfl
  have hentry : ((treeOverlay files).entry (slotIn none s.stop (childAt s.sub n))).isSome
      = (childAt s.sub n).isSome := by
    simp [treeOverlay]
  rw [Overlay.descend, Overlay.descendFrom, lowersUnder, hup, hchild, hentry]
  simp only [Bool.not_true, Bool.false_and, Bool.false_eq_true, if_false, Bool.true_and,
    Bool.false_or]
  rw [descendFrom_files files []]
  rfl

theorem slotsAt_cons (e : Engine) (p : RelPath) :
    slotsAt e p = slotOf e.upper none p :: lowersAt e p := by
  induction p using List.reverseRecOn with
  | nil => rfl
  | append_singleton d n ih =>
    have hsnoc : slotsAt e (d ++ [n]) = (treeOverlay e.files).descend (slotsAt e d) n :=
      Overlay.live_snoc _ _ _ _
    rw [lowersAt, hsnoc, ih, descend_upper (slotOf_lowerIndex d), slotOf_snoc, TreeSlot.child,
      slotOf_lowerIndex]
    rfl

theorem lowersAt_snoc (e : Engine) (d : RelPath) (n : Name) :
    lowersAt e (d ++ [n])
      = lowersUnder (slotOf e.upper none d) n (e.upperAt (d ++ [n])) (lowersAt e d) := by
  have hsnoc : slotsAt e (d ++ [n]) = (treeOverlay e.files).descend (slotsAt e d) n :=
    Overlay.live_snoc _ _ _ _
  rw [lowersAt, hsnoc, slotsAt_cons, descend_upper (slotOf_lowerIndex d), slotOf_sub,
    Engine.upperAt, placeAt_snoc]
  rfl

theorem slotsAt_snoc (e : Engine) (d : RelPath) (n : Name) :
    slotsAt e (d ++ [n])
      = slotIn none (slotOf e.upper none d).stop (e.upperAt (d ++ [n])) ::
          lowersUnder (slotOf e.upper none d) n (e.upperAt (d ++ [n])) (lowersAt e d) := by
  rw [slotsAt_cons, lowersAt_snoc, slotOf_snoc, TreeSlot.child, slotOf_lowerIndex, slotOf_sub,
    Engine.upperAt, placeAt_snoc]

/-- Every slot of a lower is the place of the path in that lower. -/
theorem mem_lowersAt {s : TreeSlot} (hs : s ∈ lowersAt e p) :
    ∃ i, s = slotOf (e.lowers.getD i none) (some i) p := by
  induction p using List.reverseRecOn generalizing s with
  | nil =>
    have hroot : ∀ (lowers : List Place) (i : Nat),
        (∀ k o, lowers[k]? = some o → e.lowers.getD (i + k) none = o) →
        ∀ s ∈ (treeOverlay e.files).cut (lowerStackFrom i lowers),
          ∃ i, s = slotOf (e.lowers.getD i none) (some i) [] := by
      intro lowers
      induction lowers with
      | nil => simp [lowerStackFrom, Overlay.cut]
      | cons o rest ih =>
        intro i h s hs
        rw [lowerStackFrom, Overlay.cut, List.mem_cons] at hs
        have ho : e.lowers.getD i none = o := h 0 o rfl
        rcases hs with rfl | hs
        · exact ⟨i, by rw [slotOf, List.foldl_nil, ho]⟩
        · refine ih (i + 1) ?_ s ?_
          · intro k o' hk
            rw [show i + 1 + k = i + (k + 1) by omega]
            exact h (k + 1) o' (by simpa using hk)
          · split at hs
            · simp at hs
            · exact hs
    rw [lowersAt, slotsAt, Overlay.live, treeStack, Overlay.cut, Overlay.walk_nil,
      List.tail_cons] at hs
    split at hs
    · simp at hs
    · refine hroot e.lowers 0 ?_ s hs
      intro k o hk
      rw [Nat.zero_add, List.getD_eq_getElem?_getD, hk]
      rfl
  | append_singleton d n ih =>
    rw [lowersAt_snoc, lowersUnder] at hs
    split at hs
    · simp at hs
    · obtain ⟨t, ht, rfl⟩ := (treeOverlay []).mem_descendFrom hs
      obtain ⟨i, rfl⟩ := ih ht
      exact ⟨i, (slotOf_snoc d n).symm⟩

theorem showAt_below (e : Engine) (hp : p ≠ []) (q : RelPath) :
    showAt e (p ++ q) = if isResolvablePath e.config p then
      showFrom e.files (slotsAt e p) q else none := by
  have hside : isRootSidecarPath (p ++ q) = isRootSidecarPath p := by
    cases p with
    | nil => exact absurd rfl hp
    | cons m p => rfl
  rw [showAt, hside, isResolvablePath_eq e hp, showFrom_append]
  cases isRootSidecarPath p <;> rfl

/-! ## The lowers alone -/

/-- The slots of the lowers at `d\n`, whatever the upper holds there. -/
def lowersOf (e : Engine) (d : RelPath) (n : Name) : List TreeSlot :=
  (treeOverlay []).descendFrom n false (lowersAt e d)

/-- `ResolveLowerPath` gives what the lowers' slots show. -/
theorem resolveLowerPath_eq (e : Engine) (d : RelPath) (n : Name) :
    resolveLowerPath e.config (d ++ [n])
      = resultOf (d ++ [n]) false (if isResolvablePath e.config (d ++ [n]) then
          (treeOverlay e.files).look (lowersOf e d n) else none) := by
  have hshown := resolveLowerPath_shown (d := d) (n := n) e.sound
  have hcases : (∃ k a, resolveLowerPath e.config (d ++ [n])
        = hitAt (d ++ [n]) .lower (some k) a) ∨ resolveLowerPath e.config (d ++ [n]) = {} := by
    rw [resolveLowerPath]
    split
    · exact .inr rfl
    · split
      · exact .inr rfl
      · exact findInLowersFrom_cases _ _ _ _
  have hcor : List.Forall₂ (Corresponds e)
      (layersOverlay.descendFrom n false (liveSlots e.config d).tail) (lowersOf e d n) := by
    rw [lowersOf, descendFrom_files [] e.files]
    apply (corresponds_simulates e).descendFrom (p := [])
    have htail := corresponds_slots e d
    rw [slotsAt_cons] at htail
    cases hl : liveSlots e.config d with
    | nil => rw [hl] at htail; cases htail
    | cons s rest =>
      rw [hl] at htail
      exact (List.forall₂_cons.mp htail).2
  have hpath : ∀ s ∈ layersOverlay.descendFrom n false (liveSlots e.config d).tail,
      s.path = d ++ [n] := by
    intro s hs
    obtain ⟨t, ht, rfl⟩ := layersOverlay.mem_descendFrom hs
    have := (readable_of_mem_liveSlots e.sound (List.mem_of_mem_tail ht)).2
    simp [layersOverlay, this]
  rcases look_corresponds hcor hpath with ⟨hnone, hnone'⟩ | ⟨i, t, -, -, hlook, hlook'⟩
  · rw [hnone, ite_self] at hshown
    rw [hnone', ite_self]
    rcases hcases with ⟨k, a, hhit⟩ | hmiss
    · rw [hhit] at hshown
      simp [hitAt, ResolvedPath.shown, ResolvedPath.found] at hshown
    · rw [hmiss]
      rfl
  · rw [hlook] at hshown
    rw [hlook']
    rcases hcases with ⟨k, a, hhit⟩ | hmiss
    · rw [hhit] at hshown ⊢
      split at hshown
      · simp only [hitAt, ResolvedPath.shown, ResolvedPath.found] at hshown
        simp at hshown
        obtain ⟨hsrc, rfl, rfl⟩ := hshown
        simp_all [resultOf]
      · simp [hitAt, ResolvedPath.shown, ResolvedPath.found] at hshown
    · rw [hmiss] at hshown ⊢
      split at hshown
      · cases hshown
      · simp_all [resultOf]

/-! ## One changed place -/

section Changed

variable {V : Type} {f : TreeEntry → V}

theorem AgreeAlong.lowersUnder {s s' : TreeSlot} {n : Name} {r : RelPath}
    (h : AgreeAlong f files files' (n :: r) s s') (hs : s.lowerIndex = none)
    (lowers : List TreeSlot) :
    lowersUnder s n (childAt s.sub n) lowers = lowersUnder s' n (childAt s'.sub n) lowers := by
  have hs' : s'.lowerIndex = none := h.same.lowerIndex ▸ hs
  have hsame := h.2.2.same
  have hcov : (treeOverlay []).covers (slotIn none s.stop (childAt s.sub n))
      = (treeOverlay []).covers (slotIn none s'.stop (childAt s'.sub n)) := by
    have := hsame.covers
    rw [TreeSlot.child, TreeSlot.child, hs, hs'] at this
    exact this
  have hsome : (childAt s.sub n).isSome = (childAt s'.sub n).isSome := by
    simpa [treeOverlay] using congrArg Option.isSome hsame.entry
  have hwhites : (treeOverlay []).whites s n = (treeOverlay []).whites s' n := h.2.1
  rw [LayerMount.lowersUnder, LayerMount.lowersUnder, hcov, hsome, hwhites]

/-- Uppers that agree along a path leave the same slots of the lowers. -/
theorem AgreeAlong.walk_upper {s s' : TreeSlot} {r : RelPath}
    (h : AgreeAlong f files files' r s s') (hs : s.lowerIndex = none) (lowers : List TreeSlot) :
    ((treeOverlay []).walk (s :: lowers) r).tail
      = ((treeOverlay []).walk (s' :: lowers) r).tail := by
  induction r generalizing s s' lowers with
  | nil => rfl
  | cons n r ih =>
    have hs' : s'.lowerIndex = none := h.same.lowerIndex ▸ hs
    rw [Overlay.walk_cons, Overlay.walk_cons, descend_upper hs, descend_upper hs',
      ← h.lowersUnder hs]
    have hchild : ∀ {s : TreeSlot}, s.lowerIndex = none →
        slotIn none s.stop (childAt s.sub n) = s.child n := by
      intro s hs
      rw [TreeSlot.child, hs]
    rw [hchild hs, hchild hs']
    exact ih h.2.2 (by simpa using hs) _

theorem lowersAt_congr (hlow : g.lowers = e.lowers)
    (h : AgreeAlong f files files' d (rootSlot e) (rootSlot g)) :
    lowersAt g d = lowersAt e d := by
  have hcov : (treeOverlay []).covers (rootSlot e) = (treeOverlay []).covers (rootSlot g) :=
    h.same.covers
  have hcut : ∀ g : Engine, (treeOverlay []).cut (treeStack g) = rootSlot g ::
      if (treeOverlay []).covers (rootSlot g) then []
      else (treeOverlay []).cut (lowerStackFrom 0 g.lowers) := fun _ => rfl
  rw [lowersAt, lowersAt, slotsAt, slotsAt, Overlay.live, Overlay.live, walk_files g.files [],
    walk_files e.files [], cut_files g.files [], cut_files e.files [], hcut, hcut, ← hcov, hlow]
  exact (h.walk_upper rfl _).symm

end Changed

theorem ne_whiteoutName (n : Name) : n ≠ whiteoutName n := by
  intro h
  have := congrArg List.length h
  rw [whiteoutName, List.length_append, kWhiteoutPrefix] at this
  simp only [List.length_cons] at this
  omega

/-- The state `g` has `t` at `p` of the upper and is `e` otherwise. -/
structure PutsAt (e g : Engine) (p : RelPath) (t : Place) : Prop where
  upper : g.upper = PathTree.put e.upper p t
  lowers : g.lowers = e.lowers
  files : g.files = e.files
  host : g.host = e.host
  undoFailed : g.undoFailed = e.undoFailed
  contexts : g.contexts = e.contexts

/-- A name that an entry of the upper can have without being read as a marker. -/
def PlainAt (e : Engine) (d : RelPath) (n : Name) : Prop :=
  n ≠ ['.'] ∧ (isWhiteoutName n = false ∨ (slotOf e.upper none d).stop = .link)

theorem canPut_of_leads {o : Place} (h : leadsToDirectory (placeAt o d) = true) (n : Name) :
    PathTree.CanPut o (d ++ [n]) ∧ ['.'] ∉ d := by
  rw [placeAt] at h
  split at h
  · cases h
  · rename_i hdot
    refine ⟨.inr ?_, by simpa using hdot⟩
    rw [List.dropLast_concat]
    cases hs : PathTree.sub o d with
    | none => rw [hs] at h; cases h
    | some t =>
      cases t with
      | leaf v => rw [hs] at h; cases h
      | node v children => exact ⟨v, children, rfl⟩

theorem placeAt_put {o : Place} (h : leadsToDirectory (placeAt o d) = true) (hn : n ≠ ['.'])
    (t : Place) (q : RelPath) :
    placeAt (PathTree.put o (d ++ [n]) t) (d ++ [n] ++ q) = placeAt t q := by
  obtain ⟨hcan, hdot⟩ := canPut_of_leads h n
  have hmem : ['.'] ∈ d ++ [n] ++ q ↔ ['.'] ∈ q := by
    simp [hdot, Ne.symm hn]
  simp only [placeAt, List.contains_iff_mem, hmem]
  split
  · rfl
  · exact PathTree.sub_put_append hcan t q

theorem placeAt_put_none (o : Place) (p q : RelPath) :
    placeAt (PathTree.put o p none) (p ++ q) = none := by
  rw [placeAt]
  split
  · rfl
  · exact PathTree.sub_put_none o p q

/-! ## Named files -/

/-- Every file that the tree names is one of the first `k`. -/
def NamesBelow (k : Nat) (o : Place) : Prop :=
  ∀ r id, entryAt o r = some (.inl (.file id)) → id < k

/-- The trees and the copy-up records name files that are there. -/
structure Engine.Wf (e : Engine) : Prop where
  upper : NamesBelow e.files.length e.upper
  lowers : ∀ o ∈ e.lowers, NamesBelow e.files.length o
  origins : ∀ f ∈ e.files, ∀ origin, f.metacopy = some origin → origin.file < e.files.length

theorem NamesBelow.mono {k k' : Nat} {o : Place} (h : NamesBelow k o) (hk : k ≤ k') :
    NamesBelow k' o := by
  intro r id hid
  exact Nat.lt_of_lt_of_le (h r id hid) hk

theorem NamesBelow.placeAt {k : Nat} {o : Place} (h : NamesBelow k o) (p : RelPath) :
    NamesBelow k (placeAt o p) := by
  intro r id hid
  apply h (p ++ r) id
  rw [entryAt, placeAt_append]
  exact hid

theorem Engine.Wf.lowerAt (h : e.Wf) (i : Nat) (p : RelPath) :
    NamesBelow e.files.length (e.lowerAt i p) := by
  apply NamesBelow.placeAt
  cases hi : e.lowers[i]? with
  | none =>
    rw [List.getD_eq_getElem?_getD, hi]
    intro r id hid
    simp [entryAt] at hid
  | some o =>
    rw [List.getD_eq_getElem?_getD, hi]
    exact h.lowers o (List.mem_of_getElem? hi)

theorem Engine.Wf.upperAt (h : e.Wf) (p : RelPath) : NamesBelow e.files.length (e.upperAt p) :=
  h.upper.placeAt p

/-- Layers that agree along a path stop at the same place on it. -/
theorem AgreeAlong.slotOf_stop (h : AgreeAlong id e.files g.files d (rootSlot e) (rootSlot g)) :
    (slotOf g.upper none d).stop = (slotOf e.upper none d).stop := by
  have hend : ∀ (r : RelPath) {s s' : TreeSlot}, AgreeAlong id e.files g.files r s s' →
      (r.foldl TreeSlot.child s').stop = (r.foldl TreeSlot.child s).stop := by
    intro r
    induction r with
    | nil => intro s s' h; exact h.stop.symm
    | cons m r ih => intro s s' h; exact ih h.2.2
  exact hend d h

theorem SameAlong.agreeAlong (h : SameAlong id e g d) :
    AgreeAlong id e.files g.files d (rootSlot e) (rootSlot g) := by
  rw [SameAlong, treeStack, treeStack, List.forall₂_cons] at h
  exact h.1

namespace PutsAt

variable {t : Place}

/-- What is replaced again is replaced once. -/
theorem again {f : Engine} {t' : Place} (h : PutsAt e f p t') (h' : PutsAt f g p t) :
    PutsAt e g p t where
  upper := by rw [h'.upper, h.upper, PathTree.put_put]
  lowers := h'.lowers.trans h.lowers
  files := h'.files.trans h.files
  host := h'.host.trans h.host
  undoFailed := h'.undoFailed.trans h.undoFailed
  contexts := h'.contexts.trans h.contexts

theorem wf (h : PutsAt e g (d ++ [n]) t) (hd : leadsToDirectory (e.upperAt d) = true)
    (hn : n ≠ ['.']) (ht : NamesBelow e.files.length t) (he : e.Wf) : g.Wf where
  upper := by
    intro r id hid
    rw [h.files]
    by_cases hpre : d ++ [n] <+: r
    · obtain ⟨q, rfl⟩ := hpre
      rw [entryAt, h.upper, placeAt_put hd hn] at hid
      exact ht q id hid
    · rw [h.upper, entryAt_put_elsewhere hpre] at hid
      exact he.upper r id hid
  lowers := by
    rw [h.lowers, h.files]
    exact he.lowers
  origins := by
    rw [h.files]
    exact he.origins

theorem upperAt (h : PutsAt e g (d ++ [n]) t) (hd : leadsToDirectory (e.upperAt d) = true)
    (hn : n ≠ ['.']) : g.upperAt (d ++ [n]) = t := by
  have := placeAt_put hd hn t []
  rw [List.append_nil, placeAt_nil] at this
  rw [Engine.upperAt, h.upper, this]

theorem sameAlong {V : Type} {f : TreeEntry → V} (h : PutsAt e g (d ++ [n]) t)
    (hn : PlainAt e d n) {r : RelPath} (hr : ¬d ++ [n] <+: r) : SameAlong f e g r :=
  SameAlong.of_put (unread_of_plain hr hn.2) h.lowers h.files h.upper

theorem not_prefix_self {d : RelPath} {n : Name} : ¬d ++ [n] <+: d := by
  intro h
  have := h.length_le
  rw [List.length_append, List.length_singleton] at this
  omega

theorem agreeAlong_parent (h : PutsAt e g (d ++ [n]) t) (hn : PlainAt e d n) :
    AgreeAlong id e.files g.files d (rootSlot e) (rootSlot g) :=
  (h.sameAlong hn not_prefix_self).agreeAlong

theorem slotOf_parent (h : PutsAt e g (d ++ [n]) t) (hn : PlainAt e d n) :
    (slotOf g.upper none d).stop = (slotOf e.upper none d).stop :=
  (h.agreeAlong_parent hn).slotOf_stop

theorem whites_parent (h : PutsAt e g (d ++ [n]) t) (hn : PlainAt e d n) :
    (treeOverlay []).whites (slotOf g.upper none d) n
      = (treeOverlay []).whites (slotOf e.upper none d) n := by
  have hstop := h.slotOf_parent hn
  by_cases hl : (slotOf e.upper none d).stop = .link
  · simp [treeOverlay, hstop, hl]
  · simp only [treeOverlay, hstop, slotOf_sub, ← placeAt_snoc]
    have hne : ¬d ++ [n] <+: d ++ [whiteoutName n] := by
      intro hpre
      have heq : d ++ [n] = d ++ [whiteoutName n] := hpre.eq_of_length (by simp)
      exact ne_whiteoutName n (by simpa using heq)
    have hentry := entryAt_put_elsewhere (o := e.upper) hne t
    have hsome := congrArg Option.isSome hentry
    rw [isSome_entryAt, isSome_entryAt] at hsome
    rw [h.upper, hsome]

/-- The slots at the changed place: the new place over the same lowers. -/
theorem slotsAt (h : PutsAt e g (d ++ [n]) t) (hn : PlainAt e d n)
    (hd : leadsToDirectory (e.upperAt d) = true) :
    slotsAt g (d ++ [n]) = slotIn none (slotOf e.upper none d).stop t ::
      lowersUnder (slotOf e.upper none d) n t (lowersAt e d) := by
  have hlow := lowersAt_congr h.lowers (h.agreeAlong_parent hn)
  rw [slotsAt_snoc, h.upperAt hd hn.1, h.slotOf_parent hn, hlow, lowersUnder, lowersUnder,
    h.slotOf_parent hn, h.whites_parent hn]

theorem isResolvablePath (h : PutsAt e g (d ++ [n]) t) (hn : PlainAt e d n) :
    isResolvablePath g.config (d ++ [n]) = isResolvablePath e.config (d ++ [n]) :=
  ((h.sameAlong (f := id) hn not_prefix_self).isResolvablePath_snoc n).symm

theorem isSome_upperAt (h : PutsAt e g (d ++ [n]) t) {r : RelPath} (hr : ¬d ++ [n] <+: r) :
    (g.upperAt r).isSome = (e.upperAt r).isSome := by
  have := congrArg Option.isSome (entryAt_put_elsewhere (o := e.upper) hr t)
  rw [isSome_entryAt, isSome_entryAt] at this
  rw [Engine.upperAt, Engine.upperAt, h.upper, this]

/-- A path that does not read the changed place shows the same. -/
theorem viewAt_of_unread {w : RelPath} (h : PutsAt e g w t) {r : RelPath} (hr : ¬w <+: r)
    (hunread : Unread e w r) : viewAt g r = viewAt e r := by
  cases r with
  | nil =>
    have hentry := entryAt_put_elsewhere (o := e.upper) hr t
    rw [entryAt, entryAt, placeAt_nil, placeAt_nil] at hentry
    have hnode := (@node_congr e.files _ _ hentry).2 true
    have hshown := congrArg (Option.map Prod.snd) hnode
    rw [viewAt_nil, viewAt_nil, h.upper, h.files]
    simpa [Function.comp_def] using hshown
  | cons m r =>
    exact ((SameAlong.of_put hunread h.lowers h.files h.upper).viewAt (by simp)).symm

/-- Elsewhere the view stays. -/
theorem viewAt (h : PutsAt e g (d ++ [n]) t) (hn : PlainAt e d n) {r : RelPath}
    (hr : ¬d ++ [n] <+: r) : viewAt g r = viewAt e r :=
  h.viewAt_of_unread hr (unread_of_plain hr hn.2)

end PutsAt

end LayerMount
