import LayerMount.CacheRace

/-!
# Paths with a marker's name

`IsReservedOverlayPath` keeps a caller away from the markers: a path with a `.wh.` segment
resolves only when `FindLinkInView` meets a link, or a component that can be one, on the
way to the directory that holds the segment.  That walk goes over all layers, and the entry
then comes from one of them.  Here the two are compared, for layers that may be unreadable
anywhere.

`marker_found_in_link` says that the layer which supplies such a path reads the directory
in a link or below one, or behind a component that it cannot read.  It leaves out one
arrangement: the view stops at a component that a lower cannot read, while a higher layer
holds a readable entry there.
-/

namespace LayerMount

variable {l : Layer} {c : LayerConfig} {p d k : RelPath}

/-! ## Walks of a layer that may be unreadable -/

/-- A path that a layer holds has every ancestor held too. -/
theorem get_prefix_ne_missing (hp : l.get p ≠ .missing) (hk : k <+: p) :
    l.get k ≠ .missing := by
  obtain ⟨rest, rfl⟩ := hk
  induction rest using List.reverseRecOn with
  | nil => simpa using hp
  | append_singleton rest n ih =>
    rw [← List.append_assoc] at hp
    exact ih (get_ne_missing_above hp)

theorem componentKind_missing_iff :
    componentKindInLayer l p = .missing ↔ l.get p = .missing := by
  unfold componentKindInLayer
  cases l.get p with
  | missing => simp
  | unreadable => simp
  | entry e =>
    simp only [reduceCtorEq, iff_false]
    cases e.kind with
    | none => simp
    | some kind => cases kind <;> simp

private theorem walkFrom_append (walked d rest : RelPath)
    (h : (walkFrom l walked d).stop ≠ .none) :
    walkFrom l walked (d ++ rest) = walkFrom l walked d := by
  induction d generalizing walked with
  | nil => exact absurd rfl h
  | cons n d ih =>
    simp only [List.cons_append, walkFrom] at h ⊢
    cases hkind : componentKindInLayer l (walked ++ [n]) with
    | directory =>
      simp only [hkind] at h ⊢
      exact ih _ h
    | missing => rfl
    | file => rfl
    | link => rfl
    | unreadable => rfl

/-- A walk that has stopped stops at the same component for every longer path. -/
theorem walk_of_prefix_stop (hd : d <+: p) (h : (walkToFirstNonDirectory l d).stop ≠ .none) :
    walkToFirstNonDirectory l p = walkToFirstNonDirectory l d := by
  obtain ⟨rest, rfl⟩ := hd
  exact walkFrom_append [] d rest h

private theorem walkFrom_component (walked d : RelPath)
    (h : (walkFrom l walked d).stop ≠ .none) :
    (walkFrom l walked d).component <+: walked ++ d ∧ (walkFrom l walked d).component ≠ [] := by
  induction d generalizing walked with
  | nil => exact absurd rfl h
  | cons n d ih =>
    have hpre : walked ++ [n] <+: walked ++ n :: d := ⟨d, by simp⟩
    have hne : walked ++ [n] ≠ [] := by simp
    simp only [walkFrom] at h ⊢
    cases hkind : componentKindInLayer l (walked ++ [n]) with
    | directory =>
      simp only [hkind] at h ⊢
      have hrest := ih _ h
      simpa using hrest
    | missing => simp [hkind] at h
    | file => exact ⟨hpre, hne⟩
    | link => exact ⟨hpre, hne⟩
    | unreadable => exact ⟨hpre, hne⟩

/-- The component at which a walk stops is on the path. -/
theorem walk_component_of_stop (h : (walkToFirstNonDirectory l d).stop ≠ .none) :
    (walkToFirstNonDirectory l d).component <+: d ∧
      (walkToFirstNonDirectory l d).component ≠ [] :=
  walkFrom_component [] d h

private theorem walkFrom_stop_of_held (walked k : RelPath) (hk : k ≠ [])
    (hheld : ∀ q, q <+: k → l.get (walked ++ q) ≠ .missing)
    (hkind : componentKindInLayer l (walked ++ k) ≠ .directory) :
    (walkFrom l walked k).stop ≠ .none := by
  induction k generalizing walked with
  | nil => exact absurd rfl hk
  | cons n k ih =>
    have hfirst : componentKindInLayer l (walked ++ [n]) ≠ .missing := by
      rw [ne_eq, componentKind_missing_iff]
      exact hheld [n] ⟨k, rfl⟩
    simp only [walkFrom]
    cases hn : componentKindInLayer l (walked ++ [n]) with
    | missing => exact absurd hn hfirst
    | file => simp
    | link => simp
    | unreadable => simp
    | directory =>
      dsimp only
      have hne : k ≠ [] := by
        intro hnil
        subst hnil
        exact hkind hn
      apply ih _ hne
      · intro q hq
        have hnq := hheld (n :: q) (List.cons_prefix_cons.mpr ⟨rfl, hq⟩)
        simpa using hnq
      · simpa using hkind

/-- A walk through a held component that is no directory stops there or before. -/
theorem walk_stop_of_held (hk : k ≠ []) (hd : k <+: d) (hheld : l.get k ≠ .missing)
    (hkind : componentKindInLayer l k ≠ .directory) :
    (walkToFirstNonDirectory l d).stop ≠ .none := by
  have hstop : (walkToFirstNonDirectory l k).stop ≠ .none := by
    refine walkFrom_stop_of_held [] k hk ?_ hkind
    intro q hq
    exact get_prefix_ne_missing hheld hq
  rw [walk_of_prefix_stop hd hstop]
  exact hstop

/-! ## The ancestry of a link -/

/-- An ancestry that has ended stays as it is. -/
theorem layerAncestryFrom_of_ended {idx : Option Nat} {walked rest : RelPath}
    {a : LayerAncestry} (h : a.absent = true ∨ a.firstNonDirectory ≠ .none) :
    layerAncestryFrom c l idx walked a rest = a := by
  induction rest generalizing walked with
  | nil => rfl
  | cons n rest ih =>
    have hstep : stepLayerAncestry c l (walked ++ [n]) idx a = a := by
      unfold stepLayerAncestry
      rcases h with habsent | hstop
      · rw [if_pos habsent]
      · rw [if_pos hstop, ite_self]
    rw [layerAncestryFrom, hstep]
    exact ih

/-- One step of an ancestry that has not ended. -/
theorem stepLayerAncestry_of_going {idx : Option Nat} {a : LayerAncestry} (p : RelPath)
    (habsent : a.absent = false) (hstop : a.firstNonDirectory = .none) :
    stepLayerAncestry c l p idx a =
      { whitedOut := a.whitedOut || hasWhiteoutUnderWalkedDirectoryInLayer l p
        opaqueDir := a.opaqueDir ||
          (componentKindInLayer l p = .directory && isOpaqueWalkedDirectoryInLayer l p)
        absent := componentKindInLayer l p = .missing
        firstNonDirectory := walkStopAt (componentKindInLayer l p)
        linkUnderHigherEntry := componentKindInLayer l p = .link &&
          match idx with
          | none => false
          | some i => higherLayerHoldsEntry c i p } := by
  unfold stepLayerAncestry
  refine (if_neg ?_).trans ((if_neg ?_).trans ?_)
  · rw [habsent]
    exact Bool.false_ne_true
  · rw [hstop]
    exact not_not_intro rfl
  · cases idx <;> rfl

private theorem layerAncestryFrom_link {i : Nat} {walked rest : RelPath} {a : LayerAncestry}
    (habsent : a.absent = false) (hstop : a.firstNonDirectory = .none)
    (hlink : (walkFrom l walked rest).stop = .link) :
    (layerAncestryFrom c l (some i) walked a rest).linkUnderHigherEntry
      = higherLayerHoldsEntry c i (walkFrom l walked rest).component := by
  induction rest generalizing walked a with
  | nil => cases hlink
  | cons n rest ih =>
    simp only [walkFrom] at hlink ⊢
    rw [layerAncestryFrom, stepLayerAncestry_of_going _ habsent hstop]
    cases hkind : componentKindInLayer l (walked ++ [n]) with
    | missing => simp [hkind] at hlink
    | file => simp [hkind] at hlink
    | unreadable => simp [hkind] at hlink
    | link =>
      rw [layerAncestryFrom_of_ended (by simp [walkStopAt])]
      simp
    | directory =>
      simp only [hkind] at hlink ⊢
      exact ih rfl rfl hlink

private theorem layerAncestryFrom_stop {idx : Option Nat} {walked rest : RelPath}
    {a : LayerAncestry} (habsent : a.absent = false) (hstop : a.firstNonDirectory = .none) :
    (layerAncestryFrom c l idx walked a rest).firstNonDirectory
      = (walkFrom l walked rest).stop := by
  induction rest generalizing walked a with
  | nil => exact hstop
  | cons n rest ih =>
    rw [layerAncestryFrom, stepLayerAncestry_of_going _ habsent hstop, walkFrom]
    cases hkind : componentKindInLayer l (walked ++ [n]) with
    | missing => rw [layerAncestryFrom_of_ended (by simp)]; rfl
    | file => rw [layerAncestryFrom_of_ended (by simp [walkStopAt])]; rfl
    | link => rw [layerAncestryFrom_of_ended (by simp [walkStopAt])]; rfl
    | unreadable => rw [layerAncestryFrom_of_ended (by simp [walkStopAt])]; rfl
    | directory => exact ih rfl rfl

/-- The ancestry ends where the walk stops. -/
theorem layerAncestryOf_stop (idx : Option Nat) :
    (layerAncestryOf c l d idx).firstNonDirectory = (walkToFirstNonDirectory l d).stop :=
  layerAncestryFrom_stop rfl rfl

/-- The ancestry of a directory behind a link says whether a higher layer holds the link's
path. -/
theorem layerAncestryOf_link_eq {i : Nat}
    (hlink : (walkToFirstNonDirectory l d).stop = .link) :
    (layerAncestryOf c l d (some i)).linkUnderHigherEntry
      = higherLayerHoldsEntry c i (walkToFirstNonDirectory l d).component :=
  layerAncestryFrom_link rfl rfl hlink

/-! ## Where the view stops -/

/-- The kind of the component in the highest layer that holds it. -/
def topKindAt (c : LayerConfig) (k : RelPath) : ComponentKind :=
  match (c.upper :: c.lowers).find? fun l => holdsEntryInLayer l k with
  | none => .missing
  | some l => componentKindInLayer l k

theorem endsAtLinkOrUnreadable_cases {stop : WalkStop}
    (h : endsAtLinkOrUnreadable stop = true) : stop = .link ∨ stop = .unreadable := by
  cases stop <;> simp_all [endsAtLinkOrUnreadable, linkStopOf]

/-- The lower at which the loop of `FindLinkInView` stops.  The walks of the lowers above it
went on. -/
theorem findLinkInLowers_stop {i : Nat} {ls : List Layer} {v : LinkInView}
    (h : findLinkInLowers c d i ls = v) (hstop : v.stop ≠ .none) :
    ∃ j l, ls[j]? = some l ∧
      endsAtLinkOrUnreadable (walkToFirstNonDirectory l d).stop = true ∧
      (layerAncestryOf c l d (some (i + j))).linkUnderHigherEntry = false ∧
      v = ⟨linkStopOf (walkToFirstNonDirectory l d).stop, .lower,
        (walkToFirstNonDirectory l d).component⟩ ∧
      ∀ m < j, ∀ l', ls[m]? = some l' → (walkToFirstNonDirectory l' d).stop = .none := by
  induction ls generalizing i with
  | nil =>
    subst h
    exact absurd rfl hstop
  | cons l ls ih =>
    rw [findLinkInLowers] at h
    split at h
    · subst h
      exact absurd rfl hstop
    · rename_i hhidden
      rw [Bool.or_eq_true, not_or, Bool.not_eq_true, Bool.not_eq_true] at hhidden
      split at h
      · rename_i hends
        refine ⟨0, l, rfl, hends, hhidden.2, h.symm, ?_⟩
        intro m hm
        omega
      · rename_i hends
        split at h
        · subst h
          exact absurd rfl hstop
        · rename_i hgoes
          obtain ⟨j, l', hj, hends', hlink, hv, habove⟩ := ih h
          refine ⟨j + 1, l', hj, hends', ?_, hv, ?_⟩
          · rw [← hlink]
            congr 3
            omega
          · intro m hm l'' hl''
            cases m with
            | zero =>
              cases hl''
              rw [Bool.or_eq_true, not_or] at hgoes
              have hfile : (walkToFirstNonDirectory l d).stop ≠ .file := by
                simpa using hgoes.2
              cases hw : (walkToFirstNonDirectory l d).stop with
              | none => rfl
              | file => exact absurd hw hfile
              | link => simp [hw, endsAtLinkOrUnreadable, linkStopOf] at hends
              | unreadable => simp [hw, endsAtLinkOrUnreadable, linkStopOf] at hends
            | succ m => exact habove m (by omega) l'' hl''

/-- The highest layer that holds the component: the upper, or a lower. -/
theorem topKindAt_cases {i : Nat} (hhigher : higherLayerHoldsEntry c i k = true) :
    (holdsEntryInLayer c.upper k = true ∧ topKindAt c k = componentKindInLayer c.upper k) ∨
      ∃ m < i, ∃ l, c.lowers[m]? = some l ∧ holdsEntryInLayer l k = true ∧
        topKindAt c k = componentKindInLayer l k := by
  cases hupper : holdsEntryInLayer c.upper k with
  | true =>
    left
    exact ⟨rfl, by simp [topKindAt, hupper]⟩
  | false =>
    right
    simp only [higherLayerHoldsEntry, hupper, Bool.false_or, List.any_eq_true] at hhigher
    obtain ⟨l', hl', hheld⟩ := hhigher
    obtain ⟨n, hn⟩ := List.mem_iff_getElem?.mp hl'
    rw [List.getElem?_take] at hn
    split at hn
    · rename_i hlt
      cases hfind : c.lowers.find? fun l => holdsEntryInLayer l k with
      | none =>
        have hnot := List.find?_eq_none.mp hfind l' (List.mem_of_getElem? hn)
        exact absurd hheld hnot
      | some l =>
        obtain ⟨hl, m, hm, rfl, hbefore⟩ := List.find?_eq_some_iff_getElem.mp hfind
        have hle : m ≤ n := by
          by_contra hgt
          obtain ⟨hnlt, rfl⟩ := List.getElem?_eq_some_iff.mp hn
          have hnot := hbefore n (by omega)
          rw [hheld] at hnot
          cases hnot
        refine ⟨m, by omega, c.lowers[m], List.getElem?_eq_getElem hm, hl, ?_⟩
        simp [topKindAt, hupper, hfind]
    · cases hn

/-- The layer at which the view of a directory stops: the upper, or a lower that no higher
layer covers at the component.  Of a component that cannot be read the last part holds when
the highest layer with an entry there cannot read it. -/
theorem findLinkInView_stop (hstop : (findLinkInView c d).stop ≠ .none)
    (htop : ∀ k, findLinkInView c d = ⟨.unreadable, .lower, k⟩ → topKindAt c k = .unreadable) :
    endsAtLinkOrUnreadable (walkToFirstNonDirectory c.upper d).stop = true ∨
      ∃ i l, c.lowers[i]? = some l ∧
        endsAtLinkOrUnreadable (walkToFirstNonDirectory l d).stop = true ∧
        higherLayerHoldsEntry c i (walkToFirstNonDirectory l d).component = false := by
  by_cases hupper : endsAtLinkOrUnreadable (walkToFirstNonDirectory c.upper d).stop = true
  · exact Or.inl hupper
  right
  obtain ⟨v, hv⟩ : ∃ v, findLinkInView c d = v := ⟨_, rfl⟩
  rw [hv] at hstop htop
  unfold findLinkInView at hv
  rw [if_neg hupper] at hv
  split at hv
  · subst hv
    exact absurd rfl hstop
  rename_i hfile
  split at hv
  · subst hv
    exact absurd rfl hstop
  dsimp only at hv
  split at hv
  · subst hv
    exact absurd rfl hstop
  -- the upper's walk went on to the end
  have hupperWalk : (walkToFirstNonDirectory c.upper d).stop = .none := by
    cases hw : (walkToFirstNonDirectory c.upper d).stop with
    | none => rfl
    | file => exact absurd hw hfile
    | link => simp [hw, endsAtLinkOrUnreadable, linkStopOf] at hupper
    | unreadable => simp [hw, endsAtLinkOrUnreadable, linkStopOf] at hupper
  obtain ⟨i, l, hi, hends, hlink, hvl, habove⟩ := findLinkInLowers_stop hv hstop
  rw [Nat.zero_add] at hlink
  refine ⟨i, l, hi, hends, ?_⟩
  rcases endsAtLinkOrUnreadable_cases hends with hw | hw
  · rw [← layerAncestryOf_link_eq hw]
    exact hlink
  · -- a readable entry above would be the highest one
    rw [← Bool.not_eq_true]
    intro hhigher
    have hne : (walkToFirstNonDirectory l d).stop ≠ .none := by simp [hw]
    obtain ⟨hpre, hnil⟩ := walk_component_of_stop hne
    have hkind := htop (walkToFirstNonDirectory l d).component (by rw [hvl, hw]; rfl)
    rcases topKindAt_cases hhigher with ⟨hheld, heq⟩ | ⟨m, hm, l', hl', hheld, heq⟩
    · rw [heq] at hkind
      refine walk_stop_of_held hnil hpre ?_ (by simp [hkind]) hupperWalk
      simpa [holdsEntryInLayer] using hheld
    · rw [heq] at hkind
      refine walk_stop_of_held hnil hpre ?_ (by simp [hkind]) (habove m hm l' hl')
      simpa [holdsEntryInLayer] using hheld

/-! ## Who supplies a path -/

/-- The layer whose entry a lookup of the path takes, redirect records not followed. -/
def supplierOf (c : LayerConfig) (p : RelPath) : Option Layer :=
  if (c.upper.get p).exists then some c.upper
  else if hidingInUpper c p ≠ .none then none
  else (findInLowers c p 0).lowerIndex.bind fun i => c.lowers[i]?

/-- One turn of the loop of `FindInLowers` that ends with a found path: the lower has the
entry, or the loop goes on. -/
theorem findInLowersFrom_cons {i : Nat} {ls : List Layer}
    (h : (findInLowersFrom c p i (l :: ls)).found = true) :
    (∃ e, l.get p = .entry e ∧ findInLowersFrom c p i (l :: ls)
      = { absolutePath := some p, source := .lower, lowerIndex := some i
          attributes := some e.attributes }) ∨
      (lowersBelow l p.dropLast = .visible ∧
        findInLowersFrom c p i (l :: ls) = findInLowersFrom c p (i + 1) ls) := by
  rw [findInLowersFrom] at h ⊢
  split at h
  · cases h
  rename_i hwhite
  rw [if_neg hwhite]
  split at h
  · cases h
  rename_i hancestor
  rw [if_neg hancestor]
  split at h
  · cases h
  rename_i hlink
  rw [if_neg hlink]
  cases hget : l.get p with
  | entry e => exact Or.inl ⟨e, rfl, rfl⟩
  | missing =>
    simp only [hget] at h ⊢
    split at h
    · cases h
    · rename_i hvisible
      exact Or.inr ⟨Decidable.not_not.mp hvisible, if_neg hvisible⟩
  | unreadable =>
    simp only [hget] at h ⊢
    split at h
    · cases h
    · rename_i hvisible
      exact Or.inr ⟨Decidable.not_not.mp hvisible, if_neg hvisible⟩

/-- The lower in which `FindInLowers` finds a path, and what it passed on the way. -/
theorem findInLowersFrom_found {i : Nat} {ls : List Layer}
    (h : (findInLowersFrom c p i ls).found = true) :
    ∃ j l, ls[j]? = some l ∧ (findInLowersFrom c p i ls).lowerIndex = some (i + j) ∧
      (findInLowersFrom c p i ls).absolutePath = some p ∧ l.get p ≠ .missing ∧
      ∀ m < j, ∀ l', ls[m]? = some l' → lowersBelow l' p.dropLast = .visible := by
  induction ls generalizing i with
  | nil => cases h
  | cons l ls ih =>
    rcases findInLowersFrom_cons h with ⟨e, hget, heq⟩ | ⟨hvisible, heq⟩
    · rw [heq]
      refine ⟨0, l, rfl, rfl, rfl, by simp [hget], ?_⟩
      intro m hm
      omega
    · rw [heq] at h ⊢
      obtain ⟨j, l', hj, hidx, hpath, hheld, hpassed⟩ := ih h
      refine ⟨j + 1, l', hj, by rw [hidx]; congr 1; omega, hpath, hheld, ?_⟩
      intro m hm l'' hl''
      cases m with
      | zero =>
        cases hl''
        exact hvisible
      | succ m => exact hpassed m (by omega) l'' hl''

theorem lowersBelow_ne_visible_of_stop (hd : d <+: p)
    (h : (walkToFirstNonDirectory l d).stop ≠ .none) : lowersBelow l p ≠ .visible := by
  unfold lowersBelow hasNonDirectoryOrLinkSelfOrAncestorInLayer
  rw [walk_of_prefix_stop hd h]
  split
  · simp
  · rw [if_pos (decide_eq_true h)]
    simp

/-- The directory that holds the first marker segment is above the path. -/
theorem parentOfFirstMarkerSegment_above (h : parentOfFirstMarkerSegment p = some d) :
    d <+: p.dropLast := by
  unfold parentOfFirstMarkerSegment at h
  split at h
  · rename_i hany
    cases h
    obtain ⟨n, hn, hmarker⟩ := List.any_eq_true.mp hany
    have hsplit := List.takeWhile_append_dropWhile (p := fun c => !isWhiteoutName c) (l := p)
    have hrest : p.dropWhile (fun c => !isWhiteoutName c) ≠ [] := by
      intro hnil
      rw [hnil, List.append_nil] at hsplit
      rw [← hsplit] at hn
      have hall := List.all_eq_true.mp List.all_takeWhile n hn
      simp [hmarker] at hall
    refine ⟨(p.dropWhile fun c => !isWhiteoutName c).dropLast, ?_⟩
    rw [← List.dropLast_append_of_ne_nil hrest, hsplit]
  · cases h

/-- The layer that supplies a path reads the directory of its first marker segment in a
link or below one, or behind a component that it cannot read. -/
theorem supplier_ends {l : Layer} (hsupplier : supplierOf c p = some l) (hd : d <+: p.dropLast)
    (hview : endsAtLinkOrUnreadable (walkToFirstNonDirectory c.upper d).stop = true ∨
      ∃ i l, c.lowers[i]? = some l ∧
        endsAtLinkOrUnreadable (walkToFirstNonDirectory l d).stop = true ∧
        higherLayerHoldsEntry c i (walkToFirstNonDirectory l d).component = false)
    (hfound : (c.upper.get p).exists = true ∨ (findInLowers c p 0).found = true) :
    endsAtLinkOrUnreadable (walkToFirstNonDirectory l d).stop = true := by
  have hstop : ∀ l : Layer, endsAtLinkOrUnreadable (walkToFirstNonDirectory l d).stop = true →
      (walkToFirstNonDirectory l d).stop ≠ .none := by
    intro l hends hnone
    rw [hnone] at hends
    cases hends
  have hpath : ∀ l : Layer, (walkToFirstNonDirectory l d).stop ≠ .none →
      (walkToFirstNonDirectory l d).component <+: p := fun l hne =>
    ((walk_component_of_stop hne).1.trans hd).trans (List.dropLast_prefix p)
  unfold supplierOf at hsupplier
  rcases hview with hupper | ⟨i, li, hi, hends, hhigher⟩
  · -- the upper's link hides the lowers
    split at hsupplier
    · cases hsupplier
      exact hupper
    · split at hsupplier
      · cases hsupplier
      · rename_i hvisible
        exfalso
        have hbelow := lowersBelow_ne_visible_of_stop hd (hstop _ hupper)
        have hnone : hidingInUpper c p = .none := Decidable.not_not.mp hvisible
        unfold hidingInUpper upperAncestorHiding at hnone
        split at hnone
        · cases hnone
        · split at hnone
          · cases hnone
          · split at hnone
            · cases hnone
            · cases hnone
            · rename_i hv
              exact hbelow hv
  · have hhold : ∀ l : Layer, l.get p ≠ .missing →
        holdsEntryInLayer l (walkToFirstNonDirectory li d).component = true := by
      intro l hheld
      have hne := get_prefix_ne_missing hheld (hpath li (hstop li hends))
      simpa [holdsEntryInLayer] using hne
    simp only [higherLayerHoldsEntry, Bool.or_eq_false_iff, List.any_eq_false] at hhigher
    split at hsupplier
    · rename_i hexists
      have hheld : c.upper.get p ≠ .missing := by
        intro hmiss
        rw [hmiss] at hexists
        cases hexists
      rw [hhold _ hheld] at hhigher
      cases hhigher.1
    · rename_i hexists
      split at hsupplier
      · cases hsupplier
      · have hlower := hfound.resolve_left hexists
        obtain ⟨j, lj, hj, hidx, -, hheld, hpassed⟩ := findInLowersFrom_found hlower
        rw [Nat.zero_add] at hidx
        rw [List.drop_zero] at hj hpassed
        rw [findInLowers, hidx] at hsupplier
        simp only [Option.bind_some, hj, Option.some.injEq] at hsupplier
        subst hsupplier
        rcases Nat.lt_trichotomy j i with hlt | heq | hgt
        · have hmem : lj ∈ c.lowers.take i := by
            apply List.mem_of_getElem? (i := j)
            rw [List.getElem?_take, if_pos hlt]
            exact hj
          exact absurd (hhold lj hheld) (hhigher.2 lj hmem)
        · subst heq
          rw [hi] at hj
          cases hj
          exact hends
        · exact absurd (hpassed i hgt li hi)
            (lowersBelow_ne_visible_of_stop hd (hstop li hends))

/-! ## Lookups -/

/-- The answer is the entry that the layers have at the path `q`. -/
def Supplied (c : LayerConfig) (q : RelPath) (r : ResolvedPath) : Prop :=
  isResolvablePath c q = true ∧
    ((r.source = .upper ∧ (c.upper.get q).exists = true) ∨
      (r = findInLowers c q 0 ∧ (c.upper.get q).exists = false ∧ hidingInUpper c q = .none))

/-- What the probes put as a found answer is the entry of the path itself. -/
theorem supplied_of_probe {r : ResolvedPath} (hres : isResolvablePath c p = true)
    (h : probeLayers c p = .put r) (hfound : r.found = true) :
    r.absolutePath = some p ∧ Supplied c p r := by
  have hprobed := probeLayers_probed c p
  rw [h] at hprobed
  cases hprobed with
  | upper hget hredirect => exact ⟨rfl, hres, .inl ⟨rfl, by rw [hget]; rfl⟩⟩
  | hidden hmissed hhidden =>
    rw [hfound] at hhidden
    cases hhidden
  | lower hmissed hhiding hlower =>
    obtain ⟨-, -, -, -, hpath, -⟩ := findInLowersFrom_found hfound
    exact ⟨hpath, hres, .inr ⟨rfl, hmissed, hhiding⟩⟩

/-- Only an entry of the upper redirects. -/
theorem exists_of_redirect {target : RelPath} (h : probeLayers c p = .redirect target) :
    (c.upper.get p).exists = true := by
  have hprobed := probeLayers_probed c p
  rw [h] at hprobed
  cases hprobed with
  | redirect hget hredirect =>
    rw [hget]
    rfl

/-- A found answer that is not the root is the entry of the path it names. -/
def Answered (c : LayerConfig) (r : ResolvedPath) : Prop :=
  r.found = true → ∃ q, r.absolutePath = some q ∧ (q = [] ∨ Supplied c q r)

/-- The path asked for is the root, or resolvable and held by a layer. -/
def Asked (c : LayerConfig) (p : RelPath) : Prop :=
  p = [] ∨ (isResolvablePath c p = true ∧ ((c.upper.get p).exists = true ∨
    ((c.upper.get p).exists = false ∧ hidingInUpper c p = .none ∧
      (findInLowers c p 0).found = true)))

theorem answered_notFound {r : ResolvedPath} (h : r.found = false) : Answered c r := by
  intro hfound
  rw [h] at hfound
  cases hfound

theorem mem_of_get {cache cache' : Cache} {cached : ResolvedPath}
    (h : cache.get p = (some cached, cache')) :
    ∃ e ∈ cache.entries, e.key = p ∧ e.resolved = cached := by
  unfold Cache.get at h
  cases hfind : cache.find p with
  | none =>
    simp only [hfind] at h
    cases h
  | some e =>
    simp only [hfind, Prod.mk.injEq, Option.some.injEq] at h
    exact ⟨e, List.mem_of_find?_eq_some hfind, by simpa using List.find?_some hfind, h.1⟩

/-- A lookup from any cache with answered entries, after a redirect or not. -/
theorem answered_resolvePathInternal {n : Nat} {cache : Cache}
    (hcache : ∀ e ∈ cache.entries, Answered c e.resolved) :
    Answered c (resolvePathInternal c n p cache).1 := by
  induction n generalizing p cache with
  | zero => exact answered_notFound rfl
  | succ n ih =>
    have hsteps := congrArg Prod.fst (resolvePathInternal_steps c n p cache)
    dsimp only at hsteps
    rw [hsteps]
    split
    · intro _
      exact ⟨[], rfl, Or.inl rfl⟩
    split
    · exact answered_notFound rfl
    rename_i hres
    rw [Bool.not_eq_true, Bool.not_eq_false'] at hres
    rcases hget : cache.get p with ⟨_ | cached, cache'⟩
    · have hcache' : ∀ e ∈ cache'.entries, Answered c e.resolved := by
        intro e he
        have heq : (cache.get p).2 = cache' := by rw [hget]
        rw [← heq] at he
        obtain ⟨e', he', -, hval⟩ := mem_get_entries he
        rw [← hval]
        exact hcache e' he'
      dsimp only
      split
      · exact ih hcache'
      · rename_i r hput
        intro hfound
        obtain ⟨hpath, hsupplied⟩ := supplied_of_probe hres hput hfound
        exact ⟨p, hpath, Or.inr hsupplied⟩
      · exact answered_notFound rfl
    · obtain ⟨e, he, -, hval⟩ := mem_of_get hget
      dsimp only
      rw [← hval]
      exact hcache e he

/-- A path that is found is the root, or a layer holds it. -/
theorem asked_of_found {n : Nat} {cache : Cache}
    (hcache : ∀ e ∈ cache.entries, e.resolved = uncached c e.key)
    (h : (resolvePathInternal c n p cache).1.found = true) : Asked c p := by
  -- the lookup that misses the cache decides, and a cached answer is such a lookup's
  have hmiss : ∀ (n : Nat) (cache cache' : Cache), cache.get p = (none, cache') →
      (resolvePathInternal c n p cache).1.found = true → Asked c p := by
    intro n cache cache' hget hfound
    cases n with
    | zero => cases hfound
    | succ n =>
      have hsteps := congrArg Prod.fst (resolvePathInternal_steps c n p cache)
      dsimp only at hsteps
      rw [hsteps] at hfound
      split at hfound
      · rename_i hempty
        exact Or.inl (List.isEmpty_iff.mp hempty)
      split at hfound
      · cases hfound
      rename_i hres
      rw [Bool.not_eq_true, Bool.not_eq_false'] at hres
      simp only [hget] at hfound
      cases hprobe : probeLayers c p with
      | absent =>
        simp only [hprobe] at hfound
        cases hfound
      | redirect target =>
        exact Or.inr ⟨hres, Or.inl (exists_of_redirect hprobe)⟩
      | put r =>
        simp only [hprobe] at hfound
        obtain ⟨-, -, hheld | ⟨rfl, hnot, hhide⟩⟩ := supplied_of_probe hres hprobe hfound
        · exact Or.inr ⟨hres, Or.inl hheld.2⟩
        · exact Or.inr ⟨hres, Or.inr ⟨hnot, hhide, hfound⟩⟩
  rcases hget : cache.get p with ⟨_ | cached, cache'⟩
  · exact hmiss n cache cache' hget h
  · cases n with
    | zero => cases h
    | succ n =>
      have hsteps := congrArg Prod.fst (resolvePathInternal_steps c n p cache)
      dsimp only at hsteps
      rw [hsteps] at h
      split at h
      · rename_i hempty
        exact Or.inl (List.isEmpty_iff.mp hempty)
      split at h
      · cases h
      simp only [hget] at h
      obtain ⟨e, he, hkey, hval⟩ := mem_of_get hget
      rw [← hval, hcache e he, hkey] at h
      exact hmiss (kMaxRedirectDepth + 1) {} {} rfl h

/-! ## Markers stay hidden -/

/-- The layer that a found answer names. -/
def LayerConfig.layerOf (c : LayerConfig) (r : ResolvedPath) : Option Layer :=
  match r.source with
  | .none => none
  | .upper => some c.upper
  | .lower => r.lowerIndex.bind fun i => c.lowers[i]?

theorem findInLowersFrom_source {i : Nat} {ls : List Layer}
    (h : (findInLowersFrom c p i ls).found = true) :
    (findInLowersFrom c p i ls).source = .lower := by
  induction ls generalizing i with
  | nil => cases h
  | cons l ls ih =>
    rcases findInLowersFrom_cons h with ⟨e, -, heq⟩ | ⟨-, heq⟩
    · rw [heq]
    · rw [heq] at h ⊢
      exact ih h

/-- A supplied answer names the layer that supplies its path. -/
theorem Supplied.layerOf {q : RelPath} {r : ResolvedPath} (h : Supplied c q r)
    (hfound : r.found = true) : c.layerOf r = supplierOf c q := by
  obtain ⟨-, ⟨hsource, hheld⟩ | ⟨rfl, hnot, hhide⟩⟩ := h
  · simp only [LayerConfig.layerOf, hsource, supplierOf, hheld, if_true]
  · have hsource := findInLowersFrom_source hfound
    simp only [LayerConfig.layerOf, findInLowers, hsource, supplierOf, hnot, hhide, ne_eq,
      not_true_eq_false, if_false, Bool.false_eq_true]

/-- A resolvable path with a marker segment that a layer holds: the layer reads the
segment's directory in a link or below one, or behind a component that it cannot read. -/
theorem supplier_of_marker {q : RelPath} (hres : isResolvablePath c q = true)
    (hheld : (c.upper.get q).exists = true ∨ ((c.upper.get q).exists = false ∧
      hidingInUpper c q = .none ∧ (findInLowers c q 0).found = true))
    (hd : parentOfFirstMarkerSegment q = some d)
    (htop : ∀ k, findLinkInView c d = ⟨.unreadable, .lower, k⟩ → topKindAt c k = .unreadable) :
    ∃ l, supplierOf c q = some l ∧
      ((walkToFirstNonDirectory l d).stop = .link ∨
        (walkToFirstNonDirectory l d).stop = .unreadable) := by
  have hstop : (findLinkInView c d).stop ≠ .none := by
    simp only [isResolvablePath, isReservedOverlayPath, hd, Bool.and_eq_true,
      Bool.not_eq_true'] at hres
    have hreserved := hres.2
    split at hreserved
    · cases hreserved
    · rw [Bool.or_eq_false_iff, Bool.not_eq_false'] at hreserved
      simpa [isInLinkTarget] using hreserved.2
  have hview := findLinkInView_stop hstop htop
  have habove := parentOfFirstMarkerSegment_above hd
  obtain ⟨l, hl⟩ : ∃ l, supplierOf c q = some l := by
    rcases hheld with hheld | ⟨hnot, hhide, hfound⟩
    · exact ⟨c.upper, by simp only [supplierOf, hheld, if_true]⟩
    · obtain ⟨j, l, hj, hidx, -⟩ := findInLowersFrom_found hfound
      rw [Nat.zero_add] at hidx
      rw [List.drop_zero] at hj
      refine ⟨l, ?_⟩
      simp only [supplierOf, hnot, hhide, ne_eq, not_true_eq_false, if_false,
        Bool.false_eq_true, findInLowers, hidx, Option.bind_some]
      exact hj
  refine ⟨l, hl, endsAtLinkOrUnreadable_cases (supplier_ends hl habove hview ?_)⟩
  rcases hheld with hheld | ⟨-, -, hfound⟩
  · exact Or.inl hheld
  · exact Or.inr hfound

/-- For every lookup that finds something, and for both the path asked for and the path
answered: the layer that supplies a path with a `.wh.` segment reads the directory of the
first such segment in a link or below one, or behind a component that it cannot read.
`htop` leaves out the case that the view stops at a component which a lower cannot read
while a higher layer holds a readable entry there. -/
theorem marker_found_in_link (c : LayerConfig) (cache : Cache)
    (hcache : ∀ e ∈ cache.entries, e.resolved = uncached c e.key) (p q d : RelPath)
    (hfound : (resolvePath c p cache).1.found = true)
    (hq : q = p ∨ (resolvePath c p cache).1.absolutePath = some q)
    (hd : parentOfFirstMarkerSegment q = some d)
    (htop : ∀ k, findLinkInView c d = ⟨.unreadable, .lower, k⟩ → topKindAt c k = .unreadable) :
    ∃ l, supplierOf c q = some l ∧
      ((resolvePath c p cache).1.absolutePath = some q →
        c.layerOf (resolvePath c p cache).1 = some l) ∧
      ((walkToFirstNonDirectory l d).stop = .link ∨
        (walkToFirstNonDirectory l d).stop = .unreadable) := by
  have hne : q ≠ [] := by
    rintro rfl
    cases hd
  have hentries : ∀ e ∈ cache.entries, Answered c e.resolved := by
    intro e he
    have hempty : Answered c (resolvePathInternal c (kMaxRedirectDepth + 1) e.key {}).1 :=
      answered_resolvePathInternal (by simp)
    rw [hcache e he]
    exact hempty
  have hanswer := answered_resolvePathInternal (n := kMaxRedirectDepth + 1) (p := p) hentries
  have hsupplied : (resolvePath c p cache).1.absolutePath = some q →
      Supplied c q (resolvePath c p cache).1 := by
    intro hpath
    obtain ⟨q', hpath', hroot | hsupplied⟩ := hanswer hfound
    · rw [hroot] at hpath'
      have heq : some q = some [] := hpath.symm.trans hpath'
      exact absurd (Option.some.inj heq) hne
    · have heq : some q = some q' := hpath.symm.trans hpath'
      cases heq
      exact hsupplied
  have hheld : isResolvablePath c q = true ∧ ((c.upper.get q).exists = true ∨
      ((c.upper.get q).exists = false ∧ hidingInUpper c q = .none ∧
        (findInLowers c q 0).found = true)) := by
    rcases hq with rfl | hpath
    · rcases asked_of_found (n := kMaxRedirectDepth + 1) hcache hfound with hroot | hasked
      · exact absurd hroot hne
      · exact hasked
    · obtain ⟨hres, ⟨-, hexists⟩ | ⟨heq, hnot, hhide⟩⟩ := hsupplied hpath
      · exact ⟨hres, Or.inl hexists⟩
      · rw [heq] at hfound
        exact ⟨hres, Or.inr ⟨hnot, hhide, hfound⟩⟩
  obtain ⟨l, hl, hends⟩ := supplier_of_marker hheld.1 hheld.2 hd htop
  refine ⟨l, hl, ?_, hends⟩
  intro hpath
  rw [(hsupplied hpath).layerOf hfound, hl]

/-- An upper whose directory `d` is a reparse point, with the file `.wh.x` in it. -/
def pointLayer (tag : ReparseTag) : Layer where
  get p :=
    if p = [] then .entry { attributes := { directory := true } }
    else if p = [['d']] then
      .entry { attributes := { directory := true, reparsePoint := true }, tag }
    else if p = [['d'], ['.', 'w', 'h', '.', 'x']] then .entry { attributes := {} }
    else .missing
  scan _ := .error .accessDenied
  sidecarOpaque _ := false
  parent_directory := by
    intro p n _ h
    right
    cases p with
    | nil => exact ⟨_, rfl, rfl⟩
    | cons x rest =>
      cases rest with
      | nil =>
        by_cases hx : x = ['d']
        · subst hx
          exact ⟨_, rfl, rfl⟩
        · simp [hx] at h
      | cons y rest => simp at h
  mem_scan := by
    intro p names h
    cases h
  get_dot := by
    intro p h
    cases p with
    | nil => simp at h
    | cons x rest =>
      cases rest with
      | nil => simp at h
      | cons y rest => simp at h

def markerBehindD : RelPath := [['d'], ['.', 'w', 'h', '.', 'x']]

/-- A link of the upper shows the `.wh.` name in its target. -/
theorem marker_found_in_link_pointLayer :
    (resolvePath ⟨pointLayer .nameSurrogate, []⟩ markerBehindD {}).1.found = true ∧
      ∃ l, supplierOf ⟨pointLayer .nameSurrogate, []⟩ markerBehindD = some l ∧
        ((walkToFirstNonDirectory l [['d']]).stop = .link ∨
          (walkToFirstNonDirectory l [['d']]).stop = .unreadable) := by
  have hfound : (resolvePath ⟨pointLayer .nameSurrogate, []⟩
      markerBehindD {}).1.found = true := by decide
  refine ⟨hfound, ?_⟩
  obtain ⟨l, hl, -, hends⟩ := marker_found_in_link ⟨pointLayer .nameSurrogate, []⟩ {} (by simp)
    markerBehindD _ [['d']] hfound (Or.inl rfl) (by decide) (by
      intro k hk
      have hlink : (findLinkInView ⟨pointLayer .nameSurrogate, []⟩ [['d']]).source = .upper := by
        decide
      rw [hk] at hlink
      cases hlink)
  exact ⟨l, hl, hends⟩

/-- A reparse point of the upper whose tag cannot be read shows the `.wh.` name behind it. -/
theorem marker_found_behind_unreadable :
    ¬∀ (c : LayerConfig) (p d : RelPath), parentOfFirstMarkerSegment p = some d →
      (resolvePath c p {}).1.found = true →
      ∃ l, c.layerOf (resolvePath c p {}).1 = some l ∧
        (walkToFirstNonDirectory l d).stop = .link := by
  intro hall
  obtain ⟨l, hl, hlink⟩ := hall ⟨pointLayer .unreadable, []⟩ markerBehindD
    [['d']] (by decide) (by decide)
  have hsource : (resolvePath ⟨pointLayer .unreadable, []⟩
      markerBehindD {}).1.source = .upper := by decide
  simp only [LayerConfig.layerOf, hsource, Option.some.injEq] at hl
  subst hl
  have hwalk : (walkToFirstNonDirectory (pointLayer .unreadable) [['d']]).stop = .unreadable := by
    decide
  rw [hwalk] at hlink
  cases hlink

end LayerMount
