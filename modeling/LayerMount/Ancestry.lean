import Mathlib.Data.List.Induction
import Mathlib.Data.List.Infix
import LayerMount.LayerPath

/-!
# One component further

Each walk of `LayerMount.LayerPath` starts again from the layer's root.  In a
readable layer its answer at `d\n` is a function of its answer at `d` and of what
the layer holds at `d\n`.  This file proves those equations, and with them that
the stepwise ancestry of a directory merge says what the repeated walks of the
resolver say (`layerAncestryOf_firstNonDirectory` to `lowersBelow_eq_visible_iff`).
-/

namespace LayerMount

variable {l : Layer} {c : LayerConfig} {d p q : RelPath} {n : Name}

/-- No sidecar record for an entry the layer lacks.  A last `.` names no entry. -/
def Layer.NoStraySidecar (l : Layer) : Prop :=
  ∀ p, l.sidecarOpaque p = true → l.get p ≠ .missing ∧ p.getLast? ≠ some ['.']

/-! ## What a missing entry and a file leave below them -/

/-- What is held at a path is held below something. -/
theorem get_ne_missing_above (hp : l.get (p ++ [n]) ≠ .missing) : l.get p ≠ .missing := by
  by_cases hn : n = ['.']
  · subst hn
    rw [← l.get_dot p hp]
    exact hp
  · rcases l.parent_directory p n hn hp with hun | ⟨e, he, -⟩
    · simp [hun]
    · simp [he]

theorem get_append_of_missing (hp : l.get p = .missing) (q : RelPath) :
    l.get (p ++ q) = .missing := by
  induction q using List.reverseRecOn with
  | nil => simpa using hp
  | append_singleton q n ih =>
    by_contra hne
    rw [← List.append_assoc] at hne
    exact get_ne_missing_above hne ih

theorem componentKind_eq_missing_iff (h : l.Readable) :
    componentKindInLayer l p = .missing ↔ l.get p = .missing := by
  unfold componentKindInLayer
  cases hget : l.get p with
  | missing => simp
  | unreadable => exact absurd hget (h.get p)
  | entry e =>
    simp only [reduceCtorEq, iff_false]
    cases hk : e.kind with
    | none => simp
    | some k => cases k <;> simp

theorem componentKind_ne_unreadable (h : l.Readable) :
    componentKindInLayer l p ≠ .unreadable := by
  unfold componentKindInLayer
  cases hget : l.get p with
  | missing => simp
  | unreadable => exact absurd hget (h.get p)
  | entry e =>
    have htag := h.tag p e hget
    cases hk : e.kind with
    | some k => cases k <;> simp [hk]
    | none =>
      exfalso
      unfold LayerEntry.kind at hk
      cases hdir : e.attributes.directory <;> cases hrep : e.attributes.reparsePoint <;>
        cases ht : e.tag <;> simp_all

theorem not_directory_of_file {e : LayerEntry} (hk : componentKindInLayer l p = .file)
    (he : l.get p = .entry e) : e.attributes.directory = false := by
  by_contra hdir
  rw [Bool.not_eq_false] at hdir
  unfold componentKindInLayer at hk
  rw [he] at hk
  simp only [LayerEntry.kind, hdir] at hk
  cases hrep : e.attributes.reparsePoint <;> cases ht : e.tag <;> simp_all

/-- Below a file is nothing, but for the file itself under a path that goes on by `.`. -/
theorem get_below_file (hk : componentKindInLayer l p = .file) (hpre : p <+: q) :
    l.get q = .missing ∨ l.get q = l.get p := by
  obtain ⟨rest, rfl⟩ := hpre
  induction rest using List.reverseRecOn with
  | nil => exact .inr (by rw [List.append_nil])
  | append_singleton rest n ih =>
    rw [← List.append_assoc]
    by_cases hmiss : l.get (p ++ rest ++ [n]) = .missing
    · exact .inl hmiss
    have habove := ih.resolve_left (get_ne_missing_above hmiss)
    by_cases hn : n = ['.']
    · subst hn
      exact .inr ((l.get_dot _ hmiss).trans habove)
    · rcases l.parent_directory _ n hn hmiss with hun | ⟨e, he, hdir⟩
      · rw [componentKindInLayer, ← habove, hun] at hk
        cases hk
      · rw [not_directory_of_file hk (habove ▸ he)] at hdir
        cases hdir

theorem markerFileExists_eq (h : l.Readable) :
    markerFileExists l p = decide (l.get p ≠ .missing) := by
  unfold markerFileExists Probe.exists
  cases hget : l.get p with
  | missing => simp
  | unreadable => exact absurd hget (h.get p)
  | entry e => simp

/-! ## Walks -/

theorem walkStopAt_eq_link_iff {k : ComponentKind} : walkStopAt k = .link ↔ k = .link := by
  cases k <;> simp [walkStopAt]

theorem walk_nil : walkToFirstNonDirectory l [] = ⟨.none, []⟩ := rfl

private theorem walkFrom_snoc (h : l.Readable) (d : RelPath) :
    ∀ walked : RelPath, walkFrom l walked (d ++ [n]) =
      if (walkFrom l walked d).stop ≠ .none then walkFrom l walked d
      else if walkStopAt (componentKindInLayer l (walked ++ d ++ [n])) = .none then
        ⟨.none, []⟩
      else ⟨walkStopAt (componentKindInLayer l (walked ++ d ++ [n])), walked ++ d ++ [n]⟩ := by
  induction d with
  | nil =>
    intro walked
    simp only [List.nil_append, walkFrom, List.append_nil]
    cases componentKindInLayer l (walked ++ [n]) <;> simp [walkStopAt]
  | cons x d ih =>
    intro walked
    cases hk : componentKindInLayer l (walked ++ [x]) with
    | missing =>
      have hmiss : l.get (walked ++ x :: d ++ [n]) = .missing := by
        have hx := (componentKind_eq_missing_iff h).mp hk
        have := get_append_of_missing hx (d ++ [n])
        simpa using this
      rw [(componentKind_eq_missing_iff h).mpr hmiss]
      simp [walkFrom, hk, walkStopAt]
    | unreadable => exact absurd hk (componentKind_ne_unreadable h)
    | file => simp [walkFrom, hk]
    | link => simp [walkFrom, hk]
    | directory =>
      have := ih (walked ++ [x])
      simpa [walkFrom, hk] using this

theorem walk_snoc (h : l.Readable) (d : RelPath) (n : Name) :
    walkToFirstNonDirectory l (d ++ [n]) =
      if (walkToFirstNonDirectory l d).stop ≠ .none then walkToFirstNonDirectory l d
      else if walkStopAt (componentKindInLayer l (d ++ [n])) = .none then ⟨.none, []⟩
      else ⟨walkStopAt (componentKindInLayer l (d ++ [n])), d ++ [n]⟩ := by
  rw [walkToFirstNonDirectory, walkFrom_snoc h d []]
  rfl

theorem walk_stop_ne_unreadable (h : l.Readable) (d : RelPath) :
    (walkToFirstNonDirectory l d).stop ≠ .unreadable := by
  induction d using List.reverseRecOn with
  | nil => simp [walk_nil]
  | append_singleton d n ih =>
    rw [walk_snoc h]
    split
    · exact ih
    · split
      · simp
      · have hk := componentKind_ne_unreadable (p := d ++ [n]) h
        cases hc : componentKindInLayer l (d ++ [n]) <;> simp_all [walkStopAt]

/-- A walk that stopped, stopped at a component it found. -/
theorem walk_component (h : l.Readable)
    (hstop : (walkToFirstNonDirectory l d).stop ≠ .none) :
    (walkToFirstNonDirectory l d).component <+: d ∧
      (walkToFirstNonDirectory l d).component ≠ [] := by
  induction d using List.reverseRecOn with
  | nil => simp [walk_nil] at hstop
  | append_singleton d n ih =>
    rw [walk_snoc h] at hstop ⊢
    split
    · rename_i hne
      obtain ⟨hpre, hnil⟩ := ih hne
      exact ⟨hpre.trans (List.prefix_append _ _), hnil⟩
    · rename_i hnone
      rw [if_neg hnone] at hstop
      split
      · rename_i hz
        simp [hz] at hstop
      · exact ⟨List.prefix_rfl, by simp⟩

/-- The walk that stops at a file stops at what is one. -/
theorem kind_of_stop_file (h : l.Readable) (hstop : (walkToFirstNonDirectory l d).stop = .file) :
    componentKindInLayer l (walkToFirstNonDirectory l d).component = .file := by
  induction d using List.reverseRecOn with
  | nil => simp [walk_nil] at hstop
  | append_singleton d m ih =>
    rw [walk_snoc h] at hstop ⊢
    split at hstop
    · rename_i habove
      rw [if_pos habove]
      exact ih hstop
    · split at hstop
      · simp at hstop
      · rename_i habove hkind
        rw [if_neg habove, if_neg hkind]
        cases hc : componentKindInLayer l (d ++ [m]) <;> simp_all [walkStopAt]

/-- Where a walk stops at a file, its path shows nothing or that file. -/
theorem get_of_stop_file (h : l.Readable) (hstop : (walkToFirstNonDirectory l d).stop = .file) :
    l.get d = .missing ∨ l.get d = l.get (walkToFirstNonDirectory l d).component :=
  get_below_file (kind_of_stop_file h hstop) (walk_component h (by simp [hstop])).1

/-- A walk that stopped at a file shows no directory. -/
theorem not_directory_of_stop_file (h : l.Readable)
    (hstop : (walkToFirstNonDirectory l d).stop = .file) {e : LayerEntry}
    (he : l.get d = .entry e) : e.attributes.directory = false := by
  rcases get_of_stop_file h hstop with hmiss | hsame
  · rw [hmiss] at he
    cases he
  · exact not_directory_of_file (kind_of_stop_file h hstop) (hsame ▸ he)

/-- A walk that stopped at a file leaves nothing below, `.` apart. -/
theorem get_snoc_of_stop_file (h : l.Readable)
    (hstop : (walkToFirstNonDirectory l d).stop = .file) (hn : n ≠ ['.']) :
    l.get (d ++ [n]) = .missing := by
  by_contra hne
  rcases l.parent_directory d n hn hne with hun | ⟨e, he, hdir⟩
  · exact h.get d hun
  · rw [not_directory_of_stop_file h hstop he] at hdir
    cases hdir

/-- A walk to the component where another stopped stops there too. -/
theorem walk_to_component (h : l.Readable)
    (hstop : (walkToFirstNonDirectory l d).stop ≠ .none) :
    walkToFirstNonDirectory l (walkToFirstNonDirectory l d).component
      = walkToFirstNonDirectory l d := by
  induction d using List.reverseRecOn with
  | nil => simp [walk_nil] at hstop
  | append_singleton d n ih =>
    rw [walk_snoc h] at hstop ⊢
    split
    · rename_i hne
      exact ih hne
    · rename_i hnone
      rw [if_neg hnone] at hstop
      split
      · rename_i hz
        simp [hz] at hstop
      · rename_i hz
        simp only
        rw [walk_snoc h, if_neg hnone, if_neg hz]

theorem findLinkOnPath_eq_none_iff (h : l.Readable) :
    findLinkOnPath l d = .none ↔ (walkToFirstNonDirectory l d).stop ≠ .link := by
  unfold findLinkOnPath
  have hun := walk_stop_ne_unreadable h d
  cases hs : (walkToFirstNonDirectory l d).stop with
  | none => simp [linkStopOf]
  | file => simp [linkStopOf]
  | link =>
    simp only [linkStopOf]
    split <;> simp
  | unreadable => exact absurd hs hun

theorem endsAtLinkOrUnreadable_iff (h : l.Readable) :
    endsAtLinkOrUnreadable (walkToFirstNonDirectory l d).stop = true ↔
      (walkToFirstNonDirectory l d).stop = .link := by
  have hun := walk_stop_ne_unreadable h d
  cases hs : (walkToFirstNonDirectory l d).stop <;>
    simp_all [endsAtLinkOrUnreadable, linkStopOf]

/-! ## Whiteouts -/

theorem hasWhiteout_snoc (h : l.Readable) :
    hasWhiteout l (d ++ [n]) = true ↔
      l.get (d ++ [whiteoutName n]) ≠ .missing ∧
        (walkToFirstNonDirectory l d).stop ≠ .link := by
  rw [← findLinkOnPath_eq_none_iff h]
  simp [hasWhiteout, hasWhiteoutUnderWalkedDirectoryInLayer, markerFileExists_eq h]

theorem anyDirectoryUpToRoot_snoc (probeRoot : Bool) (f : RelPath → Bool) :
    anyDirectoryUpToRoot probeRoot f (d ++ [n])
      = (anyDirectoryUpToRoot probeRoot f d || f (d ++ [n])) := by
  rw [Bool.eq_iff_iff, Bool.or_eq_true]
  simp only [anyDirectoryUpToRoot, List.any_eq_true, List.mem_reverse, List.mem_inits,
    Bool.and_eq_true]
  constructor
  · rintro ⟨q, hpre, hroot, hf⟩
    rcases List.prefix_concat_iff.mp (by simpa using hpre) with rfl | hpre
    · exact .inr hf
    · exact .inl ⟨q, hpre, hroot, hf⟩
  · rintro (⟨q, hpre, hroot, hf⟩ | hf)
    · exact ⟨q, hpre.trans (List.prefix_append _ _), hroot, hf⟩
    · exact ⟨d ++ [n], List.prefix_rfl, by simp, hf⟩

/-! ## Ancestry -/

private theorem layerAncestryFrom_snoc (idx : Option Nat) (d : RelPath) :
    ∀ (walked : RelPath) (a : LayerAncestry),
      layerAncestryFrom c l idx walked a (d ++ [n])
        = stepLayerAncestry c l (walked ++ d ++ [n]) idx
            (layerAncestryFrom c l idx walked a d) := by
  induction d with
  | nil => intro walked a; simp [layerAncestryFrom]
  | cons x d ih =>
    intro walked a
    have := ih (walked ++ [x]) (stepLayerAncestry c l (walked ++ [x]) idx a)
    simpa [layerAncestryFrom] using this

theorem layerAncestryOf_nil (idx : Option Nat) :
    layerAncestryOf c l [] idx = ⟨false, isOpaqueInLayer l [], .none, false, false⟩ := rfl

theorem layerAncestryOf_snoc (d : RelPath) (n : Name) (idx : Option Nat) :
    layerAncestryOf c l (d ++ [n]) idx
      = stepLayerAncestry c l (d ++ [n]) idx (layerAncestryOf c l d idx) := by
  have := layerAncestryFrom_snoc (c := c) (l := l) (n := n) idx d []
    ⟨false, isOpaqueInLayer l [], .none, false, false⟩
  simpa [layerAncestryOf] using this

/-- The walk's end, and that an absent directory is missing. -/
theorem layerAncestryOf_walk (h : l.Readable) (d : RelPath) (idx : Option Nat) :
    (layerAncestryOf c l d idx).firstNonDirectory = (walkToFirstNonDirectory l d).stop ∧
      ((layerAncestryOf c l d idx).absent = true → l.get d = .missing) := by
  induction d using List.reverseRecOn with
  | nil => simp [layerAncestryOf_nil, walk_nil]
  | append_singleton d n ih =>
    obtain ⟨hstop, habsent⟩ := ih
    rw [layerAncestryOf_snoc, walk_snoc h]
    unfold stepLayerAncestry
    split
    · rename_i ha
      have hd := habsent ha
      have hn := get_append_of_missing hd [n]
      refine ⟨?_, fun _ => hn⟩
      rw [hstop]
      split
      · rfl
      · rename_i hnone
        rw [(componentKind_eq_missing_iff h).mpr hn]
        simpa [walkStopAt] using hnone
    · split
      · rename_i ha hne
        rw [hstop] at hne
        rw [if_pos hne]
        exact ⟨hstop, fun ha' => absurd ha' ha⟩
      · rename_i ha hnone
        rw [hstop] at hnone
        rw [if_neg hnone]
        refine ⟨?_, ?_⟩
        · by_cases hz : walkStopAt (componentKindInLayer l (d ++ [n])) = .none
          · rw [if_pos hz]
            exact hz
          · rw [if_neg hz]
        · intro hmiss
          exact (componentKind_eq_missing_iff h).mp (by simpa using hmiss)

/-- A walk that has stopped, or that has met no entry, takes no more from the layer. -/
private theorem layerAncestryFrom_stays (idx : Option Nat) (d : RelPath) :
    ∀ (walked : RelPath) (a : LayerAncestry),
      a.absent = true ∨ a.firstNonDirectory ≠ .none →
      layerAncestryFrom c l idx walked a d = a := by
  induction d with
  | nil => intro walked a _; rfl
  | cons x d ih =>
    intro walked a h
    have hstep : stepLayerAncestry c l (walked ++ [x]) idx a = a := by
      unfold stepLayerAncestry
      split
      · rfl
      · rename_i ha
        rw [if_pos (h.resolve_left ha)]
    rw [layerAncestryFrom, hstep]
    exact ih _ a h

private theorem layerAncestryFrom_firstNonDirectory (idx : Option Nat) (d : RelPath) :
    ∀ (walked : RelPath) (a : LayerAncestry),
      a.absent = false → a.firstNonDirectory = .none →
      (layerAncestryFrom c l idx walked a d).firstNonDirectory = (walkFrom l walked d).stop := by
  induction d with
  | nil => intro walked a _ hnone; exact hnone
  | cons x d ih =>
    intro walked a ha hnone
    obtain ⟨stepped, hstepped⟩ :
        ∃ stepped, stepped = stepLayerAncestry c l (walked ++ [x]) idx a := ⟨_, rfl⟩
    have hstop : stepped.firstNonDirectory
        = walkStopAt (componentKindInLayer l (walked ++ [x])) := by
      simp [hstepped, stepLayerAncestry, ha, hnone]
    have habsent : stepped.absent
        = decide (componentKindInLayer l (walked ++ [x]) = .missing) := by
      simp [hstepped, stepLayerAncestry, ha, hnone]
    rw [layerAncestryFrom, walkFrom, ← hstepped]
    cases hkind : componentKindInLayer l (walked ++ [x]) with
    | directory =>
      rw [hkind] at hstop habsent
      exact ih _ stepped habsent hstop
    | missing =>
      rw [hkind] at hstop habsent
      rw [layerAncestryFrom_stays idx d _ stepped (.inl habsent), hstop]
      rfl
    | file | link | unreadable =>
      rw [hkind] at hstop
      rw [layerAncestryFrom_stays idx d _ stepped (.inr (by rw [hstop]; decide)), hstop]
      rfl

theorem layerAncestryOf_firstNonDirectory (idx : Option Nat) :
    (layerAncestryOf c l d idx).firstNonDirectory = (walkToFirstNonDirectory l d).stop :=
  layerAncestryFrom_firstNonDirectory idx d [] _ rfl rfl

theorem layerAncestryOf_whitedOut_snoc (h : l.Readable) (idx : Option Nat) :
    (layerAncestryOf c l (d ++ [n]) idx).whitedOut
      = ((layerAncestryOf c l d idx).whitedOut || hasWhiteout l (d ++ [n])) := by
  obtain ⟨hstop, habsent⟩ := layerAncestryOf_walk (c := c) h d idx
  have hno : l.get (d ++ [whiteoutName n]) = .missing → hasWhiteout l (d ++ [n]) = false := by
    intro hmiss
    rw [Bool.eq_false_iff, ne_eq, hasWhiteout_snoc h]
    exact fun hw => hw.1 hmiss
  rw [layerAncestryOf_snoc]
  unfold stepLayerAncestry
  split
  · rename_i ha
    rw [hno (get_append_of_missing (habsent ha) _), Bool.or_false]
  · split
    · rename_i hne
      rw [hstop] at hne
      suffices hasWhiteout l (d ++ [n]) = false by rw [this, Bool.or_false]
      cases hs : (walkToFirstNonDirectory l d).stop with
      | none => exact absurd hs hne
      | file => exact hno (get_snoc_of_stop_file h hs (whiteoutName_ne_dot n))
      | unreadable => exact absurd hs (walk_stop_ne_unreadable h d)
      | link =>
        rw [Bool.eq_false_iff, ne_eq, hasWhiteout_snoc h]
        exact fun hw => hw.2 hs
    · rename_i hnone
      rw [hstop, ne_eq, not_not] at hnone
      have hlink : findLinkOnPath l d = .none := by
        rw [findLinkOnPath_eq_none_iff h, hnone]
        decide
      simp [hasWhiteout, hlink]

/-- The stepwise whiteout flag is the resolver's walk over the ancestors. -/
theorem layerAncestryOf_whitedOut (h : l.Readable) (d : RelPath) (idx : Option Nat) :
    (layerAncestryOf c l d idx).whitedOut = anyDirectoryUpToRoot false (hasWhiteout l) d := by
  induction d using List.reverseRecOn with
  | nil => simp [layerAncestryOf_nil, anyDirectoryUpToRoot]
  | append_singleton d n ih =>
    rw [layerAncestryOf_whitedOut_snoc h, anyDirectoryUpToRoot_snoc, ih]

theorem layerAncestryOf_link_snoc (h : l.Readable) (idx : Option Nat) :
    (layerAncestryOf c l (d ++ [n]) idx).linkUnderHigherEntry
      = if (walkToFirstNonDirectory l d).stop ≠ .none then
          (layerAncestryOf c l d idx).linkUnderHigherEntry
        else componentKindInLayer l (d ++ [n]) = .link &&
          match idx with
          | none => false
          | some i => higherLayerHoldsEntry c i (d ++ [n]) := by
  obtain ⟨hstop, habsent⟩ := layerAncestryOf_walk (c := c) h d idx
  rw [layerAncestryOf_snoc]
  unfold stepLayerAncestry
  split
  · rename_i ha
    have hmiss := get_append_of_missing (habsent ha) [n]
    have hk := (componentKind_eq_missing_iff h).mpr hmiss
    split
    · rfl
    · rename_i hnone
      rw [hk]
      -- nothing below an absent directory, so no link was met on the way to it
      have hfalse : ∀ (e : RelPath), (layerAncestryOf c l e idx).absent = true →
          (layerAncestryOf c l e idx).firstNonDirectory = .none →
          (layerAncestryOf c l e idx).linkUnderHigherEntry = false := by
        intro e
        induction e using List.reverseRecOn with
        | nil => simp [layerAncestryOf_nil]
        | append_singleton e m ih =>
          rw [layerAncestryOf_snoc]
          unfold stepLayerAncestry
          split
          · exact ih
          · split
            · rename_i hz hne
              intro _ hz'
              exact absurd hz' hne
            · intro hm _
              have hm' : componentKindInLayer l (e ++ [m]) = .missing := by simpa using hm
              simp [hm']
      rw [hfalse d ha (by rw [hstop]; simpa using hnone)]
      simp
  · split
    · rename_i hne
      rw [hstop] at hne
      rw [if_pos hne]
    · rename_i hnone
      rw [hstop] at hnone
      refine Eq.trans ?_ (if_neg hnone).symm
      cases idx <;> rfl

/-- The stepwise link flag is the resolver's `HasLinkUnderHigherLayerEntry`. -/
theorem layerAncestryOf_link (h : l.Readable) (d : RelPath) (i : Nat) :
    (layerAncestryOf c l d (some i)).linkUnderHigherEntry
      = hasLinkUnderHigherLayerEntry c l i d := by
  induction d using List.reverseRecOn with
  | nil => simp [layerAncestryOf_nil, hasLinkUnderHigherLayerEntry, walk_nil]
  | append_singleton d n ih =>
    rw [layerAncestryOf_link_snoc h, hasLinkUnderHigherLayerEntry, walk_snoc h]
    split
    · exact ih
    · cases hk : componentKindInLayer l (d ++ [n]) <;> simp [walkStopAt]

/-! ## Opaque directories -/

/-- A directory that ends the layers below it: its walk stopped, or it is itself
a directory with an opaque marker. -/
def coversAt (l : Layer) (p : RelPath) : Bool :=
  (walkToFirstNonDirectory l p).stop ≠ .none ||
    (if p.isEmpty then isOpaqueInLayer l []
      else componentKindInLayer l p = .directory && holdsOpaqueMarker l p)

theorem holdsOpaqueMarker_of_missing (h : l.Readable) (hs : l.NoStraySidecar)
    (hp : l.get p = .missing) : holdsOpaqueMarker l p = false := by
  have hside : l.sidecarOpaque p = false := by
    cases hc : l.sidecarOpaque p with
    | false => rfl
    | true => exact absurd hp (hs p hc).1
  simp [holdsOpaqueMarker, hasOpaqueMetadata, hp, hside, markerFileExists_eq h,
    get_append_of_missing hp]

/-- Beyond an opaque ancestor, a directory ends the layers below it when it does
so itself. -/
theorem layerAncestryOf_opaque_snoc (h : l.Readable) (idx : Option Nat) :
    ((layerAncestryOf c l (d ++ [n]) idx).opaqueDir ||
        (walkToFirstNonDirectory l (d ++ [n])).stop ≠ .none)
      = ((layerAncestryOf c l d idx).opaqueDir || coversAt l (d ++ [n])) := by
  obtain ⟨hstop, habsent⟩ := layerAncestryOf_walk (c := c) h d idx
  have hwalk := walk_snoc h d n
  have hempty : (d ++ [n]).isEmpty = false := by simp
  rw [layerAncestryOf_snoc]
  unfold stepLayerAncestry
  split
  · rename_i ha
    have hmiss := get_append_of_missing (habsent ha) [n]
    have hk := (componentKind_eq_missing_iff h).mpr hmiss
    simp [coversAt, hempty, hk]
  · split
    · rename_i hne
      rw [hstop] at hne
      rw [if_pos hne] at hwalk
      simp only [coversAt, hwalk, hne, ne_eq, not_false_eq_true, decide_true, Bool.or_true,
        Bool.true_or]
    · simp only [coversAt, hempty, isOpaqueWalkedDirectoryInLayer]
      cases (layerAncestryOf c l d idx).opaqueDir <;>
        cases decide ((walkToFirstNonDirectory l (d ++ [n])).stop ≠ .none) <;> simp

/-- Where no walk stopped, the stepwise opaque flag is the resolver's walk. -/
theorem layerAncestryOf_opaqueDir (h : l.Readable) (hs : l.NoStraySidecar) (d : RelPath)
    (idx : Option Nat) (hstop : (walkToFirstNonDirectory l d).stop = .none) :
    (layerAncestryOf c l d idx).opaqueDir = hasOpaqueSelfOrAncestorInLayer l d := by
  unfold hasOpaqueSelfOrAncestorInLayer
  induction d using List.reverseRecOn with
  | nil => simp [layerAncestryOf_nil, anyDirectoryUpToRoot]
  | append_singleton d n ih =>
    have hd : (walkToFirstNonDirectory l d).stop = .none := by
      by_contra hne
      rw [walk_snoc h, if_pos hne] at hstop
      exact hne hstop
    have hcov := layerAncestryOf_opaque_snoc (c := c) (d := d) (n := n) h idx
    rw [anyDirectoryUpToRoot_snoc, ← ih hd]
    rw [coversAt, hstop] at hcov
    have hlink : findLinkOnPath l (d ++ [n]) = .none := by
      rw [findLinkOnPath_eq_none_iff h, hstop]
      decide
    have hempty : (d ++ [n]).isEmpty = false := by simp
    simp only [ne_eq, not_true_eq_false, decide_false, Bool.or_false, Bool.false_or, hempty,
      Bool.false_eq_true, if_false] at hcov
    rw [hcov]
    congr 1
    rw [isOpaqueInLayer, hlink]
    -- a walk that did not stop ended at a directory or at nothing
    rw [walk_snoc h, if_neg (by simpa using hd)] at hstop
    cases hk : componentKindInLayer l (d ++ [n]) with
    | directory => simp
    | missing =>
      have hmiss := (componentKind_eq_missing_iff h).mp hk
      simp [holdsOpaqueMarker_of_missing h hs hmiss]
    | file => simp [hk, walkStopAt] at hstop
    | link => simp [hk, walkStopAt] at hstop
    | unreadable => simp [hk, walkStopAt] at hstop

/-- The resolver's question about the layers below a layer, in the merge's words. -/
theorem lowersBelow_eq_visible_iff (h : l.Readable) (hs : l.NoStraySidecar)
    (idx : Option Nat) :
    lowersBelow l d = .visible ↔
      (layerAncestryOf c l d idx).opaqueDir = false ∧
        (walkToFirstNonDirectory l d).stop = .none := by
  unfold lowersBelow hasNonDirectoryOrLinkSelfOrAncestorInLayer
  by_cases hstop : (walkToFirstNonDirectory l d).stop = .none
  · rw [layerAncestryOf_opaqueDir h hs d idx hstop]
    cases hasOpaqueSelfOrAncestorInLayer l d <;> simp [hstop]
  · cases hasOpaqueSelfOrAncestorInLayer l d <;> simp [hstop]

theorem ends_of_lowersBelow_ne_visible (h : l.Readable) (hs : l.NoStraySidecar)
    (idx : Option Nat) (hv : lowersBelow l d ≠ .visible) :
    ((layerAncestryOf c l d idx).opaqueDir ||
      (walkToFirstNonDirectory l d).stop ≠ .none) = true := by
  rw [Bool.or_eq_true, decide_eq_true_eq]
  by_contra hcon
  rw [not_or, not_not, Bool.not_eq_true] at hcon
  exact hv ((lowersBelow_eq_visible_iff h hs idx).mpr hcon)

end LayerMount
