import LayerMount.ViewTree

/-!
# What the marker steps do to the upper

The specifications of the steps of `LayerMount.Markers` and of the removal of an
entry: each puts one place of the upper, or nothing.  A whiteout that cannot be
written leaves at most directories that the view showed before.
-/

namespace LayerMount

open Lib

variable {e f g : Engine} {d p q : RelPath} {n : Name}

/-! ## Steps that only look -/

theorem walkLookups_looked (finalLink : FinalLink) (rest : RelPath) :
    ∀ (walked : RelPath) (e : Engine),
      (walkLookups finalLink walked rest).Ensures e fun r g => r = .ok () ∧ Looked e g := by
  induction rest with
  | nil => exact fun _ e => ⟨rfl, Looked.refl e⟩
  | cons c rest ih =>
    intro walked e
    apply Step.Ensures.ite
    · exact fun _ => ⟨rfl, Looked.refl e⟩
    · intro _
      refine Step.Ensures.bind (lookup_ensures (walked ++ [c]) e) ?_ ?_
      · intro shown f hf
        apply Step.Ensures.ite
        · exact fun _ => ⟨rfl, hf.2⟩
        · intro _
          cases shown.attributes with
          | none => exact ⟨rfl, hf.2⟩
          | some a =>
            apply Step.Ensures.ite
            · exact fun _ => ⟨rfl, hf.2⟩
            · intro _
              exact (ih (walked ++ [c]) f).mono fun _ g hg => ⟨hg.1, hf.2.trans hg.2⟩
      · exact fun _ f hf => by cases hf.1

/-- The view path of a caller's path. -/
def viewPathOf (path : CallerPath) : CallerPath :=
  if path.text.contains ['.', '.'] then path else ⟨path.text.filter fun c => c ≠ ['.']⟩

theorem walkCallerPath_looked [HostCase] (path : CallerPath) (finalLink : FinalLink) (e : Engine) :
    (walkCallerPath path finalLink).Ensures e fun r g =>
      r = .ok (viewPathOf path) ∧ Looked e g := by
  unfold walkCallerPath viewPathOf
  split
  · exact ⟨rfl, Looked.refl e⟩
  · refine Step.Ensures.bind (walkLookups_looked finalLink _ [] e) ?_ ?_
    · exact fun _ f hf => ⟨rfl, hf.2⟩
    · exact fun _ f hf => by cases hf.1

/-! ## Disk steps that the plan lets fail -/

theorem diskStep_fails {s : DiskStep} (h : e.fault = some (s, 0)) :
    (diskStep s).Ensures e fun r g => (∃ status, r = .error status) ∧ Untouched e g := by
  unfold Step.Ensures diskStep
  rw [h]
  simp only [ne_eq, not_true_eq_false, if_false]
  exact ⟨⟨_, rfl⟩, rfl, rfl, rfl, rfl, rfl, rfl⟩

/-- A step that the plan does not name next succeeds, and the plan for the other kinds
of steps stays. -/
theorem diskStep_succeeds {s : DiskStep} (h : e.fault ≠ some (s, 0)) :
    (diskStep s).Ensures e fun r g => r = .ok () ∧ Untouched e g ∧
      ∀ s', s' ≠ s → (g.fault = some (s', 0) ↔ e.fault = some (s', 0)) := by
  unfold Step.Ensures diskStep
  split
  · rename_i hf
    exact ⟨rfl, Untouched.refl e, fun _ _ => Iff.rfl⟩
  · rename_i k n hf
    split
    · exact ⟨rfl, Untouched.refl e, fun _ _ => Iff.rfl⟩
    · rename_i hk
      rw [not_not] at hk
      subst hk
      cases n with
      | zero => exact absurd hf h
      | succ n =>
        refine ⟨rfl, ⟨rfl, rfl, rfl, rfl, rfl, rfl⟩, ?_⟩
        intro s' hs'
        simp [hf, Ne.symm hs']

/-! ## Whiteouts -/

theorem createHiddenMarkerFile_ensures (m : RelPath) (e : Engine) :
    (WhiteoutManager.createHiddenMarkerFile m).Ensures e fun r g =>
      match r with
      | .ok _ => leadsToDirectory (e.upperAt m.dropLast) = true ∧
          PutsAt e g m (some (.leaf .marker))
      | .error _ => Untouched e g := by
  refine Step.Ensures.bind (diskStep_ensures .writeWhiteout e) ?_ fun _ f hf => hf
  intro _ f hf
  apply Step.Ensures.get
  apply Step.Ensures.ite
  · exact fun _ => hf
  · intro hlead
    have hwrite : leadsToDirectory (e.upperAt m.dropLast) = true ∧
        PutsAt e (f.putUpper m (some (.leaf .marker))) m (some (.leaf .marker)) := by
      rw [hf.upperAt] at hlead
      exact ⟨by simpa using hlead, hf.puts (putUpper_puts f m _)⟩
    cases f.upperAt m with
    | none => exact hwrite
    | some t =>
      cases t with
      | node v children => exact hf
      | leaf w =>
        cases w with
        | deadLink => exact hf
        | file id => exact hwrite
        | marker => exact hwrite

/-- Where no link is above a shown path, its ancestors show directories. -/
theorem directories_above (hp : p ≠ []) (hview : (viewAt e p).isSome = true)
    (hlink : isInLinkTarget e.config p.dropLast = false) :
    ∀ c, c <+: p.dropLast → c ≠ [] → viewAt e c = some .directory := by
  intro c hc hne
  have hshort : c ≠ p := by
    rintro rfl
    have := hc.length_le
    rw [List.length_dropLast] at this
    have := List.length_pos_iff.mpr hp
    omega
  rcases showsDirectory_above hne (hc.trans (List.dropLast_prefix p)) hshort hview with h | h
  · exact h
  · rw [isInLinkTarget_of_link hne hc h] at hlink
    cases hlink

/-- A whiteout for a path that shows: the directories above it, and the marker.  When it
fails, the view is the same. -/
theorem createWhiteout_ensures (hp : p ≠ []) (hview : (viewAt e p).isSome = true) :
    (WhiteoutManager.createWhiteout p).Ensures e fun r g =>
      match r with
      | .ok _ => ∃ f, Raised e f ∧ isInLinkTarget e.config p.dropLast = false ∧
          leadsToDirectory (f.upperAt p.dropLast) = true ∧
          (e.upperAt p = none → f.upperAt p = none) ∧
          PutsAt f g (getWhiteoutFileName p) (some (.leaf .marker))
      | .error _ => Raised e g := by
  apply Step.Ensures.get
  cases hlink : (findLinkInView e.config p.dropLast).stop with
  | link =>
    simp only [WhiteoutManager.markerDirectoryStatus, hlink]
    exact Raised.refl e
  | unreadable =>
    simp only [WhiteoutManager.markerDirectoryStatus, hlink]
    exact Raised.refl e
  | none =>
    have hnone : isInLinkTarget e.config p.dropLast = false := by
      simp [isInLinkTarget, hlink]
    simp only [WhiteoutManager.markerDirectoryStatus, hlink]
    refine Step.Ensures.bind (P := fun _ g => g = e) rfl ?_ ?_
    · rintro _ g rfl
      refine Step.Ensures.bind
        (ensureDirectoryExists_raised (directories_above hp hview hnone)) ?_ fun _ f hf => hf.1
      rintro _ f ⟨hf, hfree⟩
      refine Step.Ensures.bind (createHiddenMarkerFile_ensures (getWhiteoutFileName p) f) ?_ ?_
      · intro _ f' hf'
        refine (invalidateWithAncestors_ensures p f').mono fun r g hg => ?_
        rw [hg.1]
        have hlead : (getWhiteoutFileName p).dropLast = p.dropLast := by
          rw [getWhiteoutFileName, List.dropLast_concat]
        rw [hlead] at hf'
        have hfree := hfree (p.getLast hp)
        rw [List.dropLast_append_getLast hp] at hfree
        exact ⟨f, hf, hnone, hf'.1, hfree, hf'.2.untouched hg.2.toUntouched⟩
      · exact fun _ f' hf' => hf.trans hf'.raised
    · rintro _ g rfl
      exact Raised.refl g

end LayerMount
