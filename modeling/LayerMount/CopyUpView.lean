import LayerMount.Raise

/-!
# Copy-ups and the view

Every copy-up of `CopyUp.cpp`, of a path that shows, leaves a raised state: the view
does not change, whether the copy-up succeeds or not.
-/

namespace LayerMount

open Lib

variable {e f g : Engine} {d p q : RelPath} {n : Name}

/-- The path shows a directory or a link. -/
def ShowsDirectory (e : Engine) (p : RelPath) : Prop :=
  viewAt e p = some .directory ∨ viewAt e p = some .link

theorem Raised.showsDirectory (h : Raised e g) (hp : ShowsDirectory e p) : ShowsDirectory g p := by
  rw [ShowsDirectory, h.view]
  exact hp

theorem showsDirectory_of_leads {r : ResolvedPath} (hr : r = (resolvePath e.config p {}).1)
    (h : CopyUp.shownLeadsToDirectory e r = true) : ShowsDirectory e p := by
  rw [CopyUp.shownLeadsToDirectory, Bool.and_eq_true] at h
  rw [ShowsDirectory, viewAt, ← hr, if_pos h.1]
  cases ht : e.resolvedAt r with
  | none => rw [ht] at h; cases h.2
  | some t =>
    cases t with
    | leaf v => rw [ht] at h; cases h.2
    | node v children => cases hl : v.link <;> simp [shownOf, hl]

/-- The copy-up of a directory, as the functions that take one use it. -/
def CopiesDirectories (copyUpDirectory : RelPath → Op Unit) : Prop :=
  ∀ d e, ShowsDirectory e d → (copyUpDirectory d).Ensures e fun r g => RaisedTo e g d r

/-- The parent is the root, or the upper holds it. -/
def ParentHeld (e : Engine) (p : RelPath) : Prop :=
  p.dropLast = [] ∨ (e.upperAt p.dropLast).isSome = true

/-- The parent that is not in the upper yet is copied, as a directory that shows. -/
theorem ensureUpperParentWith_raised {copyUpDirectory : RelPath → Op Unit}
    (hcopy : CopiesDirectories copyUpDirectory) (p : RelPath) (e : Engine) :
    (CopyUp.ensureUpperParentWith copyUpDirectory p).Ensures e fun r g => Raised e g ∧
      ∀ a, r = .ok a → ParentHeld g p := by
  have hfails : ∀ {f : Engine} {status : NtStatus}, Raised e f → Raised e f ∧
      ∀ a : Unit, (.error status : Except NtStatus Unit) = .ok a → ParentHeld f p :=
    fun hf => ⟨hf, fun _ h => by cases h⟩
  apply Step.Ensures.ite
  · exact fun hroot => ⟨Raised.refl e, fun _ _ => .inl (by simpa using hroot)⟩
  · intro _
    apply Step.Ensures.get
    cases hu : e.upperAt p.dropLast with
    | some t =>
      have hheld : (e.upperAt p.dropLast).isSome = true := by rw [hu]; rfl
      apply Step.Ensures.ite
      · exact fun _ => ⟨Raised.refl e, fun _ _ => .inr hheld⟩
      · exact fun _ => hfails (Raised.refl e)
    | none =>
      refine Step.Ensures.bind (lookup_ensures p.dropLast e) ?_ ?_
      · intro shown f hf
        obtain ⟨hshown, hf⟩ := hf
        have hshown : shown = (resolvePath f.config p.dropLast {}).1 := by
          rw [hf.config]
          exact Except.ok.inj hshown
        apply Step.Ensures.get
        apply Step.Ensures.ite
        · exact fun _ => hfails hf.raised
        · intro hleads
          apply Step.Ensures.ite
          · intro _
            have hdir := showsDirectory_of_leads hshown (by simpa using hleads)
            refine (hcopy p.dropLast f hdir).mono fun r g hg => ?_
            exact ⟨hf.raised.trans hg.raised, fun a ha => .inr (hg.holds a ha)⟩
          · exact fun _ => hfails hf.raised
      · intro _ f hf
        exact hfails hf.2.raised

/-- What `PrepareCopyUpTarget` hands on: the lower entry to copy below a held parent, or
nothing when the upper holds the path already. -/
structure Prepared (e g : Engine) (p : RelPath) (r : Except NtStatus (Option ResolvedPath)) :
    Prop where
  raised : Raised e g
  link : r = .ok none → findLinkOnPath g.upperLayer p.dropLast ≠ .none
  none : r = .ok none → (g.upperAt p).isSome = true
  some : ∀ source, r = .ok (some source) →
    source = resolveLowerPath e.config p ∧ ParentHeld g p

theorem prepareCopyUpTargetWith_raised {copyUpDirectory : RelPath → Op Unit}
    (hcopy : CopiesDirectories copyUpDirectory) (p : RelPath) (e : Engine) :
    (CopyUp.prepareCopyUpTargetWith copyUpDirectory p).Ensures e fun r g =>
      Prepared e g p r := by
  have hfails : ∀ {f : Engine} {status : NtStatus}, Raised e f → Prepared e f p (.error status) :=
    fun hf => ⟨hf, fun h => (by cases h), fun h => (by cases h), fun _ h => by cases h⟩
  apply Step.Ensures.get
  apply Step.Ensures.ite
  · exact fun _ => hfails (Raised.refl e)
  · intro _
    refine Step.Ensures.bind (ensureUpperParentWith_raised hcopy p e) ?_ ?_
    · intro _ f hf
      apply Step.Ensures.get
      apply Step.Ensures.ite
      · intro hlink
        rw [Bool.and_eq_true] at hlink
        refine ⟨hf.1, fun _ (hnone : findLinkOnPath f.upperLayer p.dropLast = .none) => ?_,
          fun _ => hlink.2, fun _ h => by cases h⟩
        rw [hnone] at hlink
        cases hlink.1
      · intro _
        refine ⟨hf.1, fun h => (by cases h), fun h => (by cases h), fun source h => ⟨?_, hf.2 _ rfl⟩⟩
        exact (Option.some.inj (Except.ok.inj h)).symm
    · exact fun _ f hf => hfails hf.1

/-- The lookup of the lowers finds what a path shows that the upper does not hold. -/
theorem shown_of_lower {v : Shown} {t : Tree} (hfree : e.upperAt (d ++ [n]) = none)
    (hview : viewAt e (d ++ [n]) = some v) (hr : Raised e f)
    (ht : f.resolvedAt (resolveLowerPath e.config (d ++ [n])) = some t) :
    v = shownOf e.files false t := by
  obtain ⟨i, u, hshown, hv⟩ := shownBelow_of_viewAt hfree hview
  have hplace : f.resolvedAt (resolveLowerPath e.config (d ++ [n])) = e.lowerAt i (d ++ [n]) := by
    rw [hshown.resolveLowerPath, Engine.lowerAt, ← hr.lowers]
    rfl
  rw [hplace, hshown.place] at ht
  rw [hv, Option.some.inj ht]

/-- The clone of a link that shows. -/
theorem cloneLink_raised {v : Shown} {t : Tree}
    (hview : viewAt e (d ++ [n]) = some v) (hr : Raised e f)
    (ht : f.resolvedAt (resolveLowerPath e.config (d ++ [n])) = some t)
    (hkind : treeKind t = .link) :
    (CopyUp.cloneThroughWorkDir t (d ++ [n])).Ensures f fun r g =>
      RaisedTo e g (d ++ [n]) r := by
  have hfile : fileOf (some t) = none := by
    cases t with
    | node u children => rfl
    | leaf w => cases w <;> first | rfl | cases hkind
  rw [CopyUp.cloneThroughWorkDir, hfile]
  refine Step.Ensures.bind (stageEntry_ensures _ f) ?_ ?_
  · intro _ f' hf
    exact commitStaged_raised hview (hr.trans hf.raised) ((hf.resolvedAt _).trans ht)
      fun _ => .link hkind
  · exact fun _ f' hf => .error (hr.trans hf.raised)

/-- A step that only drops cache keys after a copy-up. -/
theorem invalidateAfter_raised {a : Unit} (h : RaisedTo e f p (.ok a)) (x : RelPath) :
    (invalidateWithAncestors x).Ensures f fun r g => RaisedTo e g p r :=
  (invalidateWithAncestors_ensures x f).mono fun _ _ hg => h.untouched hg.2.toUntouched

theorem copyUpDirectoryTarget_raised (hfree : e.upperAt (d ++ [n]) = none)
    (hdir : ShowsDirectory e (d ++ [n])) (hr : Raised e f) :
    (CopyUp.copyUpDirectoryTarget (d ++ [n]) (resolveLowerPath e.config (d ++ [n]))).Ensures f
      fun r g => RaisedTo e g (d ++ [n]) r := by
  obtain ⟨v, hview, hv⟩ : ∃ v, viewAt e (d ++ [n]) = some v ∧ (v = .directory ∨ v = .link) := by
    rcases hdir with h | h
    · exact ⟨_, h, .inl rfl⟩
    · exact ⟨_, h, .inr rfl⟩
  apply Step.Ensures.get
  cases ht : f.resolvedAt (resolveLowerPath e.config (d ++ [n])) with
  | none => exact .error hr
  | some t =>
    have hshown := shown_of_lower hfree hview hr ht
    have hkind : treeKind t = .directory ∨ treeKind t = .link := by
      rw [hshown, shownOf_eq_directory_iff, shownOf_eq_link_iff] at hv
      exact hv
    apply Step.Ensures.ite
    · intro hclone
      refine Step.Ensures.bind (cloneLink_raised hview hr ht ?_)
        (fun _ _ hf' => invalidateAfter_raised hf' _) fun _ _ h => h.failed
      cases t with
      | node u children => simpa [CopyUp.clonesReparsePoint, treeKind] using hclone
      | leaf w =>
        cases w with
        | file id => rcases hkind with h | h <;> cases h
        | deadLink => rfl
        | marker => rcases hkind with h | h <;> cases h
    · intro hclone
      refine Step.Ensures.bind (stageEntry_ensures _ f) ?_ ?_
      · intro _ f' hf
        refine Step.Ensures.bind (commitStaged_raised hview (hr.trans hf.raised)
          ((hf.resolvedAt _).trans ht) ?_)
          (fun _ _ hf' => invalidateAfter_raised hf' _) fun _ _ h => h.failed
        intro _
        cases t with
        | node u children =>
          exact .directory children _ (by simpa [CopyUp.clonesReparsePoint] using hclone)
        | leaf w =>
          cases w with
          | file id => rcases hkind with h | h <;> cases h
          | deadLink => exact absurd rfl hclone
          | marker => rcases hkind with h | h <;> cases h
      · exact fun _ f' hf => .error (hr.trans hf.raised)

/-- The copy-up of a directory or link that shows. -/
theorem copyUpDirectoryWithin_raised (k : Nat) :
    CopiesDirectories (CopyUp.copyUpDirectoryWithin k) := by
  induction k with
  | zero => exact fun p e _ => .error (Raised.refl e)
  | succ k ih =>
    intro p e hdir
    apply Step.Ensures.get
    apply Step.Ensures.ite
    · exact fun hheld => ⟨Raised.refl e, fun _ _ => hheld⟩
    · intro hfree
      cases p using List.reverseRecOn with
      | nil =>
        -- the root of the view is the upper's
        rw [ShowsDirectory, viewAt_nil] at hdir
        rw [Engine.upperAt, placeAt_nil] at hfree
        cases hu : e.upper with
        | none => rw [hu] at hdir; rcases hdir with h | h <;> cases h
        | some t => rw [hu] at hfree; exact absurd rfl hfree
      | append_singleton d n =>
        refine Step.Ensures.bind (prepareCopyUpTargetWith_raised ih (d ++ [n]) e) ?_ ?_
        · intro source f hf
          cases source with
          | none => exact ⟨hf.raised, fun _ _ => hf.none rfl⟩
          | some source =>
            obtain rfl := (hf.some source rfl).1
            exact copyUpDirectoryTarget_raised (by simpa using hfree) hdir hf.raised
        · exact fun _ f hf => .error hf.raised

theorem copyUpDirectory_raised : CopiesDirectories CopyUp.copyUpDirectory :=
  fun p e hdir => copyUpDirectoryWithin_raised _ p e hdir

theorem prepareCopyUpTarget_raised (p : RelPath) (e : Engine) :
    (CopyUp.prepareCopyUpTarget p).Ensures e fun r g => Prepared e g p r :=
  prepareCopyUpTargetWith_raised copyUpDirectory_raised p e

/-! ## Files -/

theorem makeDirectories_of_held {o : Place} (walked rest : RelPath)
    (h : (placeAt o (walked ++ rest)).isSome = true) : makeDirectories o walked rest = o := by
  induction rest generalizing walked with
  | nil => rfl
  | cons c rest ih =>
    have hassoc : walked ++ c :: rest = walked ++ [c] ++ rest := by simp
    rw [hassoc] at h
    rw [makeDirectories]
    cases hc : placeAt o (walked ++ [c]) with
    | none =>
      rw [placeAt_append, hc, placeAt_none] at h
      cases h
    | some t => exact ih (walked ++ [c]) h

/-- Directories that are there are not made again. -/
theorem ensureDirectoryExists_held (h : ParentHeld e p) :
    (ensureDirectoryExists p.dropLast).Ensures e fun r g => r = .ok () ∧ Untouched e g := by
  refine Step.Ensures.attempt_bind (diskStep_ensures .createDirectories e) ?_
  intro r f hf
  cases r with
  | error _ => exact ⟨rfl, hf⟩
  | ok _ =>
    have hmake : makeDirectories f.upper [] p.dropLast = f.upper := by
      rcases h with h | h
      · rw [h]
        rfl
      · apply makeDirectories_of_held
        rw [List.nil_append, hf.upper]
        exact h
    refine ⟨rfl, hf.trans ⟨?_, rfl, rfl, rfl, rfl, rfl⟩⟩
    exact hmake

theorem Raised.parentHeld (h : Raised e g) (hp : ParentHeld e p) : ParentHeld g p := by
  rcases hp with hp | hp
  · exact .inl hp
  · exact .inr (h.grows _ hp)

theorem Untouched.parentHeld (h : Untouched e g) (hp : ParentHeld e p) : ParentHeld g p :=
  h.raised.parentHeld hp

theorem commitStagedFile_raised {v : Shown} {t : Tree} {id : FileId}
    (hview : viewAt e (d ++ [n]) = some v) (hr : Raised e f) (hheld : ParentHeld f (d ++ [n]))
    (ht : f.resolvedAt (resolveLowerPath e.config (d ++ [n])) = some t)
    (hcopy : Copies f.files t (.leaf (.file id))) :
    (CopyUp.commitStagedFile (d ++ [n]) id).Ensures f fun r g => RaisedTo e g (d ++ [n]) r := by
  refine Step.Ensures.bind (ensureDirectoryExists_held hheld) ?_ ?_
  · intro _ f' hf
    refine Step.Ensures.bind (commitStaged_raised hview (hr.trans hf.2.raised)
      ((hf.2.resolvedAt _).trans ht) ?_) (fun _ _ hf' => invalidateAfter_raised hf' _)
      fun _ _ h => h.failed
    rw [hf.2.files]
    exact fun _ => hcopy
  · exact fun _ f' hf => .error (hr.trans hf.2.raised)

/-- A lower's file, and the table after one more file. -/
theorem fileAt_newFile {id : FileId} (hid : id < e.files.length) (x : FileObj) :
    fileAt (e.files ++ [x]) id = fileAt e.files id := by
  simp only [fileAt, List.getD_eq_getElem?_getD, List.getElem?_append_left hid]

theorem fileAt_last (files : List FileObj) (x : FileObj) :
    fileAt (files ++ [x]) files.length = x := by
  simp [fileAt, List.getD_eq_getElem?_getD]

/-- A new file `x` stands for the lower's file `id`. -/
def StandsFor (files : List FileObj) (id : FileId) (x : FileObj) : Prop :=
  x.metacopy = none ∧ x.data = (fileAt files id).data ∨
    ∃ origin, x.metacopy = some origin ∧ origin.file = id

/-- The new file `x` shows what the lower's file `id` shows. -/
theorem copies_newFile {id : FileId} (hid : id < e.files.length) {x : FileObj}
    (hx : StandsFor e.files id x) :
    Copies (e.files ++ [x]) (.leaf (.file id)) (.leaf (.file e.files.length)) := by
  refine Copies.file (by simp) rfl ?_
  simp only [shownOf, if_true, Bool.false_eq_true, if_false, logicalData, fileAt_last,
    fileAt_newFile hid]
  rcases hx with ⟨hm, hdata⟩ | ⟨origin, hm, rfl⟩
  · rw [hm]
    simp only [hdata]
  · rw [hm]
    simp only [fileAt_newFile hid]

theorem raised_standsFor {id : FileId} {x : FileObj} (hf : f.Wf) (hid : id < f.files.length)
    (hx : StandsFor f.files id x) : Raised f { f with files := f.files ++ [x] } := by
  apply raised_newFile hf
  intro origin horigin
  rcases hx with ⟨hm, -⟩ | ⟨o, hm, rfl⟩
  · rw [hm] at horigin
    cases horigin
  · rw [hm] at horigin
    rw [← Option.some.inj horigin]
    exact hid

/-- A new file that stands for a lower's file, moved to the upper. -/
theorem commitNewFile_raised {v : Shown} {id : FileId} {x : FileObj}
    (hview : viewAt e (d ++ [n]) = some v) (hr : Raised e f) (hf : f.Wf)
    (hheld : ParentHeld f (d ++ [n]))
    (ht : f.resolvedAt (resolveLowerPath e.config (d ++ [n])) = some (.leaf (.file id)))
    (hid : id < f.files.length) (hx : StandsFor f.files id x) :
    (CopyUp.commitStagedFile (d ++ [n]) f.files.length).Ensures
      { f with files := f.files ++ [x] } fun r g => RaisedTo e g (d ++ [n]) r := by
  apply commitStagedFile_raised hview (hr.trans (raised_standsFor hf hid hx)) hheld
    (t := .leaf (.file id))
  · exact ht
  · exact copies_newFile hid hx

theorem Engine.Wf.resolvedAt (he : e.Wf) (r : ResolvedPath) :
    NamesBelow e.files.length (e.resolvedAt r) := by
  unfold Engine.resolvedAt
  split
  · exact he.upperAt _
  · exact he.lowerAt _ _
  · intro r id hid
    simp [entryAt] at hid

theorem eq_leaf_of_fileOf {t : Tree} {id : FileId} (h : fileOf (some t) = some id) :
    t = .leaf (.file id) := by
  cases t with
  | node v children => cases h
  | leaf w =>
    cases w with
    | file id' => rw [← Option.some.inj h]
    | deadLink => cases h
    | marker => cases h

/-- A clone of a link, or of a file that is all reparse data. -/
theorem cloneThroughWorkDir_raised {v : Shown} {t : Tree}
    (hview : viewAt e (d ++ [n]) = some v) (hr : Raised e f) (hf : f.Wf)
    (ht : f.resolvedAt (resolveLowerPath e.config (d ++ [n])) = some t)
    (hclone : CopyUp.clonesReparsePoint f.files t = true) :
    (CopyUp.cloneThroughWorkDir t (d ++ [n])).Ensures f fun r g =>
      RaisedTo e g (d ++ [n]) r := by
  cases hfile : fileOf (some t) with
  | none =>
    refine cloneLink_raised hview hr ht ?_
    cases t with
    | node u children => simpa [CopyUp.clonesReparsePoint, treeKind] using hclone
    | leaf w =>
      cases w with
      | file id => cases hfile
      | deadLink => rfl
      | marker => cases hclone
  | some id =>
    obtain rfl := eq_leaf_of_fileOf hfile
    have hid : id < f.files.length := by
      apply hf.resolvedAt (resolveLowerPath e.config (d ++ [n])) [] id
      rw [ht]
      rfl
    apply Step.Ensures.get
    refine Step.Ensures.bind (stageEntry_ensures _ f) ?_ ?_
    · intro _ f' hf'
      have hid' : id < f'.files.length := by rw [hf'.files]; exact hid
      have hx : StandsFor f'.files id (CopyUp.clonedFile none (fileAt f.files id)) := by
        rw [hf'.files]
        exact .inl ⟨rfl, rfl⟩
      have hnew := raised_standsFor (hf'.raised.wf hf) hid' hx
      exact commitStaged_raised hview (hr.trans (hf'.raised.trans hnew))
        ((hf'.resolvedAt _).trans ht) fun _ => copies_newFile hid' hx
    · exact fun _ f' hf' => .error (hr.trans hf'.raised)

theorem stageFile_ensures (x : FileObj) (e : Engine) :
    (CopyUp.stageFile x).Ensures e fun r g =>
      match r with
      | .ok id => ∃ f y, Untouched e f ∧ id = f.files.length ∧ y.metacopy = none ∧
          y.data = x.data ∧ g = { f with files := f.files ++ [y] }
      | .error _ => Untouched e g := by
  apply Step.Ensures.get
  refine Step.Ensures.bind (stageEntry_ensures _ e) ?_ ?_
  · intro _ f hf
    refine ⟨f, _, hf, rfl, ?_, ?_, rfl⟩
    · rfl
    · rfl
  · exact fun _ f hf => hf

/-- The upper holds the root of a view that shows one. -/
theorem ne_nil_of_free {v : Shown} (hview : viewAt e p = some v)
    (hfree : ¬(e.upperAt p).isSome = true) : p ≠ [] := by
  intro hp
  rw [hp, viewAt_nil] at hview
  rw [hp, Engine.upperAt, placeAt_nil] at hfree
  cases hu : e.upper with
  | none => rw [hu] at hview; cases hview
  | some t => rw [hu] at hfree; exact hfree rfl

theorem copyUpFile_raised {v : Shown} (he : e.Wf) (hview : viewAt e p = some v) :
    (CopyUp.copyUpFile p).Ensures e fun r g => RaisedTo e g p r := by
  apply Step.Ensures.get
  apply Step.Ensures.ite
  · exact fun hheld => ⟨Raised.refl e, fun _ _ => hheld⟩
  · intro hfree
    obtain ⟨d, n, rfl⟩ : ∃ d n, p = d ++ [n] :=
      ⟨_, _, (List.dropLast_append_getLast (ne_nil_of_free hview hfree)).symm⟩
    refine Step.Ensures.bind (prepareCopyUpTarget_raised (d ++ [n]) e) ?_ ?_
    · intro source f hf
      have hwf := hf.raised.wf he
      cases source with
      | none => exact ⟨hf.raised, fun _ _ => hf.none rfl⟩
      | some source =>
        obtain ⟨rfl, hheld⟩ := hf.some source rfl
        apply Step.Ensures.get
        cases ht : f.resolvedAt (resolveLowerPath e.config (d ++ [n])) with
        | none => exact .error hf.raised
        | some t =>
          apply Step.Ensures.ite
          · intro hclone
            exact Step.Ensures.bind (cloneThroughWorkDir_raised hview hf.raised hwf ht hclone)
              (fun _ _ hf' => invalidateAfter_raised hf' _) fun _ _ h => h.failed
          · intro _
            cases hfile : fileOf (some t) with
            | none => exact .error hf.raised
            | some id =>
              obtain rfl := eq_leaf_of_fileOf hfile
              have hid : id < f.files.length := by
                apply hwf.resolvedAt (resolveLowerPath e.config (d ++ [n])) [] id
                rw [ht]
                rfl
              refine Step.Ensures.bind (stageFile_ensures _ f) ?_ ?_
              · intro k g hg
                obtain ⟨f', y, hf', rfl, hm, hdata, rfl⟩ := hg
                apply commitNewFile_raised hview (hf.raised.trans hf'.raised)
                  (hf'.raised.wf hwf) (hf'.parentHeld hheld) ((hf'.resolvedAt _).trans ht)
                · rw [hf'.files]
                  exact hid
                · rw [hf'.files]
                  exact .inl ⟨hm, hdata⟩
              · exact fun _ g hg => .error (hf.raised.trans hg.raised)
    · exact fun _ f hf => .error hf.raised

/-- What a lookup of the lowers found is the same after a copy-up. -/
theorem Raised.resolvedLower (h : Raised e f) (c : LayerConfig) (p : RelPath) :
    f.resolvedAt (resolveLowerPath c p) = e.resolvedAt (resolveLowerPath c p) := by
  have hcases : (∃ k a, resolveLowerPath c p = hitAt p .lower (some k) a) ∨
      resolveLowerPath c p = {} := by
    rw [resolveLowerPath]
    split
    · exact .inr rfl
    · split
      · exact .inr rfl
      · exact findInLowersFrom_cases _ _ _ _
  rcases hcases with ⟨k, a, hhit⟩ | hmiss
  · rw [hhit]
    simp only [Engine.resolvedAt, hitAt, Engine.lowerAt, h.lowers]
  · rw [hmiss]
    rfl

theorem Raised.fileAt {id : FileId} (h : Raised e f) (hid : id < e.files.length) :
    fileAt f.files id = fileAt e.files id := by
  obtain ⟨more, hmore⟩ := h.files
  rw [← hmore]
  simp only [LayerMount.fileAt, List.getD_eq_getElem?_getD, List.getElem?_append_left hid]

theorem copyUpMetadataOnly_raised {v : Shown} (he : e.Wf) (hview : viewAt e p = some v) :
    (CopyUp.copyUpMetadataOnly p).Ensures e fun r g => RaisedTo e g p r := by
  apply Step.Ensures.get
  apply Step.Ensures.ite
  · exact fun hheld => ⟨Raised.refl e, fun _ _ => hheld⟩
  · intro hfree
    obtain ⟨d, n, rfl⟩ : ∃ d n, p = d ++ [n] :=
      ⟨_, _, (List.dropLast_append_getLast (ne_nil_of_free hview hfree)).symm⟩
    apply Step.Ensures.get
    refine Step.Ensures.bind (P := fun _ g => g = e) rfl ?_ ?_
    · rintro _ g rfl
      refine Step.Ensures.bind (prepareCopyUpTarget_raised (d ++ [n]) g) ?_ ?_
      · intro source f hf
        have hwf := hf.raised.wf he
        cases source with
        | none => exact ⟨hf.raised, fun _ _ => hf.none rfl⟩
        | some source =>
          obtain ⟨rfl, hheld⟩ := hf.some source rfl
          apply Step.Ensures.get
          cases hfile : fileOf (f.resolvedAt (resolveLowerPath g.config (d ++ [n]))) with
          | none => exact .error hf.raised
          | some id =>
            have ht : f.resolvedAt (resolveLowerPath g.config (d ++ [n]))
                = some (.leaf (.file id)) := by
              cases ht : f.resolvedAt (resolveLowerPath g.config (d ++ [n])) with
              | none => rw [ht] at hfile; cases hfile
              | some t => rw [ht] at hfile; rw [eq_leaf_of_fileOf hfile]
            have hid : id < f.files.length := by
              apply hwf.resolvedAt (resolveLowerPath g.config (d ++ [n])) [] id
              rw [ht]
              rfl
            refine Step.Ensures.bind (stageEntry_ensures _ f) ?_ ?_
            · intro _ f' hf'
              refine Step.Ensures.bind (P := fun r h => r = .ok f'.files.length ∧
                h = { f' with files := f'.files ++ [CopyUp.shellOf id (fileAt f.files id)] })
                ⟨rfl, rfl⟩ ?_ ?_
              · intro k h hh
                obtain ⟨hk, rfl⟩ := hh
                obtain rfl := Except.ok.inj hk
                refine Step.Ensures.bind (commitNewFile_raised hview (hf.raised.trans hf'.raised)
                  (hf'.raised.wf hwf) (hf'.parentHeld hheld) ((hf'.resolvedAt _).trans ht) ?_ ?_)
                  ?_ ?_
                · rw [hf'.files]
                  exact hid
                · exact .inr ⟨_, rfl, rfl⟩
                · intro _ h' hh'
                  exact ⟨hh'.raised, fun _ _ => hh'.holds _ rfl⟩
                · exact fun _ h' hh' => hh'.failed
              · intro _ h hh
                cases hh.1
            · exact fun _ f' hf' => .error (hf.raised.trans hf'.raised)
      · exact fun _ f hf => .error hf.raised
    · rintro _ g rfl
      exact .error (Raised.refl g)

theorem copyUpFileOrShell_raised {v : Shown} (he : e.Wf) (hview : viewAt e p = some v)
    (shellOnlyAboveBytes : Option Nat) :
    (CopyUp.copyUpFileOrShell p shellOnlyAboveBytes).Ensures e fun r g => RaisedTo e g p r := by
  have hfull : (do
      CopyUp.copyUpFile p
      pure ⟨false⟩ : Op CopyUp.FileCopyUpResult).Ensures e fun r g => RaisedTo e g p r := by
    refine Step.Ensures.bind (copyUpFile_raised he hview) ?_ fun _ _ h => h.failed
    intro _ f hf
    exact ⟨hf.raised, fun _ _ => hf.holds _ rfl⟩
  apply Step.Ensures.get
  apply Step.Ensures.ite
  · exact fun _ => hfull
  · intro _
    dsimp only
    cases ht : e.resolvedAt (resolveLowerPath e.config p) with
    | none => exact hfull
    | some t =>
      apply Step.Ensures.ite
      · exact fun _ => hfull
      · exact fun _ => copyUpMetadataOnly_raised he hview

/-! ## Links above a path -/

/-- Every slot of a path is below a slot of each of its ancestors. -/
theorem mem_walk {files : List FileObj} {slots : List TreeSlot} {q : RelPath} {t : TreeSlot}
    (ht : t ∈ (treeOverlay files).walk slots q) :
    ∃ s ∈ slots, t = q.foldl TreeSlot.child s := by
  induction q generalizing slots with
  | nil => exact ⟨t, ht, rfl⟩
  | cons n q ih =>
    obtain ⟨u, hu, rfl⟩ := ih ht
    obtain ⟨s, hs, rfl⟩ := (treeOverlay files).mem_descendFrom hu
    exact ⟨s, hs, rfl⟩

theorem place_of_link {o : Place} {i : Option Nat} (hp : p ≠ [])
    (h : (slotOf o i p).link = true) : ∃ t, placeAt o p = some t ∧ treeKind t = .link := by
  obtain ⟨d, n, rfl⟩ : ∃ d n, p = d ++ [n] := ⟨_, _, (List.dropLast_append_getLast hp).symm⟩
  rw [slotOf_snoc, TreeSlot.child, slotOf_sub, ← placeAt_snoc, slotIn] at h
  split at h
  · cases ht : placeAt o (d ++ [n]) with
    | none => simp [ht, placeKind] at h
    | some t =>
      refine ⟨t, rfl, ?_⟩
      rw [ht] at h
      cases hk : treeKind t <;> simp [placeKind, hk] at h ⊢
  · cases h

theorem foldl_child_lowerIndex (s : TreeSlot) (q : RelPath) :
    (q.foldl TreeSlot.child s).lowerIndex = s.lowerIndex := by
  induction q generalizing s with
  | nil => rfl
  | cons n q ih => rw [List.foldl_cons, ih, child_lowerIndex]

/-- A lower's link that ends the view at `d`: the upper does not hold it, and where a
lookup accepts it the view shows it. -/
theorem lowerLink_spec {link : RelPath}
    (h : findLinkInView e.config d = ⟨.link, .lower, link⟩) :
    link <+: d ∧ link ≠ [] ∧ e.upperAt link = none ∧
      (isResolvablePath e.config link = true → viewAt e link = some .link) := by
  obtain ⟨s, hs, hin, hcomp⟩ := findLinkInView_lower e.sound h
  have hcor := corresponds_slots e d
  rw [slotsAt_cons] at hcor
  obtain ⟨t, ht, hst⟩ : ∃ t ∈ lowersAt e d, Corresponds e s t := by
    cases hl : liveSlots e.config d with
    | nil => rw [hl] at hcor; cases hcor
    | cons u rest =>
      rw [hl] at hcor hs
      obtain ⟨i, hi, rfl⟩ := List.getElem_of_mem hs
      have htail := (List.forall₂_cons.mp hcor).2
      have hlen := htail.length_eq
      rw [List.tail_cons] at hi
      exact ⟨_, List.getElem_mem (by omega), List.forall₂_iff_get.mp htail |>.2 i hi (by omega)⟩
  obtain ⟨hlayer, rfl⟩ := hst
  have hpath : s.path = d := (readable_of_mem_liveSlots e.sound (List.mem_of_mem_tail hs)).2
  rw [hpath] at ht
  rw [SlotInLink, hpath, hlayer] at hin
  rw [hlayer] at hcomp
  have hread := @readable_ofTree e.files (treeAt e s.lowerIndex)
  have hne : (walkToFirstNonDirectory (Layer.ofTree e.files (treeAt e s.lowerIndex)) d).stop
      ≠ .none := by
    rw [hin]
    decide
  obtain ⟨hpre, hnil⟩ := walk_component hread hne
  have hself := walk_to_component hread hne
  rw [hcomp] at hpre hnil hself
  obtain ⟨q, rfl⟩ := hpre
  obtain ⟨i, hi⟩ := mem_lowersAt ht
  have hidx : s.lowerIndex = some i := by
    have := congrArg TreeSlot.lowerIndex hi
    simpa using this
  -- the slot of the link itself is among the slots of its path
  have hslot : slotOf (treeAt e s.lowerIndex) s.lowerIndex link ∈ slotsAt e link := by
    have hmem : slotOf (treeAt e s.lowerIndex) s.lowerIndex (link ++ q) ∈ slotsAt e (link ++ q) := by
      rw [slotsAt_cons]
      exact List.mem_cons_of_mem _ ht
    rw [slotsAt, Overlay.live_append] at hmem
    obtain ⟨u, hu, hut⟩ := mem_walk hmem
    have huidx : u.lowerIndex = some i := by
      have := congrArg TreeSlot.lowerIndex hut
      rw [foldl_child_lowerIndex, slotOf_lowerIndex, hidx] at this
      exact this.symm
    have hu : u ∈ slotsAt e link := hu
    rw [slotsAt_cons] at hu
    rcases List.mem_cons.mp hu with rfl | hlow
    · rw [slotOf_lowerIndex] at huidx
      cases huidx
    · obtain ⟨k, rfl⟩ := mem_lowersAt hlow
      rw [slotOf_lowerIndex] at huidx
      obtain rfl := Option.some.inj huidx
      rw [hidx]
      rw [slotsAt_cons]
      exact List.mem_cons_of_mem _ hlow
  have hstop : (slotOf (treeAt e s.lowerIndex) s.lowerIndex link).stop = .link := by
    rw [slotOf_stop e.files, hself]
    exact hin
  have hlink : (slotOf (treeAt e s.lowerIndex) s.lowerIndex link).link = true := by
    rw [slotOf_link e.files, hself, decide_eq_true_eq]
    exact ⟨hin, hcomp⟩
  obtain ⟨pre, t, hsplit, htstop, hpre⟩ := inLink_slotsAt e link ⟨_, hslot, hstop⟩
  obtain rfl : slotOf (treeAt e s.lowerIndex) s.lowerIndex link = t := by
    rw [hsplit] at hslot
    rcases List.mem_append.mp hslot with hmem | hmem
    · have := (hpre _ hmem).2
      rw [hstop] at this
      cases this
    · simpa using hmem
  refine ⟨List.prefix_append _ _, hnil, ?_, ?_⟩
  · rw [slotsAt_cons] at hsplit
    cases pre with
    | nil =>
      rw [List.nil_append, List.cons.injEq] at hsplit
      have := congrArg TreeSlot.lowerIndex hsplit.1
      rw [slotOf_lowerIndex, slotOf_lowerIndex, hidx] at this
      cases this
    | cons u pre =>
      rw [List.cons_append, List.cons.injEq] at hsplit
      have := (hpre u (by simp)).1
      rw [← hsplit.1, slotOf_sub] at this
      exact this
  · intro hres
    have hlook : (treeOverlay e.files).look (slotsAt e link)
        = (treeOverlay e.files).entry (slotOf (treeAt e s.lowerIndex) s.lowerIndex link) := by
      have := @showFrom_empties e.files _ hpre
        [slotOf (treeAt e s.lowerIndex) s.lowerIndex link] []
      rw [← hsplit, showFrom_singleton_nil] at this
      simpa [showFrom, passes] using this
    obtain ⟨t, ht, hkind⟩ := place_of_link hnil hlink
    rw [viewAt_eq e hnil, showAt_eq e hnil, if_pos hres, hlook]
    simp [treeOverlay, ht, shownOf_eq_link_iff.mpr hkind]

theorem passes_above {files : List FileObj} {slots : List TreeSlot} {p q : RelPath}
    (h : passes files slots (p ++ q) = true) : passes files slots p = true := by
  rw [passes_append, Bool.and_eq_true] at h
  exact h.1

/-- A lookup that accepts a path accepts its ancestors. -/
theorem isResolvablePath_above (hp : p ≠ []) (hpre : p <+: q)
    (h : isResolvablePath e.config q = true) : isResolvablePath e.config p = true := by
  obtain ⟨r, rfl⟩ := hpre
  have hside : isRootSidecarPath (p ++ r) = isRootSidecarPath p := by
    cases p with
    | nil => exact absurd rfl hp
    | cons m p => rfl
  rw [isResolvablePath_eq e (by simp [hp]), hside, Bool.and_eq_true] at h
  rw [isResolvablePath_eq e hp, Bool.and_eq_true]
  exact ⟨h.1, passes_above h.2⟩

theorem stop_foldl_child {s : TreeSlot} (h : s.stop ≠ .none) (q : RelPath) :
    (q.foldl TreeSlot.child s).stop = s.stop := by
  induction q generalizing s with
  | nil => rfl
  | cons n q ih =>
    have hchild : (s.child n).stop = s.stop := by simp [TreeSlot.child, slotIn, h]
    rw [List.foldl_cons, ih (by rw [hchild]; exact h), hchild]

theorem slotOf_append (o : Place) (i : Option Nat) (p q : RelPath) :
    slotOf o i (p ++ q) = q.foldl TreeSlot.child (slotOf o i p) := by
  simp [slotOf, List.foldl_append]

/-- Where the upper's walk stopped, no lower counts. -/
theorem lowersAt_of_stop (h : (slotOf e.upper none d).stop ≠ .none) : lowersAt e d = [] := by
  have hpair := (treeOverlay e.files).live_pairwise (treeStack e) d
  rw [show (treeOverlay e.files).live (treeStack e) d = slotsAt e d from rfl, slotsAt_cons] at hpair
  cases hl : lowersAt e d with
  | nil => rfl
  | cons s rest =>
    rw [hl] at hpair
    have := List.rel_of_pairwise_cons hpair List.mem_cons_self
    rw [covers_of_stop h] at this
    cases this

/-- A link that the view shows and the upper holds is the upper's. -/
theorem stop_of_shown_link (hp : p ≠ []) (hheld : (e.upperAt p).isSome = true)
    (hview : viewAt e p = some .link) : (slotOf e.upper none p).stop = .link := by
  obtain ⟨t, ht⟩ := Option.isSome_iff_exists.mp hheld
  have ht : placeAt e.upper p = some t := ht
  rw [viewAt_eq e hp, showAt_eq e hp] at hview
  split at hview
  · rw [slotsAt_cons, Overlay.look] at hview
    simp only [treeOverlay, slotOf_sub, ht, Option.map_some, Option.some.injEq] at hview
    exact stop_of_link hp ht (shownOf_eq_link_iff.mp hview)
  · cases hview

/-- The copy-up of the lower link above a path that a lookup accepts.  When it succeeds
and does something, the path is in a link's target of the upper. -/
theorem copyUpLowerLinkAbove_raised (hres : isResolvablePath e.config p = true) :
    (CopyUp.copyUpLowerLinkAbove p).Ensures e fun r g => Raised e g ∧
      ((e.upperAt p).isSome = true → r = .ok () ∧ g = e) ∧
      (r = .ok () → g = e ∨ (slotOf g.upper none p.dropLast).stop = .link) := by
  have hnothing : Raised e e ∧ ((e.upperAt p).isSome = true →
      (.ok () : Except NtStatus Unit) = .ok () ∧ e = e) ∧
      ((.ok () : Except NtStatus Unit) = .ok () →
        e = e ∨ (slotOf e.upper none p.dropLast).stop = .link) :=
    ⟨Raised.refl e, fun _ => ⟨rfl, rfl⟩, fun _ => .inl rfl⟩
  apply Step.Ensures.get
  dsimp only
  cases hlink : CopyUp.findLinkAbove e.config p with
  | mk stop source path =>
    cases stop with
    | none => exact hnothing
    | unreadable => exact hnothing
    | link =>
      apply Step.Ensures.ite
      · intro hsource
        obtain rfl : source = .lower := hsource
        obtain ⟨hpre, hne, hfree, hview⟩ := lowerLink_spec hlink
        have hpre' : path <+: p := hpre.trans (List.dropLast_prefix p)
        have hview := hview (isResolvablePath_above hne hpre' hres)
        refine (copyUpDirectory_raised path e (.inr hview)).mono fun r g hg => ⟨hg.raised, ?_, ?_⟩
        · intro hheld
          obtain ⟨q, rfl⟩ := hpre'
          rw [Engine.upperAt] at hfree hheld
          rw [placeAt_append, hfree, placeAt_none] at hheld
          cases hheld
        · intro hok
          right
          have hstop : (slotOf g.upper none path).stop = .link :=
            stop_of_shown_link hne (hg.holds () hok) (by rw [hg.raised.view]; exact hview)
          obtain ⟨q, hq⟩ := hpre
          rw [← hq, slotOf_append, stop_foldl_child (by rw [hstop]; decide), hstop]
      · exact fun _ => hnothing

end LayerMount
