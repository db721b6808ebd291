import LayerMount.CacheRace
import LayerMount.CompletedCreate

/-!
# What the engine's calls invalidate

A change of the upper at one place is read at that path and below it, and a whiteout at
the path beside it.  So the invalidation of the path covers the change:
`PutsAt.sameAnswersOff` and `MarkerPut.sameAnswersOff` say so for one disk step, and the
lemmas below for a call whose parent the upper holds, whatever its outcome.  A move is
two changes and has two invalidations (`moveUpperEntryOnDisk_covers`).

`SetOpaque` drops the keys of its directory alone.  Where the upper holds the directory
that is enough (`setOpaque_covers`); where it does not, the call also makes the missing
ancestors, and their keys stay (`setOpaque_uncovered`).
-/

namespace LayerMount

open Lib

variable {e f g : Engine} {d p q : RelPath} {n : Name}

/-! ## The answers that a change keeps -/

/-- The change from `e` to `g`, and the invalidations after it. -/
def Engine.mutation (e g : Engine) (invalidations : List Invalidation) : Mutation :=
  ⟨e.config, g.config, invalidations⟩

/-- A lookup reads the same of both states, but for `p` and what is below it. -/
def SameAnswersOff (e g : Engine) (p : RelPath) : Prop :=
  ∀ key, ¬p <+: key → answerAt g.config key = answerAt e.config key

theorem SameAlong.answerAt {key : RelPath} (h : SameAlong id e g key) :
    answerAt g.config key = answerAt e.config key := by
  by_cases hkey : key = []
  · subst hkey
    rw [SameAlong, treeStack, treeStack, List.forall₂_cons] at h
    have hentry := h.1.same.entry
    have hattributes : (g.config.upper.get []).attributes = (e.config.upper.get []).attributes := by
      have hmap := congrArg (Option.map TreeEntry.attributes) hentry
      simp only [treeOverlay, Option.map_map, Function.comp_def, id] at hmap
      change (probeOf g.files (placeAt g.upper [])).attributes
        = (probeOf e.files (placeAt e.upper [])).attributes
      rw [placeAt_nil, placeAt_nil]
      cases hu : e.upper <;> cases hg : g.upper <;>
        simp_all [probeOf, Probe.attributes]
    refine answerAt_eq.mpr ⟨rfl, ?_⟩
    change resolveRoot g.config = resolveRoot e.config
    rw [resolveRoot, resolveRoot, hattributes]
  · exact answerAt_eq.mpr ⟨(h.isResolvablePath hkey).symm, (h.resolvePath hkey).symm⟩

theorem SameEntries.sameAnswers (h : SameEntries e g) (key : RelPath) :
    answerAt g.config key = answerAt e.config key :=
  (h.sameAlong key).answerAt

theorem Untouched.sameAnswers (h : Untouched e g) (key : RelPath) :
    answerAt g.config key = answerAt e.config key := by
  rw [h.config]

namespace SameAnswersOff

theorem of_sameAnswers (h : ∀ key, answerAt g.config key = answerAt e.config key) (p : RelPath) :
    SameAnswersOff e g p :=
  fun key _ => h key

theorem trans (h : SameAnswersOff e f p) (h' : SameAnswersOff f g p) : SameAnswersOff e g p :=
  fun key hkey => (h' key hkey).trans (h key hkey)

theorem untouched (h : SameAnswersOff e f p) (hg : Untouched f g) : SameAnswersOff e g p :=
  h.trans (.of_sameAnswers hg.sameAnswers p)

/-- The invalidation of `p` covers what the change changes. -/
theorem covers (h : SameAnswersOff e g p) (hp : p ≠ []) (withAncestors : Bool) :
    (e.mutation g [⟨p, withAncestors⟩]).Covers := by
  intro key hkey
  apply h key
  intro hpre
  have hinside : key = p ∨ isInsideDirectory key p = true := by
    by_cases heq : key = p
    · exact .inl heq
    · exact .inr (by simp [isInsideDirectory, hp, hpre, heq])
  have hcovers : invalidationCovers p withAncestors key = true := by
    rcases hinside with heq | hinside
    · simp [invalidationCovers, heq]
    · simp [invalidationCovers, hinside]
  simp [Engine.mutation, covered, Invalidation.covers, hcovers] at hkey

end SameAnswersOff

theorem PutsAt.sameAnswersOff {t : Place} (h : PutsAt e g (d ++ [n]) t) (hn : PlainAt e d n) :
    SameAnswersOff e g (d ++ [n]) :=
  fun _ hkey => (h.sameAlong hn hkey).answerAt

/-- No lookup goes through the name of a marker, where no link is on the way. -/
theorem answerAt_marker (hn : isWhiteoutName n = true)
    (hlink : isInLinkTarget e.config d = false) (q : RelPath) :
    answerAt e.config (d ++ [n] ++ q) = (false, {}) := by
  have hresolvable := isResolvablePath_whiteout (e := e) hn hlink q
  have hne : (d ++ [n] ++ q).isEmpty = false := by simp
  have hsteps := resolvePathInternal_steps e.config kMaxRedirectDepth (d ++ [n] ++ q) {}
  simp only [hne, hresolvable, Bool.not_false, Bool.false_eq_true, if_false, if_true] at hsteps
  rw [answerAt, hresolvable]
  exact congrArg (Prod.mk false) (congrArg Prod.fst hsteps)

theorem MarkerPut.sameAnswersOff {t : Place} (h : MarkerPut f g d n t) :
    SameAnswersOff f g (d ++ [n]) := by
  intro key hkey
  by_cases hmarker : d ++ [whiteoutName n] <+: key
  · obtain ⟨q, rfl⟩ := hmarker
    rw [answerAt_marker (by simp) h.still_unlinked, answerAt_marker (by simp) h.unlinked]
  · exact (SameAlong.of_put (unread_of_whiteout h.plain hkey hmarker) h.puts.lowers h.puts.files
      h.puts.upper).answerAt

/-! ## Several changes -/

theorem covered_append (is js : List Invalidation) (key : RelPath) :
    covered (is ++ js) key = (covered is key || covered js key) := by
  simp only [covered, List.any_append]

theorem covers_append {is js : List Invalidation} (h : (e.mutation f is).Covers)
    (h' : (f.mutation g js).Covers) : (e.mutation g (is ++ js)).Covers := by
  intro key hkey
  simp only [Engine.mutation, covered_append, Bool.or_eq_false_iff] at hkey
  exact (h' key hkey.2).trans (h key hkey.1)

/-! ## The engine's disk steps -/

/-- A name that resolves is no marker's, but below a link. -/
theorem plain_of_resolvable (hres : isResolvablePath e.config (d ++ [n]) = true)
    (hlink : isInLinkTarget e.config d = false) : isWhiteoutName n = false := by
  by_contra hn
  rw [Bool.not_eq_false] at hn
  have hnot := isResolvablePath_whiteout (e := e) hn hlink []
  rw [List.append_nil, hres] at hnot
  cases hnot

/-- A new entry of the upper. -/
theorem placeEntry_keepsAnswers (hn : PlainAt e d n) (t : Tree) :
    (placeEntry (d ++ [n]) t).Ensures e fun _ g => SameAnswersOff e g (d ++ [n]) := by
  refine (placeEntry_ensures (d ++ [n]) t e).mono fun r g hg => ?_
  cases r with
  | ok _ => exact hg.2.2.sameAnswersOff hn
  | error _ => exact .of_sameAnswers hg.sameAnswers _

theorem createWhiteout_keepsAnswers (hres : isResolvablePath e.config (d ++ [n]) = true)
    (hheld : ParentHeld e (d ++ [n])) :
    (WhiteoutManager.createWhiteout (d ++ [n])).Ensures e fun _ g =>
      SameAnswersOff e g (d ++ [n]) := by
  refine (createWhiteout_held hheld).mono fun r g hg => ?_
  cases r with
  | error _ => exact .of_sameAnswers hg.sameAnswers _
  | ok _ =>
    obtain ⟨hlink, -, hputs⟩ := hg
    rw [List.dropLast_concat] at hlink
    rw [getWhiteoutFileName_append] at hputs
    have hmarker : MarkerPut e g d n _ := ⟨hputs, plain_of_resolvable hres hlink, hlink⟩
    exact hmarker.sameAnswersOff

theorem removeWhiteout_keepsAnswers (hres : isResolvablePath e.config (d ++ [n]) = true)
    (hheld : ParentHeld e (d ++ [n])) :
    (WhiteoutManager.removeWhiteout (d ++ [n])).Ensures e fun _ g =>
      SameAnswersOff e g (d ++ [n]) := by
  refine (removeWhiteout_ensures d n e).mono fun r g hg => ?_
  cases r with
  | error _ => exact .of_sameAnswers hg.sameAnswers _
  | ok _ =>
    rcases hg with ⟨hg, -⟩ | ⟨hstop, hputs⟩
    · exact .of_sameAnswers hg.sameAnswers _
    · have hlink := isInLinkTarget_of_held hheld hstop
      have hmarker : MarkerPut e g d n _ := ⟨hputs, plain_of_resolvable hres hlink, hlink⟩
      exact hmarker.sameAnswersOff

/-! ## Whole calls -/

/-- `UpperEntryRemover::Remove` of an entry that the upper holds, with its one
invalidation, also when it fails half way. -/
theorem remove_covers {t : Tree} (hres : isResolvablePath e.config (d ++ [n]) = true)
    (ht : e.upperAt (d ++ [n]) = some t) (withAncestors : Bool) :
    (UpperEntryRemover.remove (d ++ [n])).Ensures e fun _ g =>
      (e.mutation g [⟨d ++ [n], withAncestors⟩]).Covers := by
  obtain ⟨hplain, hlead⟩ := plainAt_of_held hres (by rw [ht]; rfl)
  suffices hsame : (UpperEntryRemover.remove (d ++ [n])).Ensures e fun _ g =>
      SameAnswersOff e g (d ++ [n]) from
    hsame.mono fun _ _ h => h.covers (by simp) withAncestors
  refine Step.Ensures.bind (lookup_ensures (d ++ [n]) e) ?_ fun _ _ hf => by cases hf.1
  rintro _ f ⟨-, hf⟩
  apply Step.Ensures.get
  rw [hf.upperAt, ht]
  have hlead' : leadsToDirectory (f.upperAt d) = true := by rw [hf.upperAt, hlead]
  have hremoved := removeShownUpperEntry_ensures ((hf.upperAt (d ++ [n])).trans ht)
    fun k t' hk => hk.upperAt hlead' hplain.1
  have hkept : (removeShownUpperEntry (d ++ [n]) t).Ensures f fun r f' =>
      SameAnswersOff e f' (d ++ [n]) ∧ (r = .ok () → PutsAt e f' (d ++ [n]) none) := by
    refine hremoved.mono fun r f' hf' => ?_
    cases r with
    | ok _ =>
      have hputs := hf.toUntouched.puts hf'.2
      exact ⟨hputs.sameAnswersOff hplain, fun _ => hputs⟩
    | error _ => exact ⟨(hf.toUntouched.puts hf'.2).sameAnswersOff hplain, fun h => by cases h⟩
  refine Step.Ensures.bind (invalidatingOnFailure_ensures hkept ?_) ?_ fun _ _ h => h.1
  · exact fun _ _ _ h hg => ⟨h.1.untouched hg.toUntouched, fun h => by cases h⟩
  · intro _ f' hf'
    have hputs := hf'.2 rfl
    refine removeTail_ensures (fun _ => ?_) (fun _ => hf'.1) fun _ _ _ h hg =>
      h.untouched hg.toUntouched
    have hres' := (hputs.isResolvablePath hplain).trans hres
    exact (createWhiteout_keepsAnswers hres' (parentHeld_of_leads hlead hputs)).mono fun _ _ h =>
      hf'.1.trans h

/-- `SetOpaque` of a directory that the upper holds drops its keys alone, which is enough. -/
theorem setOpaque_covers {t : Tree} (hn : PlainAt e d n) (ht : e.upperAt (d ++ [n]) = some t) :
    (WhiteoutManager.setOpaque (d ++ [n])).Ensures e fun _ g =>
      (e.mutation g [⟨d ++ [n], false⟩]).Covers := by
  refine (setOpaque_held ht).mono fun r g hg => ?_
  cases r with
  | ok _ => exact (hg.sameAnswersOff hn).covers (by simp) false
  | error _ => exact (SameAnswersOff.of_sameAnswers hg.sameAnswers _).covers (by simp) false

/-- The move of a rename takes an entry from one path and puts it at another. -/
theorem moveUpperEntryOnDisk_covers {c : RelPath} {m : Name} (hsource : PlainAt e c m)
    (htarget : PlainAt e d n) (replace withAncestors : Bool) :
    (moveUpperEntryOnDisk (c ++ [m]) (d ++ [n]) replace).Ensures e fun _ g =>
      (e.mutation g [⟨c ++ [m], withAncestors⟩, ⟨d ++ [n], withAncestors⟩]).Covers := by
  have hsame : ∀ g, Untouched e g →
      (e.mutation g [⟨c ++ [m], withAncestors⟩, ⟨d ++ [n], withAncestors⟩]).Covers :=
    fun g hg key _ => hg.sameAnswers key
  refine Step.Ensures.bind (diskStep_ensures .move e) ?_ fun _ g hg => hsame g hg
  intro _ f hf
  apply Step.Ensures.get
  cases ht : f.upperAt (c ++ [m]) with
  | none => exact hsame f hf
  | some t =>
    have hmove : ¬c ++ [m] <+: d ++ [n] → (Op.modify fun e =>
        (e.putUpper (c ++ [m]) none).putUpper (d ++ [n]) (some t)).Ensures f fun _ g =>
          (e.mutation g [⟨c ++ [m], withAncestors⟩, ⟨d ++ [n], withAncestors⟩]).Covers := by
      intro hnot
      have htaken := hf.puts (putUpper_puts f (c ++ [m]) none)
      have hparent : SameAlong id e (f.putUpper (c ++ [m]) none) d :=
        htaken.sameAlong hsource fun hpre => hnot (hpre.trans (List.prefix_append d [n]))
      have hplain : PlainAt (f.putUpper (c ++ [m]) none) d n := by
        refine ⟨htarget.1, htarget.2.imp_right fun hstop => ?_⟩
        rw [hparent.agreeAlong.slotOf_stop, hstop]
      have hplaced := putUpper_puts (f.putUpper (c ++ [m]) none) (d ++ [n]) (some t)
      exact covers_append ((htaken.sameAnswersOff hsource).covers (by simp) withAncestors)
        ((hplaced.sameAnswersOff hplain).covers (by simp) withAncestors)
    refine Step.Ensures.ite (fun _ => hsame f hf) fun hne => ?_
    refine Step.Ensures.ite (fun _ => hsame f hf) fun hinside => ?_
    refine Step.Ensures.ite (fun _ => hsame f hf) fun _ => ?_
    have hnot : ¬c ++ [m] <+: d ++ [n] := by
      intro hpre
      simp [isInsideDirectory, hpre, Ne.symm hne] at hinside
    split
    · exact hmove hnot
    · refine Step.Ensures.ite (fun _ => hsame f hf) fun _ => ?_
      exact Step.Ensures.ite (fun _ => hsame f hf) fun _ => hmove hnot

/-! ## Two runs that leave a stale entry -/

/-- Thread 1 deletes `a` and invalidates while thread 0 carries its answer for `a`. -/
def loneOvertaking : Calls :=
  { loneProbed with layers := loneUpper false }.goOn 1
    (.changed deleteLone deleteLone.invalidations 3)

def loneOvertaken : Calls :=
  { loneOvertaking with cache := loneProbed.cache.invalidateWithAncestors [['a']] }.goOn 1
    (.changed deleteLone [] 3)

/-- The put comes after the last invalidation. -/
theorem lonePut_late : ∃ s', Relation.ReflTransGen
      (fun s s' => ∃ t, CallStep s t s' ∧ s'.Covering t) loneCalls s' ∧ s'.Quiet ∧
    ⟨[['a']], loneAnswer, 0⟩ ∈ s'.cache.entries ∧ s'.layers = loneUpper false := by
  have hprobed : Relation.ReflTransGen (fun s s' => ∃ t, CallStep s t s' ∧ s'.Covering t)
      loneCalls loneProbed :=
    Relation.ReflTransGen.mono (fun _ _ h => h.imp fun _ ht => ⟨ht.1, ht.2.2⟩) _ _
      loneProbed_reached
  have hchange := CallStep.change (s := loneProbed) (t := 1) deleteLone rfl rfl
  have hinvalidate := @CallStep.invalidate loneOvertaking 1 deleteLone { path := [['a']] } [] 3 rfl
  have hfinish := @CallStep.finish loneOvertaken 1 deleteLone 3 rfl
  have hput := @CallStep.put (loneOvertaken.goOn 1 .idle) 0 [['a']] loneAnswer 1 2 rfl
  have hdeleted := (hprobed.tail ⟨1, hchange, covering_deleteLone rfl⟩).tail
    ⟨1, hinvalidate, covering_deleteLone rfl⟩
  refine ⟨_, (hdeleted.tail ⟨1, hfinish, nofun⟩).tail ⟨0, hput, nofun⟩, ?_,
    List.mem_cons_self .., rfl⟩
  intro t
  by_cases h0 : t = 0
  · subst h0
    rfl
  · by_cases h1 : t = 1
    · subst h1
      rfl
    · simp [Calls.goOn, loneOvertaken, loneOvertaking, loneProbed, loneCalls, h0, h1]

/-- The directory `a\\b` of a lower, under an empty upper. -/
def lowerDirectory : Engine where
  upper := some (.node {} [])
  lowers := [some (.node {} [(['a'], .node {} [(['b'], .node {} [])])])]
  files := []

/-- `SetOpaque` of `a\\b`, which makes `a` in the upper too. -/
def setLowerOpaque : Mutation :=
  lowerDirectory.mutation (WhiteoutManager.setOpaque [['a'], ['b']] lowerDirectory).2
    [⟨[['a'], ['b']], false⟩]

theorem setOpaque_uncovered : ¬setLowerOpaque.Covers := by
  intro h
  have hkept := h [['a']] (by decide)
  exact absurd hkept (by decide +kernel)

/-- The cache holds the current answer for `a`, and no call runs. -/
def lowerCached : Calls :=
  ⟨lowerDirectory.config, { entries := [⟨[['a']], uncached lowerDirectory.config [['a']], 0⟩] },
    fun _ => .idle, 0⟩

/-- `SetOpaque` has made the directories and dropped its keys. -/
def lowerMarking : Calls :=
  { lowerCached with layers := setLowerOpaque.after }.goOn 0
    (.changed setLowerOpaque setLowerOpaque.invalidations 0)

def lowerInvalidated : Calls :=
  { lowerMarking with cache := lowerCached.cache.invalidate [['a'], ['b']] }.goOn 0
    (.changed setLowerOpaque [] 0)

theorem lowerCached_current : lowerCached.CacheCurrent := by
  intro entry hentry
  rw [List.mem_singleton.mp hentry]
  rfl

theorem call_lowerCached (t : Nat) : lowerCached.call t = .idle := rfl

theorem lowerMarked_reached :
    Relation.ReflTransGen (fun s s' => CallStep s 0 s' ∧ s.NotOvertaking 0) lowerCached
      (lowerInvalidated.goOn 0 .idle) := by
  have hquiet : ∀ {s : Calls} {m : Mutation} {left : List Invalidation},
      s.call 0 = .changed m left 0 → (∀ t, t ≠ 0 → s.call t = .idle) → s.NotOvertaking 0 := by
    intro s m left hcall hidle m' i left' j _ t' hread
    by_cases h0 : t' = 0
    · subst h0
      rw [hcall] at hread
      exact hread
    · rw [hidle t' h0] at hread
      exact hread
  have hmarking : ∀ t, t ≠ 0 → lowerMarking.call t = .idle := by
    intro t ht
    simp [Calls.goOn, lowerMarking, lowerCached, ht]
  have hinvalidated : ∀ t, t ≠ 0 → lowerInvalidated.call t = .idle := by
    intro t ht
    simpa [Calls.goOn, lowerInvalidated, ht] using hmarking t ht
  have hchange := CallStep.change (s := lowerCached) (t := 0) setLowerOpaque rfl rfl
  have hidle : lowerCached.NotOvertaking 0 := by
    intro m i left changedAt hcall
    rw [call_lowerCached] at hcall
    cases hcall
  have hinvalidate := @CallStep.invalidate lowerMarking 0 setLowerOpaque
    ⟨[['a'], ['b']], false⟩ [] 0 rfl
  have hfinish := @CallStep.finish lowerInvalidated 0 setLowerOpaque 0 rfl
  exact ((Relation.ReflTransGen.refl.tail ⟨hchange, hidle⟩).tail
    ⟨hinvalidate, hquiet rfl hmarking⟩).tail ⟨hfinish, hquiet rfl hinvalidated⟩

/-- The cache may be stale after every call, in a run whose changes are all covered by their
invalidations, and in a run of one thread in which no invalidation overtakes a lookup. -/
theorem stale_after_all_calls :
    (¬∀ s s' : Calls, s.Quiet → s.CacheCurrent →
      Relation.ReflTransGen (fun s s' => ∃ t, CallStep s t s' ∧ s'.Covering t) s s' → s'.Quiet →
      s'.CacheCurrent) ∧
    ¬∀ s s' : Calls, s.Quiet → s.CacheCurrent →
      Relation.ReflTransGen (fun s s' => CallStep s 0 s' ∧ s.NotOvertaking 0) s s' → s'.Quiet →
      s'.CacheCurrent := by
  constructor
  · -- a lookup probes, a delete changes the upper and invalidates, and the lookup puts
    intro hall
    obtain ⟨s', hrun, hquiet, hmem, hlayers⟩ := lonePut_late
    have hstale := hall loneCalls s' (fun _ => rfl) (fun e he => by cases he) hrun hquiet _ hmem
    have hgone : (uncached (loneUpper false) [['a']]).found = false := by decide
    rw [hlayers] at hstale
    rw [← hstale] at hgone
    cases hgone
  · intro hall
    have hquiet : (lowerInvalidated.goOn 0 .idle).Quiet := by
      intro t
      simp [Calls.goOn, lowerInvalidated, lowerMarking, lowerCached]
    have hstale := hall lowerCached _ (fun _ => rfl) lowerCached_current lowerMarked_reached hquiet
      ⟨[['a']], uncached lowerDirectory.config [['a']], 0⟩ (by decide +kernel)
    exact absurd hstale (by decide +kernel)

end LayerMount
