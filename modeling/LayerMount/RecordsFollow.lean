import LayerMount.SidecarWalks
import Mathlib.Data.List.TakeWhile

/-!
# Whether the records follow their entry

`records_follow_iff` compares a whole call of `MoveUpperEntry` with what it is for.  It fails
in three kinds of run: the host loses a record, `RecordLost`, or a walk cannot read what the
moved directory is and passes over what is below it, `SkippedAtOnce` and `SkippedAgain`.
-/

namespace LayerMount.Sidecar

open LayerMount.Lib

/-! ## The whole call -/

section Calls

variable (answers : HostAnswers) (source target : RelPath) (t : UpperTree) (files : RecordFiles)

/-- Both record files of the entry at `e` can move in the first walk. -/
def recordsMove (e : RelPath) : Bool :=
  (answers.records (source ++ e)).accepts files (source ++ e)

/-- The first entry that the first walk meets whose records cannot move. -/
def stopsAt : Option RelPath :=
  (movedEntries answers.listing target answers.readsKind t.entries).find? fun e =>
    !recordsMove answers source files e

/-- The entries that it meets before. -/
def movedFirst : List RelPath :=
  (movedEntries answers.listing target answers.readsKind t.entries).takeWhile
    (recordsMove answers source files)

/-- The records that the entries have at their old keys after the undo. -/
def keptRecords : RecordFiles :=
  match stopsAt answers source target t files with
  | none => files
  | some e =>
    if (answers.records (source ++ e)).losesRecord files (source ++ e) then
      Function.update files ⟨source ++ e, .metaJson⟩ none
    else files

/-- The first walk has moved a file, or an absent one, to the new key of the entry at `e`. -/
def writesTarget (e : RelPath) (x : RecordSuffix) : Bool :=
  decide (e ∈ movedFirst answers source target t files) ||
    (decide (stopsAt answers source target t files = some e ∧ x = .metaJson) &&
      (answers.records (source ++ e)).record.accepts (files ⟨source ++ e, .metaJson⟩).isSome)

/-- The record file at the new key of the entry at `e` after the undo. -/
def leftAtTarget (e : RelPath) (x : RecordSuffix) : Option (List UInt8) :=
  if writesTarget answers source target t files e x then
    if stopsAt answers source target t files = some e ∧
        (answers.records (source ++ e)).losesRecord files (source ++ e) = true then
      files ⟨source ++ e, .metaJson⟩
    else none
  else files ⟨target ++ e, x⟩

end Calls

section Undo

variable {config : StoreConfig} {answers : HostAnswers} {source target : RelPath}
  {t : UpperTree} {files : RecordFiles}

/-- `MoveSidecarRecords` moves the records of every entry that it meets, or stops. -/
theorem moveSidecarRecords_cases (hconfig : config.hasAds = false) (hapart : Apart source target)
    (r : Option NtStatus × RecordWalk)
    (hr : r = moveSidecarRecords config answers source target t.entries files) :
    (stopsAt answers source target t files = none ∧
        r.1 = firstUnlisted (movedEvents answers.listing target answers.readsKind t.entries) ∧
        movedFirst answers source target t files =
          movedEntries answers.listing target answers.readsKind t.entries ∧
        MovedAll source target files (movedFirst answers source target t files) r.2) ∨
      ∃ e, stopsAt answers source target t files = some e ∧ r.1 ≠ none ∧
        e ∈ movedEntries answers.listing target answers.readsKind t.entries ∧
        e ∉ movedFirst answers source target t files ∧
        recordsMove answers source files e = false ∧
        StoppedAt answers.records source target files (movedFirst answers source target t files)
          e r.2 := by
  have huse : useSidecarFor (some config) = true := by simp [useSidecarFor, hconfig]
  unfold moveSidecarRecords at hr
  rw [huse, Bool.not_true, if_neg Bool.false_ne_true,
    forEachMovedEntry_eq _ _ _ _ _ _ _ _ rfl] at hr
  have hstart : MovedAll source target files [] { files } :=
    ⟨(Followed.nothing files).congr (by simp), rfl⟩
  have hnodup := nodup_movedEntries answers.listing target answers.readsKind t
  have hcases := along_visitMovedRecord answers.records hapart
    (movedEvents answers.listing target answers.readsKind t.entries) { state := { files } } rfl
    hstart hnodup _ rfl
  subst hr
  rw [List.nil_append] at hcases
  rcases hcases with ⟨hall, hresult, hmoved⟩ | ⟨met, e, rest, hvisits, hall, he, hfails, hstop⟩
  · have hfirst : movedFirst answers source target t files =
        movedEntries answers.listing target answers.readsKind t.entries := by
      apply List.takeWhile_eq_self_iff.mpr
      intro x hx
      exact hall x hx
    refine Or.inl ⟨?_, by simpa using hresult, hfirst, by rw [hfirst]; exact hmoved⟩
    apply List.find?_eq_none.mpr
    intro x hx
    simp [recordsMove, hall x hx]
  · have hmet : ∀ x ∈ met, recordsMove answers source files x = true := hall
    have hfirst : movedFirst answers source target t files = met := by
      unfold movedFirst movedEntries
      rw [hvisits, List.takeWhile_append_of_pos hmet, List.takeWhile_cons_of_neg, List.append_nil]
      simp [recordsMove, he]
    have hnot : e ∉ met := by
      unfold movedEntries at hnodup
      rw [hvisits] at hnodup
      intro hmem
      exact (List.nodup_append.mp hnodup).2.2 e hmem e (by simp) rfl
    refine Or.inr ⟨e, ?_, hfails, ?_, by rwa [hfirst], he, by simpa [hfirst] using hstop⟩
    · unfold stopsAt movedEntries
      rw [hvisits, List.find?_append]
      have hnone : met.find? (fun e => !recordsMove answers source files e) = none := by
        apply List.find?_eq_none.mpr
        intro x hx
        simp [hmet x hx]
      rw [hnone]
      simp [recordsMove, he]
    · unfold movedEntries
      rw [hvisits]
      simp

/-- `MoveSidecarRecordsBack` moves back the records of every entry, or ends with an error. -/
theorem moveSidecarRecordsBack_cases (hapart : Apart source target) {entries : List RelPath}
    (hnodup : entries.Nodup) (r : Option NtStatus × RecordFiles)
    (hr : r = moveSidecarRecordsBack answers (entries.map (movedRecord source target)) files) :
    ((∀ e ∈ entries, (answers.recordsBack (source ++ e)).accepts files (target ++ e) = true) ∧
        r.1 = none ∧ Followed target source (· ∈ entries) files r.2) ∨
      ((∃ e ∈ entries, (answers.recordsBack (source ++ e)).accepts files (target ++ e) = false) ∧
        r.1 ≠ none) := by
  have hcases := (keepsFirstError_moveRecordBack answers.recordsBack hapart).foldl_cases
    hapart.symm entries.reverse { files } rfl
    ((Followed.nothing files).congr (F := (· ∈ [])) (by simp))
    (by simpa using (List.reverse_perm entries).nodup_iff.mpr hnodup)
  have hfold : ∀ s : StuckWalk, (entries.map (movedRecord source target)).reverse.foldl
      (moveRecordBack answers.recordsBack) s = entries.reverse.foldl
      (fun s e => moveRecordBack answers.recordsBack s (movedRecord source target e)) s := by
    intro s
    rw [← List.map_reverse, List.foldl_map]
  unfold moveSidecarRecordsBack at hr
  dsimp only at hr
  rw [hfold] at hr
  subst hr
  simp only [List.mem_reverse, List.nil_append] at hcases
  exact hcases

theorem accepts_congr {answers : MoveAnswers} {files files' : RecordFiles} {p q : RelPath}
    (h : ∀ x, files ⟨p, x⟩ = files' ⟨q, x⟩) :
    answers.accepts files p = answers.accepts files' q := by
  unfold MoveAnswers.accepts
  rw [h, h]

theorem losesRecord_congr {answers : MoveAnswers} {files files' : RecordFiles} {p : RelPath}
    (h : ∀ x, files ⟨p, x⟩ = files' ⟨p, x⟩) :
    answers.losesRecord files p = answers.losesRecord files' p := by
  unfold MoveAnswers.losesRecord
  rw [h, h]

/-- What the first walk leaves at the keys of the entries that it moved, and at those that the
undo does not write. -/
structure Walked (answers : HostAnswers) (source target : RelPath) (t : UpperTree)
    (files : RecordFiles) (w : RecordWalk) : Prop where
  moved : w.moved = (movedFirst answers source target t files).map (movedRecord source target)
  arrived : ∀ e ∈ movedFirst answers source target t files, ∀ x,
    w.files ⟨target ++ e, x⟩ = files ⟨source ++ e, x⟩
  kept : ∀ k : RecordFile, (∀ e, t.Holds e → k.base ≠ target ++ e) →
    (∀ e ∈ movedFirst answers source target t files, k.base ≠ source ++ e) →
    w.files k = keptRecords answers source target t files k
  left : ∀ e, e ∉ movedFirst answers source target t files → ∀ x,
    w.files ⟨target ++ e, x⟩ = leftAtTarget answers source target t files e x

theorem walked_of_movedAll (hapart : Apart source target) {w : RecordWalk}
    (hstops : stopsAt answers source target t files = none)
    (h : MovedAll source target files (movedFirst answers source target t files) w) :
    Walked answers source target t files w where
  moved := h.moved
  arrived := h.followed.arrived
  kept k htarget hsource := by
    unfold keptRecords
    rw [hstops]
    apply h.followed.kept
    intro e he
    exact ⟨hsource e he, htarget e (holds_of_mem_movedEntries (List.takeWhile_subset _ he))⟩
  left e he x := by
    have hwrites : writesTarget answers source target t files e x = false := by
      simp [writesTarget, he, hstops]
    unfold leftAtTarget
    rw [hwrites, if_neg Bool.false_ne_true]
    exact h.followed.target_kept hapart he x

theorem walked_of_stoppedAt (hapart : Apart source target) {w : RecordWalk} {e : RelPath}
    (hstops : stopsAt answers source target t files = some e) (hheld : t.Holds e)
    (hnot : e ∉ movedFirst answers source target t files)
    (hrefused : recordsMove answers source files e = false)
    (h : StoppedAt answers.records source target files
      (movedFirst answers source target t files) e w) :
    Walked answers source target t files w := by
  obtain ⟨middle, hfollowed, hfiles⟩ := h.files
  have hacc : (answers.records (source ++ e)).accepts middle (source ++ e) = false := by
    rw [hfollowed.accepts_iff hapart hnot]
    exact hrefused
  obtain ⟨-, hframe, hold, hnew⟩ := move_refused hapart hacc
  have hkept : ∀ x, middle ⟨source ++ e, x⟩ = files ⟨source ++ e, x⟩ :=
    hfollowed.source_kept hapart hnot
  rw [← hfiles, losesRecord_congr hkept, hkept] at hold hnew
  rw [← hfiles] at hframe
  refine ⟨h.moved, ?_, ?_, ?_⟩
  · intro a ha x
    rw [hframe, hfollowed.arrived a ha x]
    · exact ne_of_base_ne (hapart.ne e a).symm
    · apply ne_of_base_ne
      intro heq
      obtain rfl : a = e := by simpa using heq
      exact hnot ha
  · intro k htarget hsource
    unfold keptRecords
    rw [hstops]
    dsimp only
    by_cases hk : k = ⟨source ++ e, .metaJson⟩
    · subst hk
      rw [hold]
      split <;> simp
    · rw [hframe k hk (ne_of_base_ne (htarget e hheld)), hfollowed.kept]
      · split <;> simp [hk]
      · intro a ha
        exact ⟨hsource a ha, htarget a (holds_of_mem_movedEntries (List.takeWhile_subset _ ha))⟩
  · intro a ha x
    unfold leftAtTarget writesTarget
    by_cases hk : (⟨target ++ a, x⟩ : RecordFile) = ⟨target ++ e, .metaJson⟩
    · obtain ⟨rfl, rfl⟩ : a = e ∧ x = .metaJson := by simpa using hk
      rw [hnew, hfollowed.target_kept hapart hnot]
      simp [hnot, hstops]
    · rw [hframe _ (ne_of_base_ne (hapart.ne e a).symm) hk, hfollowed.target_kept hapart ha]
      have hother : ¬ (stopsAt answers source target t files = some a ∧ x = .metaJson) := by
        rintro ⟨hstop, rfl⟩
        rw [hstops] at hstop
        cases hstop
        exact hk rfl
      simp [ha, hother]

theorem walked_records (hconfig : config.hasAds = false) (hapart : Apart source target)
    (w : RecordWalk)
    (hw : w = (moveSidecarRecords config answers source target t.entries files).2) :
    Walked answers source target t files w := by
  subst hw
  rcases moveSidecarRecords_cases hconfig hapart _ rfl with
    ⟨hstops, -, -, hmoved⟩ | ⟨e, hstops, -, hmem, hnot, hrefused, hstop⟩
  · exact walked_of_movedAll hapart hstops hmoved
  · exact walked_of_stoppedAt hapart hstops (holds_of_mem_movedEntries hmem) hnot hrefused hstop

theorem holds_of_stopsAt {e : RelPath} (h : stopsAt answers source target t files = some e) :
    t.Holds e :=
  holds_of_mem_movedEntries (List.mem_of_find?_eq_some h)

theorem stopsAt_ne_of_mem_movedFirst {e : RelPath}
    (he : e ∈ movedFirst answers source target t files) :
    stopsAt answers source target t files ≠ some e := by
  intro hstops
  have hmoves : recordsMove answers source files e = true := List.mem_takeWhile_imp he
  have hrefused : recordsMove answers source files e = false := by
    simpa using List.find?_some hstops
  rw [hmoves] at hrefused
  cases hrefused

/-- Only the lost record is missing at an old key after the undo. -/
theorem keptRecords_below (e : RelPath) (x : RecordSuffix) :
    keptRecords answers source target t files ⟨source ++ e, x⟩ =
      if stopsAt answers source target t files = some e ∧
          (answers.records (source ++ e)).losesRecord files (source ++ e) = true ∧
          x = .metaJson then none
      else files ⟨source ++ e, x⟩ := by
  unfold keptRecords
  cases hstops : stopsAt answers source target t files with
  | none => simp
  | some a =>
    dsimp only
    by_cases hae : a = e
    · subst hae
      cases x <;> split <;> simp_all
    · have hne : (⟨source ++ e, x⟩ : RecordFile) ≠ ⟨source ++ a, .metaJson⟩ := by
        apply ne_of_base_ne
        intro heq
        exact hae (by simpa using heq.symm)
      split <;> simp [hne, hae]

theorem keptRecords_of_mem_movedFirst {e : RelPath} {x : RecordSuffix}
    (he : e ∈ movedFirst answers source target t files) :
    keptRecords answers source target t files ⟨source ++ e, x⟩ = files ⟨source ++ e, x⟩ := by
  rw [keptRecords_below, if_neg]
  intro h
  exact stopsAt_ne_of_mem_movedFirst he h.1

theorem leftAtTarget_of_mem_movedFirst {e : RelPath} {x : RecordSuffix}
    (he : e ∈ movedFirst answers source target t files) :
    leftAtTarget answers source target t files e x = none := by
  simp [leftAtTarget, writesTarget, he, stopsAt_ne_of_mem_movedFirst he]

theorem keptRecords_eq_none_iff {e : RelPath} {x : RecordSuffix} :
    keptRecords answers source target t files ⟨source ++ e, x⟩ = none ↔
      files ⟨source ++ e, x⟩ = none ∨ (stopsAt answers source target t files = some e ∧
        (answers.records (source ++ e)).losesRecord files (source ++ e) = true ∧
        x = .metaJson) := by
  rw [keptRecords_below]
  split
  · rename_i h
    exact ⟨fun _ => .inr h, fun _ => rfl⟩
  · rename_i h
    exact ⟨.inl, fun h' => h'.resolve_right h⟩

theorem keptRecords_of_base_ne {k : RecordFile} (h : ∀ e, t.Holds e → k.base ≠ source ++ e) :
    keptRecords answers source target t files k = files k := by
  unfold keptRecords
  cases hstops : stopsAt answers source target t files with
  | none => rfl
  | some e =>
    dsimp only
    split
    · exact Function.update_of_ne (ne_of_base_ne (h e (holds_of_stopsAt hstops))) _ _
    · rfl

/-- An entry with no record at its old key has its own at the new key, unless a file there is
not replaced. -/
theorem leftAtTarget_eq_iff {e : RelPath} {x : RecordSuffix}
    (h : keptRecords answers source target t files ⟨source ++ e, x⟩ = none) :
    leftAtTarget answers source target t files e x = files ⟨source ++ e, x⟩ ↔
      (files ⟨target ++ e, x⟩ = none ∨ writesTarget answers source target t files e x = true) := by
  rcases keptRecords_eq_none_iff.mp h with habsent | ⟨hstops, hloses, rfl⟩
  · rw [habsent]
    unfold leftAtTarget
    cases hwrites : writesTarget answers source target t files e x with
    | false => simp
    | true =>
      simp only [if_true, or_true, iff_true]
      split
      · rename_i hlost
        -- the entry that stops the walk was written at the key of its record only
        have hx : x = .metaJson := by
          by_contra hx
          have hmem : e ∉ movedFirst answers source target t files := fun he =>
            stopsAt_ne_of_mem_movedFirst he hlost.1
          simp [writesTarget, hmem, hx] at hwrites
        rw [← hx]
        exact habsent
      · rfl
  · have haccepts : (answers.records (source ++ e)).record.accepts
        (files ⟨source ++ e, .metaJson⟩).isSome = true := by
      simp only [MoveAnswers.losesRecord, Bool.and_eq_true] at hloses
      rw [hloses.1.1.1]
      exact hloses.1.1.2
    have hwrites : writesTarget answers source target t files e .metaJson = true := by
      simp [writesTarget, hstops, haccepts]
    simp [leftAtTarget, hwrites, hstops, hloses]

/-- The undo gives the records back, but for one that the first walk lost, and takes its own
from the new keys. -/
theorem undo_records (hconfig : config.hasAds = false) (hapart : Apart source target)
    (w : RecordWalk) (hw : w = (moveSidecarRecords config answers source target t.entries files).2)
    (b : Option NtStatus × RecordFiles) (hb : b = moveSidecarRecordsBack answers w.moved w.files) :
    (b.1 = none ↔ ∀ e ∈ movedFirst answers source target t files,
        (answers.recordsBack (source ++ e)).accepts files (source ++ e) = true) ∧
      (b.1 = none → (∀ k : RecordFile, (∀ e, t.Holds e → k.base ≠ target ++ e) →
          b.2 k = keptRecords answers source target t files k) ∧
        ∀ e x, b.2 ⟨target ++ e, x⟩ = leftAtTarget answers source target t files e x) := by
  have hwalked := walked_records hconfig hapart w hw
  have hnodup : (movedFirst answers source target t files).Nodup :=
    (List.takeWhile_sublist _).nodup (nodup_movedEntries answers.listing target _ t)
  have haccepts : ∀ e ∈ movedFirst answers source target t files,
      (answers.recordsBack (source ++ e)).accepts w.files (target ++ e) =
        (answers.recordsBack (source ++ e)).accepts files (source ++ e) := by
    intro e he
    exact accepts_congr (hwalked.arrived e he)
  rw [hwalked.moved] at hb
  rcases moveSidecarRecordsBack_cases hapart hnodup b hb with
    ⟨hall, hnone, hback⟩ | ⟨⟨e, he, hrefused⟩, hsome⟩
  · refine ⟨⟨fun _ e he => ?_, fun _ => hnone⟩, fun _ => ⟨fun k hk => ?_, fun e x => ?_⟩⟩
    · rw [← haccepts e he]
      exact hall e he
    · by_cases hmem : ∃ e ∈ movedFirst answers source target t files, k.base = source ++ e
      · obtain ⟨e, he, hbase⟩ := hmem
        obtain ⟨base, x⟩ := k
        subst hbase
        rw [hback.arrived e he, hwalked.arrived e he, keptRecords_of_mem_movedFirst he]
      · rw [hback.kept k, hwalked.kept k hk]
        · intro e he hbase
          exact hmem ⟨e, he, hbase⟩
        · intro e he
          refine ⟨hk e (holds_of_mem_movedEntries (List.takeWhile_subset _ he)), ?_⟩
          intro hbase
          exact hmem ⟨e, he, hbase⟩
    · by_cases hmem : e ∈ movedFirst answers source target t files
      · rw [hback.gone e hmem, leftAtTarget_of_mem_movedFirst hmem]
      · rw [hback.source_kept hapart.symm hmem, hwalked.left e hmem]
  · refine ⟨⟨fun hnone => absurd hnone hsome, fun hall => ?_⟩, fun hnone => absurd hnone hsome⟩
    rw [haccepts e he, hall e he] at hrefused
    cases hrefused

/-- The second walk succeeds exactly when it lists every directory and the records of every
entry that it meets can move, and then they have moved. -/
theorem moveSidecarRecordsLeavingStuckOnes_spec (hconfig : config.hasAds = false)
    (hapart : Apart source target) (met : List RelPath)
    (hmet : met = movedEntries answers.stuckListing target answers.stuckReadsKind t.entries)
    (r : Option NtStatus × RecordFiles)
    (hr : r = moveSidecarRecordsLeavingStuckOnes config answers source target t.entries files) :
    (r.1 = none ↔
        firstUnlisted (movedEvents answers.stuckListing target answers.stuckReadsKind t.entries)
            = none ∧
          ∀ e ∈ met, (answers.stuckRecords (source ++ e)).accepts files (source ++ e) = true) ∧
      (r.1 = none → Followed source target (· ∈ met) files r.2) := by
  have huse : useSidecarFor (some config) = true := by simp [useSidecarFor, hconfig]
  unfold moveSidecarRecordsLeavingStuckOnes at hr
  rw [huse, Bool.not_true, if_neg Bool.false_ne_true,
    forEachMovedEntry_eq _ _ _ _ _ _ _ _ rfl, along_visitStuckRecord _ _ _ rfl] at hr
  have hcases := (keepsFirstError_visitStuckRecord answers.stuckRecords hapart).foldl_cases
    hapart met { files } rfl ((Followed.nothing files).congr (F := (· ∈ [])) (by simp))
    (by simpa [hmet] using nodup_movedEntries answers.stuckListing target _ t)
  simp only [Walk.result, Option.none_or] at hr
  have hvisits : visits (movedEvents answers.stuckListing target answers.stuckReadsKind t.entries)
      = met := hmet.symm
  rw [hvisits] at hr
  subst hr
  rcases hcases with ⟨hall, hnone, hfollowed⟩ | ⟨⟨e, he, hrefused⟩, hsome⟩
  · simp only [hnone, Option.none_or]
    exact ⟨⟨fun hlisted => ⟨hlisted, hall⟩, fun h => h.1⟩, fun _ => hfollowed⟩
  · refine ⟨⟨fun h => absurd h (or_ne_none_of_left hsome), fun h => ?_⟩,
      fun h => absurd h (or_ne_none_of_left hsome)⟩
    rw [h.2 e he] at hrefused
    cases hrefused

end Undo

/-! ## The contract -/

section Contract

variable (config : StoreConfig) (answers : HostAnswers) (source target : RelPath)
  (replace : ReplaceExisting) (s : UpperState) (t : UpperTree)

/-- A record cannot move, or a directory cannot be listed, and every step of the undo
succeeds. -/
structure Undone : Prop where
  moves : (moveUpperEntryOnDisk answers.onDisk source target replace s).1 = none
  fails : (moveSidecarRecords config answers source target t.entries s.files).1 ≠ none
  entryBack : answers.backOnDisk = none
  recordsBack : (moveSidecarRecordsBack answers
    (moveSidecarRecords config answers source target t.entries s.files).2.moved
    (moveSidecarRecords config answers source target t.entries s.files).2.files).1 = none
  recordBack : ∀ e, stopsAt answers source target t s.files = some e →
    (answers.records (source ++ e)).recordBack.accepts
      (s.files ⟨source ++ e, .metaJson⟩).isSome = true

/-- The records of the entry follow it, and come back with it. -/
structure RecordsFollow : Prop where
  follow : (moveUpperEntry config answers source target replace s).1 = ⟨none, none⟩ →
    Followed source target t.Holds s.files
      (moveUpperEntry config answers source target replace s).2.files
  restore : Undone config answers source target replace s t →
    (moveUpperEntry config answers source target replace s).2.entryAt source = some t ∧
      ∀ e x, (moveUpperEntry config answers source target replace s).2.files ⟨source ++ e, x⟩ =
        s.files ⟨source ++ e, x⟩

/-- The first walk moves the records of every entry that it meets. -/
structure MovedAtOnce : Prop where
  moves : (moveUpperEntryOnDisk answers.onDisk source target replace s).1 = none
  lists : firstUnlisted (movedEvents answers.listing target answers.readsKind t.entries) = none
  accepted : stopsAt answers source target t s.files = none

/-- The first walk fails, the entry cannot move back, and the second walk moves the records of
every entry that it meets. -/
structure MovedAgain : Prop where
  moves : (moveUpperEntryOnDisk answers.onDisk source target replace s).1 = none
  fails : firstUnlisted (movedEvents answers.listing target answers.readsKind t.entries) ≠ none ∨
    stopsAt answers source target t s.files ≠ none
  stays : answers.backOnDisk ≠ none
  back : ∀ a ∈ movedFirst answers source target t s.files,
    (answers.recordsBack (source ++ a)).accepts s.files (source ++ a) = true
  lists : firstUnlisted
    (movedEvents answers.stuckListing target answers.stuckReadsKind t.entries) = none
  again : ∀ a, t.Holds a → (a = [] ∨ answers.stuckReadsKind = true) →
    (answers.stuckRecords (source ++ a)).accepts
      (keptRecords answers source target t s.files) (source ++ a) = true

/-- The first walk does not enter the moved directory, as it cannot read what it is, and a
record file of `e` stays where it is. -/
structure SkippedAtOnce (e : RelPath) extends
    MovedAtOnce answers source target replace s t where
  unread : answers.readsKind = false
  held : t.Holds e
  below : e ≠ []
  stays : ∃ x, s.files ⟨source ++ e, x⟩ ≠ none ∨ s.files ⟨target ++ e, x⟩ ≠ none

/-- The record of `e` moves, its marker does not, and the record cannot move back.  Then the
entry cannot move back either, and the second walk finds no record to move. -/
structure RecordLost (e : RelPath) extends
    MovedAgain answers source target replace s t where
  stops : stopsAt answers source target t s.files = some e
  loses : (answers.records (source ++ e)).losesRecord s.files (source ++ e) = true
  meets : e = [] ∨ answers.stuckReadsKind = true

/-- The second walk does not enter the moved directory, and a record file of `e` stays where
the undo left it. -/
structure SkippedAgain (e : RelPath) extends
    MovedAgain answers source target replace s t where
  unread : answers.stuckReadsKind = false
  held : t.Holds e
  below : e ≠ []
  left : ∃ x, keptRecords answers source target t s.files ⟨source ++ e, x⟩ ≠ none ∨
    (s.files ⟨target ++ e, x⟩ ≠ none ∧ writesTarget answers source target t s.files e x = false)

variable {config answers source target replace s t}

theorem moveUpperEntryOnDisk_moved (ht : s.entryAt source = some t)
    (h : (moveUpperEntryOnDisk answers.onDisk source target replace s).1 = none) :
    moveUpperEntryOnDisk answers.onDisk source target replace s =
      (none, { s with
        entryAt := Function.update (Function.update s.entryAt target (some t)) source none }) := by
  unfold moveUpperEntryOnDisk at h ⊢
  cases hdisk : answers.onDisk with
  | some status => simp [hdisk] at h
  | none =>
    simp only [hdisk, ht] at h ⊢
    split at h
    · cases h
    · rename_i hfree
      rw [if_neg hfree]

/-- After the entry has moved, the first walk decides. -/
theorem moveUpperEntry_moved (hapart : Apart source target) (ht : s.entryAt source = some t)
    (h : (moveUpperEntryOnDisk answers.onDisk source target replace s).1 = none) (s' : UpperState)
    (hs' : s' = { s with
      entryAt := Function.update (Function.update s.entryAt target (some t)) source none }) :
    (∀ w, moveSidecarRecords config answers source target t.entries s.files = (none, w) →
      moveUpperEntry config answers source target replace s =
        (⟨none, none⟩, { s' with files := w.files })) ∧
    ∀ recordStatus w, moveSidecarRecords config answers source target t.entries s.files =
        (some recordStatus, w) →
      moveUpperEntry config answers source target replace s =
        undoMove config answers source target recordStatus w.moved
          { s' with files := w.files } := by
  have hne : target ≠ source := by
    intro heq
    exact hapart.not_above (heq ▸ List.prefix_refl _)
  have hwalked : s'.walked target = t.entries := by
    simp [hs', UpperState.walked, hne]
  have hfiles : s'.files = s.files := by rw [hs']
  unfold moveUpperEntry
  rw [moveUpperEntryOnDisk_moved ht h, ← hs']
  dsimp only
  rw [hwalked, hfiles]
  constructor
  · intro w hw
    rw [hw]
  · intro recordStatus w hw
    rw [hw]

theorem undoMove_back {recordStatus : NtStatus} {moved : List MovedSidecarRecord}
    (hback : answers.backOnDisk = none) (htarget : s.entryAt target = some t)
    (hsource : s.entryAt source = none) :
    undoMove config answers source target recordStatus moved s =
      (⟨some recordStatus, (moveSidecarRecordsBack answers moved s.files).1⟩,
        { entryAt := Function.update (Function.update s.entryAt source (some t)) target none
          files := (moveSidecarRecordsBack answers moved s.files).2 }) := by
  simp [undoMove, moveUpperEntryOnDisk, hback, htarget, hsource]

theorem undoMove_stays (recordStatus : NtStatus) {moved : List MovedSidecarRecord}
    (hback : answers.backOnDisk ≠ none) (htarget : s.entryAt target = some t)
    (b : Option NtStatus × RecordFiles) (hb : b = moveSidecarRecordsBack answers moved s.files)
    (again : Option NtStatus × RecordFiles)
    (hagain : again = moveSidecarRecordsLeavingStuckOnes config answers source target t.entries
      b.2) :
    (∀ recordsBack, b.1 = some recordsBack →
      undoMove config answers source target recordStatus moved s =
        (⟨none, some recordsBack⟩, { s with files := b.2 })) ∧
    (b.1 = none → undoMove config answers source target recordStatus moved s =
      (⟨none, again.1⟩, { s with files := again.2 })) := by
  obtain ⟨status, hstatus⟩ := Option.ne_none_iff_exists'.mp hback
  subst hagain hb
  constructor
  · intro recordsBack hb
    simp [undoMove, moveUpperEntryOnDisk, hstatus, hb]
  · intro hb
    simp [undoMove, moveUpperEntryOnDisk, hstatus, UpperState.walked, htarget, hb]

theorem losesRecord_false_of_recordBack {files : RecordFiles} {p : RelPath} {a : MoveAnswers}
    (h : a.recordBack.accepts (files ⟨p, .metaJson⟩).isSome = true) :
    a.losesRecord files p = false := by
  unfold MoveAnswers.losesRecord
  cases hpresent : (files ⟨p, .metaJson⟩).isSome with
  | false => simp
  | true =>
    rw [hpresent] at h
    simp [h]

section Runs

variable (hconfig : config.hasAds = false) (hapart : Apart source target)
  (ht : s.entryAt source = some t)
  (hmoves : (moveUpperEntryOnDisk answers.onDisk source target replace s).1 = none)
  (w : Option NtStatus × RecordWalk)
  (hw : w = moveSidecarRecords config answers source target t.entries s.files)
  (b : Option NtStatus × RecordFiles)
  (hb : b = moveSidecarRecordsBack answers w.2.moved w.2.files)

include hapart in
private theorem target_ne_source : target ≠ source := by
  intro heq
  exact hapart.not_above (heq ▸ List.prefix_refl _)

include hapart ht hmoves hw in
/-- The records have moved with the entry. -/
theorem moveUpperEntry_followed (hstatus : w.1 = none) :
    (moveUpperEntry config answers source target replace s).1 = ⟨none, none⟩ ∧
      (moveUpperEntry config answers source target replace s).2.files = w.2.files := by
  have hwalk := hw.symm.trans (Prod.ext hstatus rfl : w = (none, w.2))
  rw [(moveUpperEntry_moved hapart ht hmoves _ rfl).1 _ hwalk]
  exact ⟨rfl, rfl⟩

include hapart ht hmoves hw hb in
/-- A record could not move, and the entry is back. -/
theorem moveUpperEntry_back (hstatus : w.1 ≠ none) (hback : answers.backOnDisk = none) :
    (moveUpperEntry config answers source target replace s).1 = ⟨w.1, b.1⟩ ∧
      (moveUpperEntry config answers source target replace s).2.files = b.2 ∧
      (moveUpperEntry config answers source target replace s).2.entryAt source = some t := by
  obtain ⟨status, hsome⟩ := Option.ne_none_iff_exists'.mp hstatus
  have hwalk := hw.symm.trans (Prod.ext hsome rfl : w = (some status, w.2))
  have hne := target_ne_source hapart
  rw [(moveUpperEntry_moved hapart ht hmoves _ rfl).2 _ _ hwalk,
    undoMove_back (t := t) hback (by simp [hne]) (by simp)]
  subst hb
  simp [hne.symm, hsome]

include hapart ht hmoves hw hb in
/-- A record could not move, and neither could the entry, back. -/
theorem moveUpperEntry_stays (hstatus : w.1 ≠ none) (hback : answers.backOnDisk ≠ none)
    (again : Option NtStatus × RecordFiles)
    (hagain : again = moveSidecarRecordsLeavingStuckOnes config answers source target t.entries
      b.2) :
    (b.1 ≠ none → (moveUpperEntry config answers source target replace s).1 = ⟨none, b.1⟩) ∧
      (b.1 = none →
        (moveUpperEntry config answers source target replace s).1 = ⟨none, again.1⟩ ∧
        (moveUpperEntry config answers source target replace s).2.files = again.2) := by
  obtain ⟨status, hsome⟩ := Option.ne_none_iff_exists'.mp hstatus
  have hwalk := hw.symm.trans (Prod.ext hsome rfl : w = (some status, w.2))
  obtain ⟨s', hs'⟩ : ∃ s', s' = { s with
      entryAt := Function.update (Function.update s.entryAt target (some t)) source none } :=
    ⟨_, rfl⟩
  have htarget : s'.entryAt target = some t := by simp [hs', target_ne_source hapart]
  rw [(moveUpperEntry_moved hapart ht hmoves s' hs').2 _ _ hwalk]
  obtain ⟨hstuck, hagain'⟩ := undoMove_stays status (s := { s' with files := w.2.files }) hback
    htarget b hb again hagain
  constructor
  · intro hbs
    obtain ⟨recordsBack, hbs⟩ := Option.ne_none_iff_exists'.mp hbs
    rw [hstuck recordsBack hbs, hbs]
  · intro hbs
    rw [hagain' hbs]
    exact ⟨rfl, rfl⟩

include hconfig hapart hw hb in
/-- The undo gives back the records below `source`. -/
theorem undo_source (hback : b.1 = none) (e : RelPath) (x : RecordSuffix) :
    b.2 ⟨source ++ e, x⟩ = keptRecords answers source target t s.files ⟨source ++ e, x⟩ := by
  have hw2 : w.2 = (moveSidecarRecords config answers source target t.entries s.files).2 := by
    rw [hw]
  exact ((undo_records hconfig hapart w.2 hw2 b hb).2 hback).1 ⟨source ++ e, x⟩
    fun a _ => hapart.ne e a

end Runs

theorem moveSidecarRecords_succeeds_iff (hconfig : config.hasAds = false)
    (hapart : Apart source target) (answers : HostAnswers) (t : UpperTree) (files : RecordFiles) :
    (moveSidecarRecords config answers source target t.entries files).1 = none ↔
      firstUnlisted (movedEvents answers.listing target answers.readsKind t.entries) = none ∧
        stopsAt answers source target t files = none := by
  rcases moveSidecarRecords_cases hconfig hapart _ rfl with
    ⟨hstops, hlisted, -⟩ | ⟨e, hstops, hfails, -⟩
  · rw [hlisted, hstops]
    simp
  · rw [hstops]
    simp [hfails]

/-- When the records of some entries have moved, those of all have exactly when the others had
none, and what moved was what was there. -/
theorem Followed.iff_of_partly {M E : RelPath → Prop} {before middle after : RecordFiles}
    (h : Followed source target M middle after) (hapart : Apart source target)
    (hM : ∀ e, M e → E e)
    (hmiddle : ∀ k : RecordFile, (∀ e, E e → k.base ≠ source ++ e ∧ k.base ≠ target ++ e) →
      middle k = before k) :
    Followed source target E before after ↔
      (∀ e, M e → ∀ x, middle ⟨source ++ e, x⟩ = before ⟨source ++ e, x⟩) ∧
        ∀ e, E e → ¬ M e → ∀ x, middle ⟨source ++ e, x⟩ = none ∧
          middle ⟨target ++ e, x⟩ = before ⟨source ++ e, x⟩ := by
  constructor
  · intro hall
    refine ⟨?_, ?_⟩
    · intro e he x
      rw [← h.arrived e he x, hall.arrived e (hM e he) x]
    · intro e he hnot x
      rw [← h.source_kept hapart hnot, ← h.target_kept hapart hnot]
      exact ⟨hall.gone e he x, hall.arrived e he x⟩
  · rintro ⟨hmoved, hrest⟩
    refine ⟨?_, ?_, ?_⟩
    · intro e he x
      by_cases hMe : M e
      · rw [h.arrived e hMe, hmoved e hMe]
      · rw [h.target_kept hapart hMe, (hrest e he hMe x).2]
    · intro e he x
      by_cases hMe : M e
      · exact h.gone e hMe x
      · rw [h.source_kept hapart hMe, (hrest e he hMe x).1]
    · intro k hk
      rw [h.kept k fun e he => hk e (hM e he), hmiddle k hk]

/-- A walk that meets fewer entries than the tree holds has not read the moved one. -/
theorem mem_or_unread {listing : RelPath → Option ListingFault} {readsKind : Bool} {e : RelPath}
    (hlists : firstUnlisted (movedEvents listing target readsKind t.entries) = none)
    (he : t.Holds e) :
    e ∉ movedEntries listing target readsKind t.entries ↔ readsKind = false ∧ e ≠ [] := by
  rw [mem_movedEntries_iff hlists]
  cases readsKind <;> simp [he]

/-- A run whose first walk succeeds leaves behind the records of the entries that the walk
does not meet, and no others. -/
theorem MovedAtOnce.follow_iff (hconfig : config.hasAds = false) (hapart : Apart source target)
    (ht : s.entryAt source = some t) (h : MovedAtOnce answers source target replace s t) :
    (moveUpperEntry config answers source target replace s).1 = ⟨none, none⟩ ∧
      (Followed source target t.Holds s.files
          (moveUpperEntry config answers source target replace s).2.files ↔
        ¬ ∃ e, SkippedAtOnce answers source target replace s t e) := by
  obtain ⟨w, hw⟩ : ∃ w, w = moveSidecarRecords config answers source target t.entries s.files :=
    ⟨_, rfl⟩
  have hstatus : w.1 = none := by
    rw [hw, moveSidecarRecords_succeeds_iff hconfig hapart]
    exact ⟨h.lists, h.accepted⟩
  obtain ⟨hresult, hfiles⟩ := moveUpperEntry_followed hapart ht h.moves w hw hstatus
  refine ⟨hresult, ?_⟩
  have hfollowed : Followed source target
      (· ∈ movedEntries answers.listing target answers.readsKind t.entries) s.files w.2.files := by
    rcases moveSidecarRecords_cases hconfig hapart w hw with
      ⟨-, -, hall, hmoved⟩ | ⟨e, hstops, -⟩
    · rw [← hall]
      exact hmoved.followed
    · rw [h.accepted] at hstops
      cases hstops
  rw [hfiles, hfollowed.iff_of_partly hapart (fun _ => holds_of_mem_movedEntries)
    (fun _ _ => rfl)]
  constructor
  · rintro ⟨-, hrest⟩ ⟨e, hskipped⟩
    have hunmet := (mem_or_unread h.lists hskipped.held).mpr ⟨hskipped.unread, hskipped.below⟩
    obtain ⟨x, hx⟩ := hskipped.stays
    obtain ⟨hsource, htarget⟩ := hrest e hskipped.held hunmet x
    rw [htarget, hsource] at hx
    simp at hx
  · intro hskipped
    refine ⟨fun _ _ _ => rfl, ?_⟩
    intro e he hunmet x
    obtain ⟨hunread, hbelow⟩ := (mem_or_unread h.lists he).mp hunmet
    have hnone : ¬ (s.files ⟨source ++ e, x⟩ ≠ none ∨ s.files ⟨target ++ e, x⟩ ≠ none) :=
      fun hx => hskipped ⟨e, h, hunread, he, hbelow, x, hx⟩
    rw [not_or, not_not, not_not] at hnone
    exact ⟨hnone.1, hnone.2.trans hnone.1.symm⟩

/-- The second walk takes over from the undo, and moves the records of what it meets. -/
theorem MovedAgain.taken_over (hconfig : config.hasAds = false) (hapart : Apart source target)
    (ht : s.entryAt source = some t) (h : MovedAgain answers source target replace s t) :
    (moveUpperEntry config answers source target replace s).1 = ⟨none, none⟩ ∧
      ∃ middle : RecordFiles,
        (∀ e x, middle ⟨source ++ e, x⟩ =
          keptRecords answers source target t s.files ⟨source ++ e, x⟩) ∧
        (∀ e x, middle ⟨target ++ e, x⟩ = leftAtTarget answers source target t s.files e x) ∧
        (∀ k : RecordFile, (∀ e, t.Holds e → k.base ≠ source ++ e ∧ k.base ≠ target ++ e) →
          middle k = s.files k) ∧
        Followed source target
          (· ∈ movedEntries answers.stuckListing target answers.stuckReadsKind t.entries) middle
          (moveUpperEntry config answers source target replace s).2.files := by
  obtain ⟨w, hw⟩ : ∃ w, w = moveSidecarRecords config answers source target t.entries s.files :=
    ⟨_, rfl⟩
  obtain ⟨b, hb⟩ : ∃ b, b = moveSidecarRecordsBack answers w.2.moved w.2.files := ⟨_, rfl⟩
  obtain ⟨again, hagain⟩ : ∃ again, again = moveSidecarRecordsLeavingStuckOnes config answers
      source target t.entries b.2 := ⟨_, rfl⟩
  have hstatus : w.1 ≠ none := by
    rw [hw, Ne, moveSidecarRecords_succeeds_iff hconfig hapart]
    rintro ⟨hlists, hstops⟩
    rcases h.fails with hfails | hfails
    · exact hfails hlists
    · exact hfails hstops
  have hundo := undo_records hconfig hapart w.2 (by rw [hw]) b hb
  have hbnone : b.1 = none := hundo.1.mpr h.back
  obtain ⟨hkept, hleft⟩ := hundo.2 hbnone
  have hsource : ∀ e x, b.2 ⟨source ++ e, x⟩ =
      keptRecords answers source target t s.files ⟨source ++ e, x⟩ :=
    undo_source hconfig hapart w hw b hb hbnone
  have hspec := moveSidecarRecordsLeavingStuckOnes_spec hconfig hapart _ rfl again hagain
  have hnone : again.1 = none := by
    refine hspec.1.mpr ⟨h.lists, ?_⟩
    intro a ha
    rw [← h.again a (holds_of_mem_movedEntries ha) ((mem_movedEntries_iff h.lists).mp ha).2]
    exact accepts_congr (hsource a)
  obtain ⟨hresult, hfiles⟩ :=
    (moveUpperEntry_stays hapart ht h.moves w hw b hb hstatus h.stays again hagain).2 hbnone
  refine ⟨by rw [hresult, hnone], b.2, hsource, hleft, ?_, ?_⟩
  · intro k hk
    rw [hkept k fun e he => (hk e he).2]
    exact keptRecords_of_base_ne fun e he => (hk e he).1
  · rw [hfiles]
    exact hspec.2 hnone

/-- A run whose second walk succeeds leaves behind a lost record, and the records of the
entries that the walk does not meet. -/
theorem MovedAgain.follow_iff (hconfig : config.hasAds = false) (hapart : Apart source target)
    (ht : s.entryAt source = some t) (h : MovedAgain answers source target replace s t) :
    (moveUpperEntry config answers source target replace s).1 = ⟨none, none⟩ ∧
      (Followed source target t.Holds s.files
          (moveUpperEntry config answers source target replace s).2.files ↔
        ¬ ∃ e, RecordLost answers source target replace s t e ∨
          SkippedAgain answers source target replace s t e) := by
  obtain ⟨hresult, middle, hsource, hleft, hothers, hfollowed⟩ :=
    h.taken_over hconfig hapart ht
  refine ⟨hresult, ?_⟩
  rw [hfollowed.iff_of_partly hapart (fun _ => holds_of_mem_movedEntries) hothers]
  constructor
  · rintro ⟨hmet, hrest⟩ ⟨e, hlost | hskipped⟩
    · have hheld : t.Holds e := holds_of_stopsAt hlost.stops
      have hmem := (mem_movedEntries_iff h.lists).mpr ⟨hheld, hlost.meets⟩
      have hrecord := hmet e hmem .metaJson
      rw [hsource, keptRecords_eq_none_iff.mpr (.inr ⟨hlost.stops, hlost.loses, rfl⟩)] at hrecord
      have hloses := hlost.loses
      simp [MoveAnswers.losesRecord, ← hrecord] at hloses
    · have hunmet := (mem_or_unread h.lists hskipped.held).mpr ⟨hskipped.unread, hskipped.below⟩
      obtain ⟨x, hx⟩ := hskipped.left
      obtain ⟨hgone, hthere⟩ := hrest e hskipped.held hunmet x
      rw [hsource] at hgone
      rw [hleft, leftAtTarget_eq_iff hgone] at hthere
      rcases hx with hx | ⟨hx, hwrites⟩
      · exact hx hgone
      · rw [hwrites] at hthere
        exact hx (hthere.resolve_right Bool.false_ne_true)
  · intro hwrong
    refine ⟨?_, ?_⟩
    · intro e he x
      rw [hsource, keptRecords_below, if_neg]
      rintro ⟨hstops, hloses, -⟩
      exact hwrong ⟨e, .inl ⟨h, hstops, hloses, ((mem_movedEntries_iff h.lists).mp he).2⟩⟩
    · intro e he hunmet x
      obtain ⟨hunread, hbelow⟩ := (mem_or_unread h.lists he).mp hunmet
      have hnone : ¬ (keptRecords answers source target t s.files ⟨source ++ e, x⟩ ≠ none ∨
          (s.files ⟨target ++ e, x⟩ ≠ none ∧
            writesTarget answers source target t s.files e x = false)) :=
        fun hx => hwrong ⟨e, .inr ⟨h, hunread, he, hbelow, x, hx⟩⟩
      rw [not_or, not_not, not_and_or, not_not, Bool.not_eq_false] at hnone
      rw [hsource, hleft]
      exact ⟨hnone.1, (leftAtTarget_eq_iff hnone.1).mpr hnone.2⟩

/-- A call reports success, and no record left behind, in two kinds of run only. -/
theorem moved_of_result (hconfig : config.hasAds = false) (hapart : Apart source target)
    (ht : s.entryAt source = some t)
    (hresult : (moveUpperEntry config answers source target replace s).1 = ⟨none, none⟩) :
    MovedAtOnce answers source target replace s t ∨
      MovedAgain answers source target replace s t := by
  have hmoves : (moveUpperEntryOnDisk answers.onDisk source target replace s).1 = none := by
    unfold moveUpperEntry at hresult
    split at hresult
    · cases hresult
    · rename_i heq
      rw [heq]
  obtain ⟨w, hw⟩ : ∃ w, w = moveSidecarRecords config answers source target t.entries s.files :=
    ⟨_, rfl⟩
  have hsucceeds := moveSidecarRecords_succeeds_iff hconfig hapart answers t s.files
  rw [← hw] at hsucceeds
  by_cases hstatus : w.1 = none
  · obtain ⟨hlists, hstops⟩ := hsucceeds.mp hstatus
    exact .inl ⟨hmoves, hlists, hstops⟩
  · obtain ⟨b, hb⟩ : ∃ b, b = moveSidecarRecordsBack answers w.2.moved w.2.files := ⟨_, rfl⟩
    have hback : answers.backOnDisk ≠ none := by
      intro hback
      rw [(moveUpperEntry_back hapart ht hmoves w hw b hb hstatus hback).1] at hresult
      exact hstatus (congrArg UpperEntryMove.status hresult)
    obtain ⟨again, hagain⟩ : ∃ again, again = moveSidecarRecordsLeavingStuckOnes config answers
        source target t.entries b.2 := ⟨_, rfl⟩
    have hstays := moveUpperEntry_stays hapart ht hmoves w hw b hb hstatus hback again hagain
    have hbnone : b.1 = none := by
      by_contra hsome
      rw [hstays.1 hsome] at hresult
      exact hsome (congrArg UpperEntryMove.recordLeftBehind hresult)
    have hnone : again.1 = none := by
      rw [(hstays.2 hbnone).1] at hresult
      exact congrArg UpperEntryMove.recordLeftBehind hresult
    obtain ⟨hlists, haccepts⟩ :=
      (moveSidecarRecordsLeavingStuckOnes_spec hconfig hapart _ rfl again hagain).1.mp hnone
    refine .inr ⟨hmoves, ?_, hback,
      (undo_records hconfig hapart w.2 (by rw [hw]) b hb).1.mp hbnone, hlists, ?_⟩
    · rw [hsucceeds, not_and_or] at hstatus
      exact hstatus
    · intro a ha hread
      rw [← haccepts a ((mem_movedEntries_iff hlists).mpr ⟨ha, hread⟩)]
      apply accepts_congr
      intro x
      rw [undo_source hconfig hapart w hw b hb hbnone]

/-- A call whose undo succeeds leaves the entry and its records where they were. -/
theorem restore_of_undone (hconfig : config.hasAds = false) (hapart : Apart source target)
    (ht : s.entryAt source = some t)
    (hundone : Undone config answers source target replace s t) :
    (moveUpperEntry config answers source target replace s).2.entryAt source = some t ∧
      ∀ e x, (moveUpperEntry config answers source target replace s).2.files ⟨source ++ e, x⟩ =
        s.files ⟨source ++ e, x⟩ := by
  obtain ⟨-, hfiles, hentry⟩ :=
    moveUpperEntry_back hapart ht hundone.moves _ rfl _ rfl hundone.fails hundone.entryBack
  refine ⟨hentry, ?_⟩
  intro e x
  rw [hfiles, undo_source hconfig hapart _ rfl _ rfl hundone.recordsBack, keptRecords_below,
    if_neg]
  rintro ⟨hstops, hloses, -⟩
  rw [losesRecord_false_of_recordBack (hundone.recordBack e hstops)] at hloses
  cases hloses

end Contract

/-- A directory `d` with a file `f` in it. -/
private def directoryTree : UpperTree where
  entries := .node () [(['f'], .leaf .file)]
  distinct := by simp [PathTree.Distinct, PathTree.DistinctChildren]

/-- `d` has an opaque marker, and `d\f` a record. -/
private def directoryState : UpperState where
  entryAt p := if p = [['d']] then some directoryTree else none
  files k :=
    if k = ⟨[['d'], ['f']], .metaJson⟩ then some [1]
    else if k = ⟨[['d']], .opaqueMarker⟩ then some []
    else none

private def sidecarConfig : StoreConfig := { upperPath := [], hasAds := false }

/-- The marker of `d` cannot move, its record cannot move back, and neither can `d`. -/
private def lockedAnswers : HostAnswers where
  records _ := { marker.move := some .accessDenied, recordBack.move := some .accessDenied }
  backOnDisk := some .accessDenied

private def fileTree : UpperTree where
  entries := .leaf .file
  distinct := by simp [PathTree.Distinct]

/-- A file `d` with a record. -/
private def fileState : UpperState where
  entryAt p := if p = [['d']] then some fileTree else none
  files k := if k = ⟨[['d']], .metaJson⟩ then some [1] else none

end LayerMount.Sidecar
