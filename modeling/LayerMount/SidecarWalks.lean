import LayerMount.SidecarMove

/-!
# The walks of a moved tree

A walk of `MoveUpperEntry` meets the moved entry and what is below it, unless it cannot read
what the moved entry is.  `movedEvents` lists what it meets, so that a walk is a fold over
them (`forEachMovedEntry_eq`), and each of the three passes says what it does to the record
files: the first walk, the way back and the second walk.
-/

namespace LayerMount.Sidecar

open LayerMount.Lib

/-! ## The order of a walk -/

/-- What a walk meets: an entry, by its path below the moved one, or the end of a listing
that failed. -/
inductive WalkEvent where
  | entry (path : RelPath)
  | unlisted (error : NtStatus)
  deriving DecidableEq, Repr

section Events

variable (listing : RelPath → Option ListingFault) (target : RelPath)

mutual

/-- The events of a walk of the directory at `target ++ dirPath`. -/
def eventsBelow (dirPath : RelPath) : Entries → List WalkEvent
  | .leaf _ => []
  | .node _ children => eventsListed dirPath (listing (target ++ dirPath)) children

def eventsListed (dirPath : RelPath) (fault : Option ListingFault) :
    List (Name × Entries) → List WalkEvent
  | [] =>
    match fault with
    | none => []
    | some fault => [.unlisted fault.error]
  | (name, entry) :: rest =>
    match fault with
    | some ⟨0, error⟩ => [.unlisted error]
    | fault =>
      .entry (dirPath ++ [name]) :: eventsBelow (dirPath ++ [name]) entry ++
        eventsListed dirPath (fault.map fun f => { f with after := f.after - 1 }) rest

end

/-- A listing that has not failed yet goes on. -/
theorem eventsListed_cons {dirPath : RelPath} {fault : Option ListingFault} {name : Name}
    {entry : Entries} {rest : List (Name × Entries)} (h : ∀ error, fault ≠ some ⟨0, error⟩) :
    eventsListed listing target dirPath fault ((name, entry) :: rest) =
      .entry (dirPath ++ [name]) :: eventsBelow listing target (dirPath ++ [name]) entry ++
        eventsListed listing target dirPath (fault.map fun f => { f with after := f.after - 1 })
          rest := by
  conv_lhs => unfold eventsListed
  split
  · exact absurd rfl (h _)
  · rfl

/-- The events of `ForEachMovedEntry`. -/
def movedEvents (readsKind : Bool) (entry : Entries) : List WalkEvent :=
  .entry [] :: if readsKind then eventsBelow listing target [] entry else []

end Events

/-- The entries that a walk meets. -/
def visits (events : List WalkEvent) : List RelPath :=
  events.filterMap fun
    | .entry path => some path
    | .unlisted _ => none

/-- The first listing that failed. -/
def firstUnlisted (events : List WalkEvent) : Option NtStatus :=
  events.findSome? fun
    | .entry _ => none
    | .unlisted error => some error

@[simp] theorem visits_entry (p : RelPath) (events : List WalkEvent) :
    visits (.entry p :: events) = p :: visits events := rfl

@[simp] theorem visits_unlisted (error : NtStatus) (events : List WalkEvent) :
    visits (.unlisted error :: events) = visits events := rfl

@[simp] theorem visits_append (a b : List WalkEvent) : visits (a ++ b) = visits a ++ visits b := by
  simp [visits]

@[simp] theorem firstUnlisted_entry (p : RelPath) (events : List WalkEvent) :
    firstUnlisted (.entry p :: events) = firstUnlisted events := rfl

@[simp] theorem firstUnlisted_unlisted (error : NtStatus) (events : List WalkEvent) :
    firstUnlisted (.unlisted error :: events) = some error := rfl

theorem firstUnlisted_append (a b : List WalkEvent) :
    firstUnlisted (a ++ b) = (firstUnlisted a).or (firstUnlisted b) := by
  simp [firstUnlisted, List.findSome?_append]

namespace Walk

variable {σ : Type} (visit : RelPath → σ → Option NtStatus × σ)

/-- A walk along its events, to the first visit that fails. -/
def along : List WalkEvent → Walk σ → Walk σ
  | [], w => w
  | .entry path :: rest, w =>
    match (w.visited (visit path w.state)).status with
    | some _ => w.visited (visit path w.state)
    | none => along rest (w.visited (visit path w.state))
  | .unlisted error :: rest, w => along rest (w.keepFirstListingError error)

variable {visit} {w : Walk σ} {path : RelPath} {rest : List WalkEvent}

theorem along_entry_failed (h : (visit path w.state).1 ≠ none) :
    along visit (.entry path :: rest) w = w.visited (visit path w.state) := by
  obtain ⟨status, hstatus⟩ := Option.ne_none_iff_exists'.mp h
  have hw : (w.visited (visit path w.state)).status = some status := hstatus
  rw [along, hw]

theorem along_entry_visited (h : (visit path w.state).1 = none) :
    along visit (.entry path :: rest) w =
      along visit rest (w.visited (visit path w.state)) := by
  have hw : (w.visited (visit path w.state)).status = none := h
  rw [along, hw]

theorem along_append (a b : List WalkEvent) (w : Walk σ) (h : w.status = none) :
    along visit (a ++ b) w =
      match (along visit a w).status with
      | some _ => along visit a w
      | none => along visit b (along visit a w) := by
  induction a generalizing w with
  | nil => simp [along, h]
  | cons event a ih =>
    cases event with
    | entry path =>
      rw [List.cons_append]
      cases hs : (visit path w.state).1 with
      | some err =>
        rw [along_entry_failed (by simp [hs]), along_entry_failed (by simp [hs])]
        simp [visited, hs]
      | none =>
        rw [along_entry_visited hs, along_entry_visited hs]
        exact ih _ hs
    | unlisted error => exact ih (w.keepFirstListingError error) h

end Walk

section Order

variable {σ : Type} (visit : RelPath → σ → Option NtStatus × σ)
  (listing : RelPath → Option ListingFault) (target : RelPath)

mutual

theorem visitEntriesBelow_eq (dirPath : RelPath) (entry : Entries) (w : Walk σ) :
    visitEntriesBelow visit listing (target ++ dirPath) entry w =
      Walk.along (fun e => visit (target ++ e)) (eventsBelow listing target dirPath entry) w := by
  cases entry with
  | leaf v => rfl
  | node v children =>
    rw [visitEntriesBelow, eventsBelow]
    exact visitListed_eq dirPath _ children w

theorem visitListed_eq (dirPath : RelPath) (fault : Option ListingFault)
    (children : List (Name × Entries)) (w : Walk σ) :
    visitListed visit listing (target ++ dirPath) fault children w =
      Walk.along (fun e => visit (target ++ e))
        (eventsListed listing target dirPath fault children) w := by
  match children with
  | [] => cases fault <;> rfl
  | (name, entry) :: rest =>
    unfold visitListed
    split
    · rfl
    · rename_i hlists
      rw [eventsListed_cons listing target fun error => hlists error, List.cons_append, Walk.along]
      simp only [List.append_assoc]
      cases hs : (w.visited (visit (target ++ (dirPath ++ [name])) w.state)).status with
      | some err => rfl
      | none =>
        dsimp only
        rw [visitEntriesBelow_eq _ entry, Walk.along_append _ _ _ hs]
        cases hb : (Walk.along (fun e => visit (target ++ e))
            (eventsBelow listing target (dirPath ++ [name]) entry)
            (w.visited (visit (target ++ (dirPath ++ [name])) w.state))).status with
        | some err => rfl
        | none => exact visitListed_eq dirPath _ rest _

end

end Order

/-- The visit of the entry at `e` below the moved one. -/
def visitBelow {σ : Type} (visit : RelPath → RelPath → σ → Option NtStatus × σ)
    (source target e : RelPath) : σ → Option NtStatus × σ :=
  visit (source ++ e) (target ++ e)

/-- `ForEachMovedEntry` is a walk along the events of the moved tree. -/
theorem forEachMovedEntry_eq {σ : Type} (visit : RelPath → RelPath → σ → Option NtStatus × σ)
    (readsKind : Bool) (listing : RelPath → Option ListingFault) (source target : RelPath)
    (entry : Entries) (s : σ) (w : Walk σ)
    (hw : w = Walk.along (visitBelow visit source target)
      (movedEvents listing target readsKind entry) { state := s }) :
    forEachMovedEntry visit readsKind listing source target entry s = (w.result, w.state) := by
  subst hw
  have hvisit : visitBelow visit source target [] s = visit source target s := by
    simp [visitBelow]
  unfold forEachMovedEntry movedEvents
  dsimp only
  cases hroot : (visit source target s).1 with
  | some status =>
    rw [Walk.along_entry_failed (by simp [hvisit, hroot])]
    apply Prod.ext <;> simp [Walk.visited, Walk.result, hvisit, hroot]
  | none =>
    rw [Walk.along_entry_visited (by simp [hvisit, hroot])]
    cases entry with
    | leaf v =>
      cases readsKind <;> apply Prod.ext <;>
        simp [isDirectoryButNotLink, eventsBelow, Walk.along, Walk.visited, Walk.result, hvisit,
          hroot]
    | node v children =>
      cases readsKind with
      | false =>
        apply Prod.ext <;>
          simp [isDirectoryButNotLink, Walk.along, Walk.visited, Walk.result, hvisit, hroot]
      | true =>
        have hbelow := visitEntriesBelow_eq
          (fun movedPath => visit (source ++ movedPath.drop target.length) movedPath)
          listing target [] (.node v children) { state := (visit source target s).2 }
        simp only [List.append_nil, List.drop_left] at hbelow
        simp only [isDirectoryButNotLink, Bool.not_true, Bool.or_false, Option.isSome_none,
          Bool.false_eq_true, if_false, forEachEntryBelow, hbelow, Walk.visited, hvisit, hroot]
        rfl

/-! ## The entries that a walk meets -/

section Listed

variable (listing : RelPath → Option ListingFault) (target : RelPath)

mutual

/-- A walk meets entries of the tree only, and each of them once. -/
theorem visits_eventsBelow_sublist (dirPath : RelPath) (entry : Entries) :
    (visits (eventsBelow listing target dirPath entry)).Sublist
      (entry.pathsBelow.map (dirPath ++ ·)) := by
  cases entry with
  | leaf v => simp [eventsBelow, visits]
  | node v children =>
    rw [eventsBelow, PathTree.pathsBelow]
    exact visits_eventsListed_sublist dirPath _ children

theorem visits_eventsListed_sublist (dirPath : RelPath) (fault : Option ListingFault)
    (children : List (Name × Entries)) :
    (visits (eventsListed listing target dirPath fault children)).Sublist
      ((PathTree.pathsOfChildren children).map (dirPath ++ ·)) := by
  match children with
  | [] => cases fault <;> simp [eventsListed, visits]
  | (name, entry) :: rest =>
    unfold eventsListed
    split
    · simp [visits]
    · have hbelow := visits_eventsBelow_sublist (dirPath ++ [name]) entry
      simp only [List.append_assoc, List.cons_append, List.nil_append] at hbelow
      simp only [List.cons_append, visits_entry, visits_append, PathTree.pathsOfChildren,
        List.map_cons, List.map_append, List.map_map, Function.comp_def]
      apply List.Sublist.cons_cons
      exact hbelow.append (visits_eventsListed_sublist dirPath _ rest)

end

mutual

/-- A walk that lists every directory meets every entry. -/
theorem visits_eventsBelow_eq (dirPath : RelPath) (entry : Entries)
    (h : firstUnlisted (eventsBelow listing target dirPath entry) = none) :
    visits (eventsBelow listing target dirPath entry) = entry.pathsBelow.map (dirPath ++ ·) := by
  cases entry with
  | leaf v => simp [eventsBelow, visits, PathTree.pathsBelow]
  | node v children =>
    rw [eventsBelow] at h ⊢
    rw [PathTree.pathsBelow]
    exact visits_eventsListed_eq dirPath _ children h

theorem visits_eventsListed_eq (dirPath : RelPath) (fault : Option ListingFault)
    (children : List (Name × Entries))
    (h : firstUnlisted (eventsListed listing target dirPath fault children) = none) :
    visits (eventsListed listing target dirPath fault children) =
      (PathTree.pathsOfChildren children).map (dirPath ++ ·) := by
  match children with
  | [] => cases fault <;> simp [eventsListed, visits, PathTree.pathsOfChildren]
  | (name, entry) :: rest =>
    unfold eventsListed at h ⊢
    split at h
    · simp at h
    · simp only [List.cons_append, firstUnlisted_entry, firstUnlisted_append,
        Option.or_eq_none_iff] at h
      have hbelow := visits_eventsBelow_eq (dirPath ++ [name]) entry h.1
      simp only [List.append_assoc, List.cons_append, List.nil_append] at hbelow
      simp only [List.cons_append, visits_entry, visits_append, PathTree.pathsOfChildren,
        List.map_cons, List.map_append, List.map_map, Function.comp_def, hbelow,
        visits_eventsListed_eq dirPath _ rest h.2]

end

end Listed

/-- The entries that `ForEachMovedEntry` meets, by their paths below the moved one. -/
def movedEntries (listing : RelPath → Option ListingFault) (target : RelPath)
    (readsKind : Bool) (entry : Entries) : List RelPath :=
  visits (movedEvents listing target readsKind entry)

/-- The moved tree has an entry at `e`. -/
def UpperTree.Holds (t : UpperTree) (e : RelPath) : Prop :=
  (PathTree.sub (some t.entries) e).isSome = true

section Met

variable {listing : RelPath → Option ListingFault} {target e : RelPath} {readsKind : Bool}
  {t : UpperTree}

theorem movedEntries_unread (entry : Entries) :
    movedEntries listing target false entry = [[]] := rfl

theorem movedEntries_read (entry : Entries) :
    movedEntries listing target true entry
      = [] :: visits (eventsBelow listing target [] entry) := rfl

theorem visits_below_sublist (listing : RelPath → Option ListingFault) (target : RelPath)
    (t : UpperTree) :
    (visits (eventsBelow listing target [] t.entries)).Sublist t.entries.pathsBelow := by
  have hsub := visits_eventsBelow_sublist listing target [] t.entries
  simpa only [List.nil_append, List.map_id'] using hsub

theorem nodup_movedEntries (listing : RelPath → Option ListingFault) (target : RelPath)
    (readsKind : Bool) (t : UpperTree) :
    (movedEntries listing target readsKind t.entries).Nodup := by
  cases readsKind with
  | false => simp [movedEntries_unread]
  | true =>
    have hsub := visits_below_sublist listing target t
    refine List.nodup_cons.mpr ⟨?_, hsub.nodup (PathTree.nodup_pathsBelow _ t.distinct)⟩
    intro hmem
    exact ((PathTree.mem_pathsBelow_iff _ t.distinct []).mp (hsub.subset hmem)).1 rfl

/-- A walk that lists every directory meets every entry, or the moved one alone when that
cannot be read. -/
theorem mem_movedEntries_iff
    (h : firstUnlisted (movedEvents listing target readsKind t.entries) = none) :
    e ∈ movedEntries listing target readsKind t.entries ↔
      t.Holds e ∧ (e = [] ∨ readsKind = true) := by
  cases readsKind with
  | false =>
    rw [movedEntries_unread, List.mem_singleton]
    constructor
    · rintro rfl
      exact ⟨by simp [UpperTree.Holds], .inl rfl⟩
    · rintro ⟨-, he | he⟩
      · exact he
      · cases he
  | true =>
    have hall := visits_eventsBelow_eq listing target [] t.entries h
    simp only [List.nil_append, List.map_id'] at hall
    rw [movedEntries_read, List.mem_cons, hall, PathTree.mem_pathsBelow_iff _ t.distinct,
      UpperTree.Holds]
    cases e <;> simp

theorem holds_of_mem_movedEntries
    (h : e ∈ movedEntries listing target readsKind t.entries) : t.Holds e := by
  cases readsKind with
  | false =>
    rw [movedEntries_unread, List.mem_singleton] at h
    simp [h, UpperTree.Holds]
  | true =>
    have hsub := visits_below_sublist listing target t
    rcases List.mem_cons.mp h with rfl | hmem
    · simp [UpperTree.Holds]
    · exact ((PathTree.mem_pathsBelow_iff _ t.distinct e).mp (hsub.subset hmem)).2

end Met

/-! ## The three passes -/

section Passes

variable {source target e : RelPath} {before files : RecordFiles} {moved pre : List RelPath}

/-- One more entry moves. -/
theorem Followed.move (h : Followed source target (· ∈ moved) before files)
    (hapart : Apart source target) (he : e ∉ moved) {answers : MoveAnswers}
    (hacc : answers.accepts before (source ++ e) = true) :
    (Sidecar.move answers (source ++ e) (target ++ e) files).1 = none ∧
      Followed source target (· ∈ moved ++ [e]) before
        (Sidecar.move answers (source ++ e) (target ++ e) files).2 := by
  rw [← h.accepts_iff hapart he] at hacc
  obtain ⟨hstatus, hone⟩ := move_accepted hapart hacc
  refine ⟨hstatus, (h.trans hone hapart ?_).congr ?_⟩
  · rintro x hx rfl
    exact he hx
  · simp

def movedRecord (source target e : RelPath) : MovedSidecarRecord := ⟨source ++ e, target ++ e⟩

/-- The first walk has moved the records of `entries`. -/
structure MovedAll (source target : RelPath) (before : RecordFiles) (entries : List RelPath)
    (s : RecordWalk) : Prop where
  followed : Followed source target (· ∈ entries) before s.files
  moved : s.moved = entries.map (movedRecord source target)

/-- The first walk has moved the records of `entries`, and those of `e` could not move. -/
structure StoppedAt (answers : RelPath → MoveAnswers) (source target : RelPath)
    (before : RecordFiles) (entries : List RelPath) (e : RelPath) (s : RecordWalk) : Prop where
  moved : s.moved = entries.map (movedRecord source target)
  files : ∃ middle, Followed source target (· ∈ entries) before middle ∧
    s.files = (move (answers (source ++ e)) (source ++ e) (target ++ e) middle).2

theorem visitMovedRecord_accepted {answers : RelPath → MoveAnswers} {s : RecordWalk}
    (h : MovedAll source target before moved s) (hapart : Apart source target) (he : e ∉ moved)
    (hacc : (answers (source ++ e)).accepts before (source ++ e) = true) :
    (visitBelow (visitMovedRecord answers) source target e s).1 = none ∧
      MovedAll source target before (moved ++ [e])
        (visitBelow (visitMovedRecord answers) source target e s).2 := by
  obtain ⟨hstatus, hfollowed⟩ := h.followed.move hapart he hacc
  have hpair : move (answers (source ++ e)) (source ++ e) (target ++ e) s.files =
      (none, (move (answers (source ++ e)) (source ++ e) (target ++ e) s.files).2) :=
    Prod.ext hstatus rfl
  unfold visitBelow visitMovedRecord
  rw [hpair]
  refine ⟨rfl, hfollowed, ?_⟩
  simp [h.moved, movedRecord]

theorem visitMovedRecord_refused {answers : RelPath → MoveAnswers} {s : RecordWalk}
    (h : MovedAll source target before moved s) (hapart : Apart source target) (he : e ∉ moved)
    (hacc : (answers (source ++ e)).accepts before (source ++ e) = false) :
    (visitBelow (visitMovedRecord answers) source target e s).1 ≠ none ∧
      StoppedAt answers source target before moved e
        (visitBelow (visitMovedRecord answers) source target e s).2 := by
  rw [← h.followed.accepts_iff hapart he] at hacc
  obtain ⟨status, hstatus⟩ := Option.ne_none_iff_exists'.mp (move_refused hapart hacc).1
  have hpair : move (answers (source ++ e)) (source ++ e) (target ++ e) s.files =
      (some status, (move (answers (source ++ e)) (source ++ e) (target ++ e) s.files).2) :=
    Prod.ext hstatus rfl
  unfold visitBelow visitMovedRecord
  rw [hpair]
  exact ⟨by simp, h.moved, s.files, h.followed, rfl⟩

/-- The first walk moves every record that it meets, or stops at the first that cannot. -/
theorem along_visitMovedRecord (answers : RelPath → MoveAnswers) (hapart : Apart source target)
    (events : List WalkEvent) (w : Walk RecordWalk) (hw : w.status = none)
    (h : MovedAll source target before moved w.state) (hnodup : (moved ++ visits events).Nodup)
    (r : Walk RecordWalk)
    (hr : r = Walk.along (visitBelow (visitMovedRecord answers) source target) events w) :
    ((∀ e ∈ visits events, (answers (source ++ e)).accepts before (source ++ e) = true) ∧
        r.result = w.listingError.or (firstUnlisted events) ∧
        MovedAll source target before (moved ++ visits events) r.state) ∨
      ∃ met e rest, visits events = met ++ e :: rest ∧
        (∀ x ∈ met, (answers (source ++ x)).accepts before (source ++ x) = true) ∧
        (answers (source ++ e)).accepts before (source ++ e) = false ∧
        r.result ≠ none ∧ StoppedAt answers source target before (moved ++ met) e r.state := by
  induction events generalizing w moved with
  | nil =>
    subst hr
    refine Or.inl ⟨by simp [visits], ?_, ?_⟩
    · simp [Walk.result, hw, firstUnlisted]
    · simpa [Walk.along, visits] using h
  | cons event events ih =>
    cases event with
    | unlisted error =>
      have hnext := ih (w.keepFirstListingError error) hw h hnodup hr
      simpa [Walk.keepFirstListingError, Option.or_assoc] using hnext
    | entry e =>
      rw [visits_entry] at hnodup ⊢
      have he : e ∉ moved := by
        intro hmem
        exact (List.nodup_append.mp hnodup).2.2 e hmem e (by simp) rfl
      cases hacc : (answers (source ++ e)).accepts before (source ++ e) with
      | true =>
        obtain ⟨hstatus, hone⟩ := visitMovedRecord_accepted h hapart he hacc
        rw [Walk.along_entry_visited hstatus] at hr
        have hnext := ih _ hstatus hone (by simpa using hnodup) hr
        rcases hnext with ⟨hall, hresult, hmoved⟩ | ⟨met, x, rest, hvisits, hall, hx, hstop⟩
        · refine Or.inl ⟨?_, hresult, by simpa using hmoved⟩
          rintro y (- | ⟨-, hy⟩)
          · exact hacc
          · exact hall y hy
        · refine Or.inr ⟨e :: met, x, rest, by simp [hvisits], ?_, hx, by simpa using hstop⟩
          rintro y (- | ⟨-, hy⟩)
          · exact hacc
          · exact hall y hy
      | false =>
        obtain ⟨hstatus, hstop⟩ := visitMovedRecord_refused h hapart he hacc
        rw [Walk.along_entry_failed hstatus] at hr
        subst hr
        refine Or.inr ⟨[], e, visits events, rfl, by simp, hacc, ?_, ?_⟩
        · obtain ⟨status, hsome⟩ := Option.ne_none_iff_exists'.mp hstatus
          simp [Walk.result, Walk.visited, hsome]
        · rw [List.append_nil]
          exact hstop

/-- A step that moves the records of one entry, and keeps the first error. -/
structure KeepsFirstError (source target : RelPath) (answers : RelPath → MoveAnswers)
    (step : StuckWalk → RelPath → StuckWalk) : Prop where
  accepted : ∀ s e, (answers e).accepts s.files (source ++ e) = true →
    step s e = { s with files := (move (answers e) (source ++ e) (target ++ e) s.files).2 }
  refused : ∀ s e, (answers e).accepts s.files (source ++ e) = false →
    (step s e).firstError ≠ none
  sticky : ∀ s e, s.firstError ≠ none → (step s e).firstError ≠ none

theorem KeepsFirstError.foldl_sticky {answers : RelPath → MoveAnswers}
    {step : StuckWalk → RelPath → StuckWalk} (hstep : KeepsFirstError source target answers step)
    (entries : List RelPath) {s : StuckWalk} (h : s.firstError ≠ none) :
    (entries.foldl step s).firstError ≠ none := by
  induction entries generalizing s with
  | nil => exact h
  | cons e entries ih => exact ih (hstep.sticky s e h)

/-- A pass moves the records of every entry, or ends with the error of one. -/
theorem KeepsFirstError.foldl_cases {answers : RelPath → MoveAnswers}
    {step : StuckWalk → RelPath → StuckWalk} (hstep : KeepsFirstError source target answers step)
    (hapart : Apart source target) (entries : List RelPath) (s : StuckWalk)
    (hs : s.firstError = none) (h : Followed source target (· ∈ moved) before s.files)
    (hnodup : (moved ++ entries).Nodup) :
    ((∀ e ∈ entries, (answers e).accepts before (source ++ e) = true) ∧
        (entries.foldl step s).firstError = none ∧
        Followed source target (· ∈ moved ++ entries) before (entries.foldl step s).files) ∨
      ((∃ e ∈ entries, (answers e).accepts before (source ++ e) = false) ∧
        (entries.foldl step s).firstError ≠ none) := by
  induction entries generalizing s moved with
  | nil => exact Or.inl ⟨by simp, hs, by simpa using h⟩
  | cons e entries ih =>
    have he : e ∉ moved := by
      intro hmem
      exact (List.nodup_append.mp hnodup).2.2 e hmem e (by simp) rfl
    have hnow := h.accepts_iff hapart he (answers e)
    rw [List.foldl_cons]
    cases hacc : (answers e).accepts before (source ++ e) with
    | true =>
      have hone := (h.move hapart he hacc).2
      rw [hstep.accepted s e (hnow.trans hacc)]
      have hrest := @ih (moved ++ [e])
        { s with files := (Sidecar.move (answers e) (source ++ e) (target ++ e) s.files).2 }
        hs hone (by simpa using hnodup)
      rcases hrest with ⟨hall, hnext⟩ | ⟨⟨x, hx, hrefused⟩, hnext⟩
      · exact Or.inl ⟨List.forall_mem_cons.mpr ⟨hacc, hall⟩, by simpa using hnext⟩
      · exact Or.inr ⟨⟨x, List.mem_cons_of_mem e hx, hrefused⟩, hnext⟩
    | false =>
      have hfailed := hstep.refused s e (hnow.trans hacc)
      exact Or.inr ⟨⟨e, List.mem_cons_self, hacc⟩, hstep.foldl_sticky entries hfailed⟩

theorem or_ne_none_of_left {a b : Option NtStatus} (h : a ≠ none) : a.or b ≠ none := by
  cases a <;> simp_all

theorem or_ne_none_of_right {a b : Option NtStatus} (h : b ≠ none) : a.or b ≠ none := by
  cases a <;> simp_all

theorem keepsFirstError_moveRecordBack (answers : RelPath → MoveAnswers)
    (hapart : Apart source target) :
    KeepsFirstError target source (fun e => answers (source ++ e))
      (fun s e => moveRecordBack answers s (movedRecord source target e)) where
  accepted s e hacc := by
    have hstatus := (move_accepted hapart.symm hacc).1
    simp [moveRecordBack, movedRecord, hstatus]
  refused s e hacc := or_ne_none_of_right (move_refused hapart.symm hacc).1
  sticky s e h := or_ne_none_of_left h

theorem keepsFirstError_visitStuckRecord (answers : RelPath → StuckAnswers)
    (hapart : Apart source target) :
    KeepsFirstError source target (fun e => (answers (source ++ e)).toMoveAnswers)
      (fun s e => (visitBelow (visitStuckRecord answers) source target e s).2) where
  accepted s e hacc := by
    have hstatus := (move_accepted hapart hacc).1
    unfold visitBelow visitStuckRecord
    split
    · rename_i heq
      rw [heq]
    · rename_i heq
      rw [heq] at hstatus
      cases hstatus
  refused s e hacc := by
    have hstatus := (move_refused hapart hacc).1
    unfold visitBelow visitStuckRecord
    split
    · rename_i heq
      rw [heq] at hstatus
      exact absurd rfl hstatus
    · exact or_ne_none_of_right (by simp)
  sticky s e h := by
    unfold visitBelow visitStuckRecord
    split
    · exact h
    · exact or_ne_none_of_left h

/-- The second walk never stops. -/
theorem along_visitStuckRecord (answers : RelPath → StuckAnswers) (events : List WalkEvent)
    (w : Walk StuckWalk) (hw : w.status = none) :
    Walk.along (visitBelow (visitStuckRecord answers) source target) events w =
      { status := none
        listingError := w.listingError.or (firstUnlisted events)
        state := (visits events).foldl
          (fun s e => (visitBelow (visitStuckRecord answers) source target e s).2) w.state } := by
  induction events generalizing w with
  | nil =>
    cases w
    simp_all [Walk.along, firstUnlisted, visits]
  | cons event events ih =>
    cases event with
    | unlisted error =>
      rw [Walk.along, ih (w.keepFirstListingError error) hw]
      simp [Walk.keepFirstListingError]
    | entry e =>
      have hstatus : (visitBelow (visitStuckRecord answers) source target e w.state).1 = none := by
        unfold visitBelow visitStuckRecord
        split <;> rfl
      rw [Walk.along_entry_visited hstatus, ih _ hstatus]
      rfl

end Passes

end LayerMount.Sidecar
