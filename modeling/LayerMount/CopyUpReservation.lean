import LayerMount.Layer
import LayerMount.Lib.Reservation

/-!
# Concurrent copy-ups and their reservations

`CopyUp::PathReservation` and the four calls that hold one: `CopyUpFile`,
`CopyUpMetadataOnly`, `CopyUpDirectory` and `CompleteLazyCopyUp`.  A call that finds the
parent missing in the upper calls `CopyUpDirectory` for it while it keeps its own
reservation, so a thread is a stack of calls.

A step is one move of the innermost call of a thread, a new call of an idle thread, or
the removal of an upper entry.  What the lowers and the disk answer is not fixed: a call
may fail wherever the source has a failure exit.

* `reserved_of_run` carries the invariant: the reservations that are in flight are those
  of the calls on the stacks, one call each, and each call on a stack is for the parent
  of the call below it.
* `no_waiting_cycle` follows, because a thread waits for a shorter path than any it holds.
* `Served` carries a call that waited past a commit to its return.
-/

namespace LayerMount

open Lib

/-! ## Calls -/

inductive CopyUpKind where
  | file
  | metadataOnly
  | directory
  | completeLazy
  deriving DecidableEq, Repr

inductive CopyUpPhase where
  /-- The check of `CopyUpMetadataOnly` before its reservation. -/
  | starting
  /-- In the constructor of `PathReservation`. -/
  | reserving
  /-- The check of the upper, or of the record, under the reservation. -/
  | checking
  /-- `PrepareCopyUpTarget` up to `EnsureUpperParent`. -/
  | preparing
  /-- In the nested `CopyUpDirectory` of the parent. -/
  | awaitingParent
  /-- `PrepareCopyUpTarget` after `EnsureUpperParent`. -/
  | parentReady
  | staging
  | committing
  /-- `FillMetacopyShell` and `FinishFilledShell`. -/
  | filling
  /-- In the destructor of `PathReservation`. -/
  | releasing (ok : Bool)
  deriving DecidableEq, Repr

/-- A call that has not returned. -/
structure CopyUpCall where
  id : Nat
  kind : CopyUpKind
  path : RelPath
  phase : CopyUpPhase
  deriving DecidableEq, Repr

/-- The call holds the reservation of its path. -/
def CopyUpCall.holds (f : CopyUpCall) : Bool :=
  match f.phase with
  | .starting => false
  | .reserving => false
  | _ => true

inductive UpperCopy where
  | shell
  | full
  deriving DecidableEq, Repr

/-- What a commit of the call puts into the upper. -/
def CopyUpKind.copied : CopyUpKind → UpperCopy
  | .metadataOnly => .shell
  | _ => .full

def CopyUpKind.firstPhase : CopyUpKind → CopyUpPhase
  | .metadataOnly => .starting
  | _ => .reserving

structure CopyUpProtocol where
  upper : RelPath → Option UpperCopy
  /-- `inFlightCopyUps_`. -/
  inFlight : RelPath → Bool
  /-- The calls of each thread, the innermost first. -/
  stack : Nat → List CopyUpCall
  nextId : Nat

/-! ## Moves -/

inductive CopyUpMove where
  | goOn (next : CopyUpPhase)
  | reserve
  | callParent
  | commit
  | fill
  | failFill
  | finish (ok : Bool)
  /-- The return of `CopyUpMetadataOnly` before its reservation. -/
  | leave
  deriving DecidableEq, Repr

/-- The moves that the source allows a call in its phase. -/
inductive CopyUpCall.Can (s : CopyUpProtocol) (f : CopyUpCall) : CopyUpMove → Prop
  | earlyHit : f.phase = .starting → (s.upper f.path).isSome = true → Can s f .leave
  | earlyMiss : f.phase = .starting → s.upper f.path = none → Can s f (.goOn .reserving)
  | reserve : f.phase = .reserving → s.inFlight f.path = false → Can s f .reserve
  | alreadyThere : f.phase = .checking → f.kind ≠ .completeLazy →
      (s.upper f.path).isSome = true → Can s f (.goOn (.releasing true))
  | notThere : f.phase = .checking → f.kind ≠ .completeLazy → s.upper f.path = none →
      Can s f (.goOn .preparing)
  | shell : f.phase = .checking → f.kind = .completeLazy → s.upper f.path = some .shell →
      Can s f (.goOn .filling)
  | noShell : f.phase = .checking → f.kind = .completeLazy → s.upper f.path ≠ some .shell →
      Can s f (.goOn (.releasing true))
  /-- A user stream, no source in the lowers, or a parent that leads to no directory. -/
  | notPrepared : f.phase = .preparing → Can s f (.goOn (.releasing false))
  | parentThere : f.phase = .preparing →
      f.path.dropLast = [] ∨ (s.upper f.path.dropLast).isSome = true → Can s f (.goOn .parentReady)
  | parentMissing : f.phase = .preparing → f.path.dropLast ≠ [] →
      s.upper f.path.dropLast = none → Can s f .callParent
  /-- The upper reaches the path through a link. -/
  | throughLink : f.phase = .parentReady → (s.upper f.path).isSome = true →
      Can s f (.goOn (.releasing true))
  | ready : f.phase = .parentReady → Can s f (.goOn .staging)
  /-- The source cannot be read. -/
  | noSource : f.phase = .parentReady → Can s f (.goOn (.releasing false))
  | staged : f.phase = .staging → Can s f (.goOn .committing)
  | notStaged : f.phase = .staging → Can s f (.goOn (.releasing false))
  /-- The move into the upper, which replaces nothing. -/
  | commit : f.phase = .committing → s.upper f.path = none →
      f.path.dropLast = [] ∨ (s.upper f.path.dropLast).isSome = true → Can s f .commit
  | notCommitted : f.phase = .committing → Can s f (.goOn (.releasing false))
  | filled : f.phase = .filling → s.upper f.path = some .shell → Can s f .fill
  | notFilled : f.phase = .filling → Can s f .failFill
  | finish {ok : Bool} : f.phase = .releasing ok → Can s f (.finish ok)

/-- The caller of a call that returned goes on, or fails with it. -/
def resume (ok : Bool) : List CopyUpCall → List CopyUpCall
  | [] => []
  | g :: rest => { g with phase := if ok then .parentReady else .releasing false } :: rest

namespace CopyUpProtocol

def setStack (s : CopyUpProtocol) (t : Nat) (fs : List CopyUpCall) : CopyUpProtocol :=
  { s with stack := Function.update s.stack t fs }

def setUpper (s : CopyUpProtocol) (p : RelPath) (c : UpperCopy) : CopyUpProtocol :=
  { s with upper := Function.update s.upper p (some c) }

def setInFlight (s : CopyUpProtocol) (p : RelPath) (b : Bool) : CopyUpProtocol :=
  { s with inFlight := Function.update s.inFlight p b }

/-- What a move of the innermost call `f` of thread `t` does. -/
def perform (s : CopyUpProtocol) (t : Nat) (f : CopyUpCall) (rest : List CopyUpCall) :
    CopyUpMove → CopyUpProtocol
  | .goOn next => s.setStack t ({ f with phase := next } :: rest)
  | .reserve => (s.setInFlight f.path true).setStack t ({ f with phase := .checking } :: rest)
  | .callParent =>
    { s with nextId := s.nextId + 1 }.setStack t
      (⟨s.nextId, .directory, f.path.dropLast, .reserving⟩ ::
        { f with phase := .awaitingParent } :: rest)
  | .commit =>
    (s.setUpper f.path f.kind.copied).setStack t ({ f with phase := .releasing true } :: rest)
  | .fill => (s.setUpper f.path .full).setStack t ({ f with phase := .releasing true } :: rest)
  | .failFill => s.setStack t ({ f with phase := .releasing false } :: rest)
  | .finish ok => (s.setInFlight f.path false).setStack t (resume ok rest)
  | .leave => s.setStack t (resume true rest)

/-- An upper entry goes, with everything below it. -/
def remove (s : CopyUpProtocol) (q : RelPath) : CopyUpProtocol :=
  { s with upper := fun p => if q.isPrefixOf p then none else s.upper p }

end CopyUpProtocol

inductive CopyUpEvent where
  | quiet
  | called (id : Nat)
  | committed (id : Nat) (p : RelPath)
  | filled (id : Nat) (p : RelPath)
  | fillFailed (id : Nat)
  | returned (id : Nat) (ok : Bool)
  | created (q : RelPath)
  | removed (q : RelPath)
  deriving DecidableEq, Repr

def CopyUpMove.event (f : CopyUpCall) : CopyUpMove → CopyUpEvent
  | .commit => .committed f.id f.path
  | .fill => .filled f.id f.path
  | .failFill => .fillFailed f.id
  | .finish ok => .returned f.id ok
  | .leave => .returned f.id true
  | _ => .quiet

inductive CopyUpStep : CopyUpProtocol → CopyUpEvent → CopyUpProtocol → Prop
  | call {s : CopyUpProtocol} (t : Nat) (kind : CopyUpKind) (p : RelPath) : s.stack t = [] →
      CopyUpStep s (.called s.nextId)
        ({ s with nextId := s.nextId + 1 }.setStack t [⟨s.nextId, kind, p, kind.firstPhase⟩])
  | move {s : CopyUpProtocol} {t : Nat} {f : CopyUpCall} {rest : List CopyUpCall}
      {m : CopyUpMove} : s.stack t = f :: rest → f.Can s m →
      CopyUpStep s (m.event f) (s.perform t f rest m)
  /-- An entry that no copy-up puts there: a created or renamed one, or one that a
  commit below a link of the upper reaches under this name too. -/
  | create {s : CopyUpProtocol} (q : RelPath) (c : UpperCopy) : s.upper q = none →
      CopyUpStep s (.created q) (s.setUpper q c)
  | remove {s : CopyUpProtocol} (q : RelPath) : CopyUpStep s (.removed q) (s.remove q)

/-- The events of a run, the last first. -/
inductive CopyUpRun (s : CopyUpProtocol) : List CopyUpEvent → CopyUpProtocol → Prop
  | refl : CopyUpRun s [] s
  | tail {events : List CopyUpEvent} {s' s'' : CopyUpProtocol} {event : CopyUpEvent} :
      CopyUpRun s events s' → CopyUpStep s' event s'' → CopyUpRun s (event :: events) s''

/-- No call runs. -/
def CopyUpProtocol.Idle (s : CopyUpProtocol) : Prop :=
  (∀ t, s.stack t = []) ∧ ∀ p, s.inFlight p = false

/-! ## The invariant -/

/-- Each call is for the parent of the call below it, which waits for it. -/
def Stacked : List CopyUpCall → Prop
  | [] => True
  | [_] => True
  | f :: g :: rest =>
    (g.phase = .awaitingParent ∧ f.path = g.path.dropLast ∧ f.path ≠ []) ∧ Stacked (g :: rest)

/-- What a call shows of itself to the other calls. -/
def CopyUpCall.claim (f : CopyUpCall) : Claim RelPath := ⟨f.id, f.path, f.holds⟩

def CopyUpProtocol.claims (s : CopyUpProtocol) (t : Nat) : List (Claim RelPath) :=
  (s.stack t).map CopyUpCall.claim

/-- The innermost call waits for no call of its own. -/
def Innermost : List CopyUpCall → Prop
  | [] => True
  | f :: _ => f.phase ≠ .awaitingParent

structure CopyUpProtocol.Reserved (s : CopyUpProtocol) : Prop where
  stacked : ∀ t, Stacked (s.stack t)
  innermost : ∀ t, Innermost (s.stack t)
  sound : Reservation.Sound s.claims s.inFlight s.nextId

theorem stacked_tail {f : CopyUpCall} {rest : List CopyUpCall} (h : Stacked (f :: rest)) :
    Stacked rest := by
  cases rest with
  | nil => exact trivial
  | cons g rest => exact h.2

/-- Below a call on a stack are calls for paths strictly inside its own, and they hold. -/
theorem Stacked.below {rest : List CopyUpCall} :
    ∀ {f : CopyUpCall}, Stacked (f :: rest) → ∀ g ∈ rest,
      g.holds = true ∧ f.path <+: g.path ∧ f.path.length < g.path.length := by
  induction rest with
  | nil => intro f _ g hg; cases hg
  | cons g rest ih =>
    intro f h
    obtain ⟨⟨hphase, hpath, hne⟩, hrest⟩ := h
    have hpre : f.path <+: g.path := by
      rw [hpath]
      exact List.dropLast_prefix _
    have hlen : f.path.length < g.path.length := by
      have hpos : 0 < g.path.dropLast.length := by
        rw [← hpath]
        exact List.length_pos_iff.mpr hne
      rw [hpath]
      simp only [List.length_dropLast] at hpos ⊢
      omega
    intro g' hg'
    rcases List.mem_cons.mp hg' with rfl | hg'
    · exact ⟨by simp [CopyUpCall.holds, hphase], hpre, hlen⟩
    · obtain ⟨hholds, hpre', hlen'⟩ := ih hrest g' hg'
      exact ⟨hholds, hpre.trans hpre', Nat.lt_trans hlen hlen'⟩

/-- A change of the innermost call's phase keeps a stack in order. -/
theorem Stacked.setPhase {f : CopyUpCall} {rest : List CopyUpCall} (h : Stacked (f :: rest))
    (phase : CopyUpPhase) : Stacked ({ f with phase } :: rest) := by
  cases rest with
  | nil => exact trivial
  | cons g rest => exact h

theorem stacked_resume {rest : List CopyUpCall} (h : Stacked rest) (ok : Bool) :
    Stacked (resume ok rest) := by
  cases rest with
  | nil => exact trivial
  | cons g rest => exact h.setPhase _

variable {s s' : CopyUpProtocol} {t : Nat} {f : CopyUpCall} {rest : List CopyUpCall}

theorem claims_setStack (s : CopyUpProtocol) (t : Nat) (fs : List CopyUpCall) :
    (s.setStack t fs).claims = Function.update s.claims t (fs.map CopyUpCall.claim) := by
  funext t'
  by_cases h : t' = t
  · subst h
    simp [CopyUpProtocol.claims, CopyUpProtocol.setStack]
  · simp [CopyUpProtocol.claims, CopyUpProtocol.setStack, h]

theorem stacked_setStack {fs : List CopyUpCall} (h : ∀ t', Stacked (s.stack t'))
    (hfs : Stacked fs) (t' : Nat) : Stacked ((s.setStack t fs).stack t') := by
  by_cases heq : t' = t
  · subst heq
    simpa [CopyUpProtocol.setStack] using hfs
  · simpa [CopyUpProtocol.setStack, heq] using h t'

theorem innermost_setStack {fs : List CopyUpCall} (h : ∀ t', Innermost (s.stack t'))
    (hfs : Innermost fs) (t' : Nat) : Innermost ((s.setStack t fs).stack t') := by
  by_cases heq : t' = t
  · subst heq
    simpa [CopyUpProtocol.setStack] using hfs
  · simpa [CopyUpProtocol.setStack, heq] using h t'

theorem innermost_resume (ok : Bool) (rest : List CopyUpCall) : Innermost (resume ok rest) := by
  cases rest with
  | nil => exact trivial
  | cons g rest => cases ok <;> exact nofun

/-- The caller of a call that returns shows the same claim. -/
theorem claims_resume (h : Stacked (f :: rest)) (ok : Bool) :
    (resume ok rest).map CopyUpCall.claim = rest.map CopyUpCall.claim := by
  cases rest with
  | nil => rfl
  | cons g rest =>
    obtain ⟨⟨hphase, -, -⟩, -⟩ := h
    cases ok <;> simp [resume, CopyUpCall.claim, CopyUpCall.holds, hphase]

/-- A phase in which the call holds as before. -/
theorem CopyUpProtocol.Reserved.goOn {u : CopyUpProtocol} {next : CopyUpPhase} (h : s.Reserved)
    (hstack : s.stack t = f :: rest)
    (hholds : ({ f with phase := next } : CopyUpCall).holds = f.holds)
    (hnext : next ≠ .awaitingParent)
    (hu : u.stack = s.stack ∧ u.inFlight = s.inFlight ∧ u.nextId = s.nextId) :
    (u.setStack t ({ f with phase := next } :: rest)).Reserved := by
  obtain ⟨hst, hin, hid⟩ := hu
  have hclaims : u.claims = s.claims := by
    funext t'
    simp [CopyUpProtocol.claims, hst]
  have hsame : ({ f with phase := next } : CopyUpCall).claim = f.claim := by
    simp only [CopyUpCall.claim, hholds]
  refine ⟨stacked_setStack (by rw [hst]; exact h.stacked) ?_,
    innermost_setStack (by rw [hst]; exact h.innermost) hnext, ?_⟩
  · have hs := h.stacked t
    rw [hstack] at hs
    exact hs.setPhase next
  · rw [claims_setStack, hclaims, List.map_cons, hsame]
    have hold : Function.update s.claims t (f.claim :: rest.map CopyUpCall.claim) = s.claims := by
      rw [Function.update_eq_self_iff]
      simp [CopyUpProtocol.claims, hstack]
    rw [hold]
    show Reservation.Sound s.claims u.inFlight u.nextId
    rw [hin, hid]
    exact h.sound

/-- A move of the innermost call of a thread keeps the invariant. -/
theorem CopyUpProtocol.Reserved.move {m : CopyUpMove} (h : s.Reserved) (hstack : s.stack t = f :: rest)
    (hcan : f.Can s m) : (s.perform t f rest m).Reserved := by
  have hs : Stacked (f :: rest) := by
    rw [← hstack]
    exact h.stacked t
  have hclaims : s.claims t = f.claim :: rest.map CopyUpCall.claim := by
    simp [CopyUpProtocol.claims, hstack]
  have hgo : ∀ {next : CopyUpPhase}, ({ f with phase := next } : CopyUpCall).holds = f.holds →
      next ≠ .awaitingParent → (s.perform t f rest (.goOn next)).Reserved :=
    fun hn hne => h.goOn hstack hn hne ⟨rfl, rfl, rfl⟩
  cases hcan with
  | earlyHit hphase _ =>
    refine ⟨stacked_setStack h.stacked (stacked_resume (stacked_tail hs) true),
      innermost_setStack h.innermost (innermost_resume true rest), ?_⟩
    show Reservation.Sound (s.setStack t (resume true rest)).claims s.inFlight s.nextId
    rw [claims_setStack, claims_resume hs]
    exact h.sound.drop hclaims (by simp [CopyUpCall.claim, CopyUpCall.holds, hphase])
  | reserve hphase hfree =>
    refine ⟨stacked_setStack h.stacked (hs.setPhase _),
      innermost_setStack h.innermost nofun, ?_⟩
    show Reservation.Sound ((s.setInFlight f.path true).setStack t
      ({ f with phase := .checking } :: rest)).claims
        (Function.update s.inFlight f.path true) s.nextId
    rw [claims_setStack]
    exact h.sound.take hclaims hfree
  | parentMissing hphase hne _ =>
    refine ⟨stacked_setStack (s := { s with nextId := s.nextId + 1 }) h.stacked ?_,
      innermost_setStack (s := { s with nextId := s.nextId + 1 }) h.innermost nofun, ?_⟩
    · exact ⟨⟨rfl, rfl, hne⟩, hs.setPhase _⟩
    · show Reservation.Sound ({ s with nextId := s.nextId + 1 }.setStack t _).claims s.inFlight
        (s.nextId + 1)
      rw [claims_setStack, List.map_cons, List.map_cons]
      have hsame : ({ f with phase := .awaitingParent } : CopyUpCall).claim = f.claim := by
        simp [CopyUpCall.claim, CopyUpCall.holds, hphase]
      rw [hsame, ← hclaims]
      exact h.sound.push f.path.dropLast
  | commit hphase _ _ =>
    exact h.goOn (u := s.setUpper f.path f.kind.copied) hstack
      (by simp [CopyUpCall.holds, hphase]) nofun ⟨rfl, rfl, rfl⟩
  | filled hphase _ =>
    exact h.goOn (u := s.setUpper f.path .full) hstack
      (by simp [CopyUpCall.holds, hphase]) nofun ⟨rfl, rfl, rfl⟩
  | finish hphase =>
    rename_i ok
    refine ⟨stacked_setStack h.stacked (stacked_resume (stacked_tail hs) ok),
      innermost_setStack h.innermost (innermost_resume ok rest), ?_⟩
    show Reservation.Sound ((s.setInFlight f.path false).setStack t (resume ok rest)).claims
      (Function.update s.inFlight f.path false) s.nextId
    rw [claims_setStack, claims_resume hs]
    exact h.sound.release hclaims (by simp [CopyUpCall.claim, CopyUpCall.holds, hphase])
  | earlyMiss hphase _ => exact hgo (by simp [CopyUpCall.holds, hphase]) nofun
  | alreadyThere hphase _ _ => exact hgo (by simp [CopyUpCall.holds, hphase]) nofun
  | notThere hphase _ _ => exact hgo (by simp [CopyUpCall.holds, hphase]) nofun
  | shell hphase _ _ => exact hgo (by simp [CopyUpCall.holds, hphase]) nofun
  | noShell hphase _ _ => exact hgo (by simp [CopyUpCall.holds, hphase]) nofun
  | notPrepared hphase => exact hgo (by simp [CopyUpCall.holds, hphase]) nofun
  | parentThere hphase _ => exact hgo (by simp [CopyUpCall.holds, hphase]) nofun
  | throughLink hphase _ => exact hgo (by simp [CopyUpCall.holds, hphase]) nofun
  | ready hphase => exact hgo (by simp [CopyUpCall.holds, hphase]) nofun
  | noSource hphase => exact hgo (by simp [CopyUpCall.holds, hphase]) nofun
  | staged hphase => exact hgo (by simp [CopyUpCall.holds, hphase]) nofun
  | notStaged hphase => exact hgo (by simp [CopyUpCall.holds, hphase]) nofun
  | notCommitted hphase => exact hgo (by simp [CopyUpCall.holds, hphase]) nofun
  | notFilled hphase => exact hgo (by simp [CopyUpCall.holds, hphase]) nofun

theorem CopyUpStep.reserved {event : CopyUpEvent} (h : s.Reserved) (hstep : CopyUpStep s event s') :
    s'.Reserved := by
  cases hstep with
  | call t kind p hidle =>
    refine ⟨stacked_setStack (s := { s with nextId := s.nextId + 1 }) h.stacked trivial,
      innermost_setStack (s := { s with nextId := s.nextId + 1 }) h.innermost ?_, ?_⟩
    · cases kind <;> exact nofun
    show Reservation.Sound ({ s with nextId := s.nextId + 1 }.setStack t _).claims s.inFlight
      (s.nextId + 1)
    have hnone : s.claims t = [] := by simp [CopyUpProtocol.claims, hidle]
    have hnew : ([⟨s.nextId, kind, p, kind.firstPhase⟩] : List CopyUpCall).map CopyUpCall.claim
        = ⟨s.nextId, p, false⟩ :: s.claims t := by
      rw [hnone]
      cases kind <;> rfl
    rw [claims_setStack, hnew]
    exact h.sound.push p
  | move hstack hcan => exact h.move hstack hcan
  | create q c _ => exact ⟨h.stacked, h.innermost, h.sound⟩
  | remove q => exact ⟨h.stacked, h.innermost, h.sound⟩

theorem reserved_of_idle (h : s.Idle) : s.Reserved := by
  obtain ⟨hstack, hfree⟩ := h
  have hnone : ∀ t, s.claims t = [] := by
    intro t
    simp [CopyUpProtocol.claims, hstack]
  refine ⟨?_, ?_, ?_, ?_, ?_, ?_, ?_⟩
  · intro t
    rw [hstack]
    exact trivial
  · intro t
    rw [hstack]
    exact trivial
  · intro p
    simp [hfree, hnone]
  · intro t t' c hc
    simp [hnone] at hc
  · intro t c hc
    simp [hnone] at hc
  · intro t
    simp [hnone]
  · intro t t' c hc
    simp [hnone] at hc

theorem reserved_of_run {events : List CopyUpEvent} (h : s.Reserved)
    (hrun : CopyUpRun s events s') : s'.Reserved := by
  induction hrun with
  | refl => exact h
  | tail _ hstep ih => exact hstep.reserved ih

/-! ## Waiting -/

/-- The innermost call of thread `t` waits for the reservation of `p`. -/
def CopyUpProtocol.WaitsFor (s : CopyUpProtocol) (t : Nat) (p : RelPath) : Prop :=
  ∃ f rest, s.stack t = f :: rest ∧ f.phase = .reserving ∧ f.path = p ∧ s.inFlight p = true

/-- A call of thread `t` holds the reservation of `p`. -/
def CopyUpProtocol.HoldsPath (s : CopyUpProtocol) (t : Nat) (p : RelPath) : Prop :=
  ∃ f ∈ s.stack t, f.holds = true ∧ f.path = p

/-- At most one call holds the reservation of a path. -/
theorem CopyUpProtocol.Reserved.one_holder (h : s.Reserved) {t' : Nat} {f' : CopyUpCall}
    (hf : f ∈ s.stack t) (hf' : f' ∈ s.stack t') (hholds : f.holds = true) (hholds' : f'.holds = true)
    (hpath : f.path = f'.path) : t = t' ∧ f.id = f'.id := by
  have hc : f.claim ∈ s.claims t := List.mem_map_of_mem hf
  have hc' : f'.claim ∈ s.claims t' := List.mem_map_of_mem hf'
  have hid := h.sound.alone t t' _ hc _ hc' hholds hholds' hpath
  exact ⟨h.sound.apart t t' _ hc _ hc' hid, hid⟩

/-- A thread that holds a reservation waits for one of a proper ancestor only. -/
theorem CopyUpProtocol.Reserved.waits_above (h : s.Reserved) {p q : RelPath} (hw : s.WaitsFor t p)
    (hq : s.HoldsPath t q) : p <+: q ∧ p.length < q.length := by
  obtain ⟨f, rest, hstack, hphase, rfl, -⟩ := hw
  obtain ⟨g, hg, hholds, rfl⟩ := hq
  have hs := h.stacked t
  rw [hstack] at hs hg
  rcases List.mem_cons.mp hg with rfl | hg
  · simp [CopyUpCall.holds, hphase] at hholds
  · exact (hs.below g hg).2

/-- No thread waits for itself through other threads. -/
theorem CopyUpProtocol.Reserved.no_waiting_cycle (h : s.Reserved) (t : Nat) :
    ¬Relation.TransGen (fun t t' => ∃ p, s.WaitsFor t p ∧ s.HoldsPath t' p) t t := by
  apply Reservation.no_cycle_of_rank s.WaitsFor s.HoldsPath List.length
  · rintro t p q ⟨f, rest, hstack, -, rfl, -⟩ ⟨f', rest', hstack', -, rfl, -⟩
    rw [hstack] at hstack'
    rw [(List.cons.inj hstack').1]
  · intro t p q hw hq
    exact (h.waits_above hw hq).2

/-! ## Commits -/

/-- The events that take the entry at `p` away. -/
def CopyUpEvent.removes (p : RelPath) : CopyUpEvent → Bool
  | .removed q => q.isPrefixOf p
  | _ => false

def CopyUpEvent.commitsAt (p : RelPath) : CopyUpEvent → Bool
  | .committed _ q => q = p
  | _ => false

def CopyUpEvent.fillsAt (p : RelPath) : CopyUpEvent → Bool
  | .filled _ q => q = p
  | _ => false

theorem isSome_setUpper {p q : RelPath} {c : UpperCopy} (h : (s.upper p).isSome = true) :
    ((s.setUpper q c).upper p).isSome = true := by
  by_cases heq : p = q
  · subst heq
    simp [CopyUpProtocol.setUpper]
  · simpa [CopyUpProtocol.setUpper, heq] using h

/-- An entry stays until a removal takes it. -/
theorem CopyUpStep.upper_kept {event : CopyUpEvent} {p : RelPath} (hstep : CopyUpStep s event s')
    (hkeep : event.removes p = false) (h : (s.upper p).isSome = true) :
    (s'.upper p).isSome = true := by
  cases hstep with
  | call t kind q hidle => exact h
  | create q c _ => exact isSome_setUpper h
  | remove q =>
    have hq : q.isPrefixOf p = false := hkeep
    show ((if q.isPrefixOf p then none else s.upper p) : Option UpperCopy).isSome = true
    rw [hq]
    exact h
  | move hstack hcan =>
    rename_i t f rest m
    cases m with
    | goOn next => exact h
    | reserve => exact h
    | callParent => exact h
    | commit => exact isSome_setUpper h
    | fill => exact isSome_setUpper h
    | failFill => exact h
    | finish ok => exact h
    | leave => exact h

/-- A commit puts an entry where there was none. -/
theorem CopyUpStep.commits {event : CopyUpEvent} {p : RelPath} (hstep : CopyUpStep s event s')
    (h : event.commitsAt p = true) : s.upper p = none ∧ (s'.upper p).isSome = true := by
  cases hstep with
  | call t kind q hidle => cases h
  | create q c _ => cases h
  | remove q => cases h
  | move hstack hcan =>
    rename_i t f rest m
    cases hcan with
    | commit hphase hnone _ =>
      have hp : f.path = p := by simpa [CopyUpMove.event, CopyUpEvent.commitsAt] using h
      subst hp
      exact ⟨hnone, by simp [CopyUpProtocol.perform, CopyUpProtocol.setStack, CopyUpProtocol.setUpper]⟩
    | _ => cases h

/-- An event that needs `mark` not to hold and leaves it true, where other steps keep it
true, happens at most once. -/
theorem once_of_mark {events : List CopyUpEvent} {p : RelPath} {happens : CopyUpEvent → Bool}
    (mark : CopyUpProtocol → Prop)
    (hmark : ∀ {u u' : CopyUpProtocol} {event : CopyUpEvent}, CopyUpStep u event u' →
      event.removes p = false → mark u → mark u')
    (hhappens : ∀ {u u' : CopyUpProtocol} {event : CopyUpEvent}, CopyUpStep u event u' →
      happens event = true → ¬mark u ∧ mark u')
    (hrun : CopyUpRun s events s') (hkeep : ∀ e ∈ events, e.removes p = false) :
    events.countP happens ≤ 1 ∧ (events.countP happens = 1 → mark s') := by
  induction hrun with
  | refl => exact ⟨Nat.zero_le _, fun h => by simp at h⟩
  | tail hrun hstep ih =>
    rename_i events u u' event
    obtain ⟨hle, hone⟩ := ih fun e he => hkeep e (List.mem_cons_of_mem _ he)
    rw [List.countP_cons]
    cases hc : happens event with
    | false =>
      simp only [Bool.false_eq_true, if_false, Nat.add_zero]
      exact ⟨hle, fun h => hmark hstep (hkeep event (List.mem_cons_self ..)) (hone h)⟩
    | true =>
      obtain ⟨hnot, hnow⟩ := hhappens hstep hc
      have hzero : events.countP happens ≠ 1 := fun h => hnot (hone h)
      simp only [if_true]
      exact ⟨by omega, fun _ => hnow⟩

/-- Between two removals at most one call commits at a path. -/
theorem one_commit {events : List CopyUpEvent} {p : RelPath} (hrun : CopyUpRun s events s')
    (hkeep : ∀ e ∈ events, e.removes p = false) :
    events.countP (CopyUpEvent.commitsAt p) ≤ 1 :=
  (once_of_mark (fun u => (u.upper p).isSome = true)
    (fun hstep hevent => hstep.upper_kept hevent)
    (fun hstep hevent => ⟨by rw [(hstep.commits hevent).1]; nofun, (hstep.commits hevent).2⟩)
    hrun hkeep).1

/-- A full copy stays full until a removal takes it. -/
theorem CopyUpStep.full_kept {event : CopyUpEvent} {p : RelPath} (hstep : CopyUpStep s event s')
    (hkeep : event.removes p = false) (h : s.upper p = some .full) : s'.upper p = some .full := by
  have hset : ∀ {q : RelPath} {c : UpperCopy}, p ≠ q ∨ c = .full →
      (s.setUpper q c).upper p = some .full := by
    intro q c hor
    by_cases heq : p = q
    · rcases hor with hne | rfl
      · exact absurd heq hne
      · simp [CopyUpProtocol.setUpper, heq]
    · simpa [CopyUpProtocol.setUpper, heq] using h
  have hne : ∀ {q : RelPath}, s.upper q = none → p ≠ q := by
    rintro q hnone rfl
    rw [hnone] at h
    cases h
  cases hstep with
  | call t kind q hidle => exact h
  | create q c hnone => exact hset (Or.inl (hne hnone))
  | remove q =>
    have hq : q.isPrefixOf p = false := hkeep
    show (if q.isPrefixOf p then none else s.upper p) = some .full
    rw [hq]
    exact h
  | move hstack hcan =>
    cases hcan with
    | commit _ hnone _ => exact hset (Or.inl (hne hnone))
    | filled _ _ => exact hset (Or.inr rfl)
    | _ => exact h

/-- A fill turns a shell into a full copy. -/
theorem CopyUpStep.fills {event : CopyUpEvent} {p : RelPath} (hstep : CopyUpStep s event s')
    (h : event.fillsAt p = true) : s.upper p = some .shell ∧ s'.upper p = some .full := by
  cases hstep with
  | call t kind q hidle => cases h
  | create q c _ => cases h
  | remove q => cases h
  | move hstack hcan =>
    rename_i t f rest m
    cases hcan with
    | filled hphase hshell =>
      have hp : f.path = p := by simpa [CopyUpMove.event, CopyUpEvent.fillsAt] using h
      subst hp
      exact ⟨hshell, by simp [CopyUpProtocol.perform, CopyUpProtocol.setStack,
        CopyUpProtocol.setUpper]⟩
    | _ => cases h

/-- Between two removals at most one call fills a shell. -/
theorem one_fill {events : List CopyUpEvent} {p : RelPath} (hrun : CopyUpRun s events s')
    (hkeep : ∀ e ∈ events, e.removes p = false) :
    events.countP (CopyUpEvent.fillsAt p) ≤ 1 :=
  (once_of_mark (fun u => u.upper p = some .full) (fun hstep hevent => hstep.full_kept hevent)
    (fun hstep hevent => ⟨by rw [(hstep.fills hevent).1]; nofun, (hstep.fills hevent).2⟩)
    hrun hkeep).1

/-! ## Calls that waited -/

/-- The phases of a call that finds the copy of another call. -/
def CopyUpCall.servedPhase (f : CopyUpCall) : Bool :=
  match f.phase with
  | .reserving => true
  | .checking => true
  | .releasing true => true
  | .filling => f.kind = .completeLazy
  | .releasing false => f.kind = .completeLazy
  | _ => false

/-- The upper holds `p`, and the call `id`, while it has not returned, is for `p` and finds
it there. -/
structure CopyUpProtocol.Served (s : CopyUpProtocol) (kind : CopyUpKind) (p : RelPath) (id : Nat) :
    Prop where
  there : (s.upper p).isSome = true
  known : id < s.nextId
  call : ∀ t, ∀ f ∈ s.stack t, f.id = id → f.kind = kind ∧ f.path = p ∧ f.servedPhase = true

/-- Where a call on a stack comes from after a move. -/
theorem mem_stack_perform {m : CopyUpMove} {t' : Nat} {g : CopyUpCall}
    (hstack : s.stack t = f :: rest) (hg : g ∈ (s.perform t f rest m).stack t') :
    g ∈ s.stack t' ∨ g.id = s.nextId ∨ (∃ phase, g = { f with phase }) ∨
      ∃ g₀ rest', rest = g₀ :: rest' ∧ g.id = g₀.id := by
  have hset : ∀ {u : CopyUpProtocol} {fs : List CopyUpCall}, u.stack = s.stack →
      g ∈ (u.setStack t fs).stack t' → g ∈ s.stack t' ∨ t' = t ∧ g ∈ fs := by
    intro u fs hu hmem
    by_cases heq : t' = t
    · subst heq
      exact Or.inr ⟨rfl, by simpa [CopyUpProtocol.setStack] using hmem⟩
    · left
      simpa [CopyUpProtocol.setStack, heq, hu] using hmem
  have hrest : t' = t → g ∈ rest → g ∈ s.stack t' := by
    rintro rfl hg'
    rw [hstack]
    exact List.mem_cons_of_mem _ hg'
  have hhead : ∀ {u : CopyUpProtocol} {phase : CopyUpPhase}, u.stack = s.stack →
      g ∈ (u.setStack t ({ f with phase } :: rest)).stack t' →
      g ∈ s.stack t' ∨ ∃ phase, g = { f with phase } := by
    intro u phase hu hmem
    rcases hset hu hmem with hold | ⟨ht, hnew⟩
    · exact Or.inl hold
    · rcases List.mem_cons.mp hnew with rfl | hnew
      · exact Or.inr ⟨phase, rfl⟩
      · exact Or.inl (hrest ht hnew)
  have hresume : ∀ {u : CopyUpProtocol} {ok : Bool}, u.stack = s.stack →
      g ∈ (u.setStack t (resume ok rest)).stack t' →
      g ∈ s.stack t' ∨ ∃ g₀ rest', rest = g₀ :: rest' ∧ g.id = g₀.id := by
    intro u ok hu hmem
    rcases hset hu hmem with hold | ⟨ht, hnew⟩
    · exact Or.inl hold
    · cases rest with
      | nil => cases hnew
      | cons g₀ rest' =>
        rcases List.mem_cons.mp hnew with rfl | hnew
        · exact Or.inr ⟨g₀, rest', rfl, rfl⟩
        · exact Or.inl (hrest ht (List.mem_cons_of_mem _ hnew))
  cases m with
  | goOn next => exact (hhead rfl hg).imp_right fun h => Or.inr (Or.inl h)
  | reserve => exact (hhead rfl hg).imp_right fun h => Or.inr (Or.inl h)
  | commit => exact (hhead rfl hg).imp_right fun h => Or.inr (Or.inl h)
  | fill => exact (hhead rfl hg).imp_right fun h => Or.inr (Or.inl h)
  | failFill => exact (hhead rfl hg).imp_right fun h => Or.inr (Or.inl h)
  | finish ok => exact (hresume rfl hg).imp_right fun h => Or.inr (Or.inr h)
  | leave => exact (hresume rfl hg).imp_right fun h => Or.inr (Or.inr h)
  | callParent =>
    rcases hset (u := { s with nextId := s.nextId + 1 }) rfl hg with hold | ⟨ht, hnew⟩
    · exact Or.inl hold
    · rcases List.mem_cons.mp hnew with rfl | hnew
      · exact Or.inr (Or.inl rfl)
      · rcases List.mem_cons.mp hnew with rfl | hnew
        · exact Or.inr (Or.inr (Or.inl ⟨_, rfl⟩))
        · exact Or.inl (hrest ht hnew)

/-- The caller below a call waits for its parent. -/
theorem Stacked.caller {g : CopyUpCall} {rest' : List CopyUpCall}
    (h : Stacked (f :: g :: rest')) : g.phase = .awaitingParent :=
  h.1.1

/-- A move of another call leaves a served call where it is. -/
theorem CopyUpProtocol.Served.mem_old {m : CopyUpMove} {kind : CopyUpKind} {p : RelPath} {id : Nat}
    (h : s.Served kind p id) (hr : s.Reserved) (hstack : s.stack t = f :: rest) (hne : f.id ≠ id)
    {t' : Nat} {g : CopyUpCall} (hg : g ∈ (s.perform t f rest m).stack t') (hid : g.id = id) :
    g ∈ s.stack t' := by
  rcases mem_stack_perform hstack hg with hold | hnew | ⟨phase, rfl⟩ | ⟨g₀, rest', rfl, hg₀⟩
  · exact hold
  · have hlt := h.known
    omega
  · exact absurd hid hne
  · -- the caller that is resumed waited for its parent, which no served call does
    have hs := hr.stacked t
    rw [hstack] at hs
    obtain ⟨-, -, hphase⟩ := h.call t g₀ (by rw [hstack]; simp) (hg₀.symm.trans hid)
    simp [CopyUpCall.servedPhase, hs.caller] at hphase

/-- No other call has the id of the innermost call of a thread. -/
theorem CopyUpProtocol.Reserved.same_id (h : s.Reserved) (hstack : s.stack t = f :: rest)
    {t' : Nat} {g : CopyUpCall} (hg : g ∈ s.stack t') (hid : g.id = f.id) :
    t' = t ∧ g ∉ rest := by
  have hf : f ∈ s.stack t := by
    rw [hstack]
    exact List.mem_cons_self ..
  refine ⟨h.sound.apart t' t _ (List.mem_map_of_mem hg) _ (List.mem_map_of_mem hf) hid, ?_⟩
  intro hrest
  have honce := h.sound.once t
  simp only [CopyUpProtocol.claims, hstack, List.map_cons, List.nodup_cons, List.map_map] at honce
  exact honce.1 (List.mem_map.mpr ⟨g, hrest, hid⟩)

/-- After the innermost call went on to another phase, it alone has its id. -/
theorem CopyUpProtocol.Reserved.same_id_goOn {u : CopyUpProtocol} {next : CopyUpPhase}
    (h : s.Reserved) (hstack : s.stack t = f :: rest) (hu : u.stack = s.stack) {t' : Nat}
    {g : CopyUpCall} (hg : g ∈ (u.setStack t ({ f with phase := next } :: rest)).stack t')
    (hid : g.id = f.id) : g = { f with phase := next } := by
  by_cases heq : t' = t
  · subst heq
    have hmem : g ∈ ({ f with phase := next } : CopyUpCall) :: rest := by
      simpa [CopyUpProtocol.setStack] using hg
    rcases List.mem_cons.mp hmem with rfl | hrest
    · rfl
    · exact absurd hrest (h.same_id hstack (by rw [hstack]; simp [hrest]) hid).2
  · have hold : g ∈ s.stack t' := by simpa [CopyUpProtocol.setStack, heq, hu] using hg
    exact absurd (h.same_id hstack hold hid).1 heq

/-- After the innermost call returned, no call has its id. -/
theorem CopyUpProtocol.Reserved.no_id_finish {ok : Bool} (h : s.Reserved)
    (hstack : s.stack t = f :: rest) {t' : Nat} {g : CopyUpCall}
    (hg : g ∈ (s.perform t f rest (.finish ok)).stack t') : g.id ≠ f.id := by
  intro hid
  by_cases heq : t' = t
  · subst heq
    have hmem : g ∈ resume ok rest := by
      simpa [CopyUpProtocol.perform, CopyUpProtocol.setStack] using hg
    obtain ⟨g', hg', hid'⟩ : ∃ g' ∈ rest, g'.id = f.id := by
      cases rest with
      | nil => cases hmem
      | cons g₀ rest' =>
        rcases List.mem_cons.mp hmem with rfl | hmem
        · exact ⟨g₀, List.mem_cons_self .., hid⟩
        · exact ⟨g, List.mem_cons_of_mem _ hmem, hid⟩
    exact absurd hg' (h.same_id hstack (by rw [hstack]; simp [hg']) hid').2
  · have hold : g ∈ s.stack t' := by
      simpa [CopyUpProtocol.perform, CopyUpProtocol.setInFlight, CopyUpProtocol.setStack, heq]
        using hg
    exact absurd (h.same_id hstack hold hid).1 heq

/-- What the events of a run say about a call that is served in it. -/
structure ServedRun (s : CopyUpProtocol) (kind : CopyUpKind) (p : RelPath) (id : Nat)
    (events : List CopyUpEvent) : Prop where
  served : s.Served kind p id
  commits : ∀ q, .committed id q ∉ events
  returns : ∀ ok, .returned id ok ∈ events → ok = true ∨ .fillFailed id ∈ events
  failing : ∀ t, ∀ f ∈ s.stack t, f.id = id → f.phase = .releasing false →
    .fillFailed id ∈ events
  fills : .fillFailed id ∈ events → kind = .completeLazy

/-- A served call in a new phase: it commits nothing, and a phase that returns an error
comes from a fill that failed. -/
theorem ServedRun.goOn {u : CopyUpProtocol} {kind : CopyUpKind} {p : RelPath} {next : CopyUpPhase}
    {events : List CopyUpEvent} {event : CopyUpEvent} (h : ServedRun s kind p f.id events)
    (hr : s.Reserved) (hstack : s.stack t = f :: rest) (hu : u.stack = s.stack)
    (hnext : u.nextId = s.nextId) (hthere : (u.upper p).isSome = true)
    (hphase : ({ f with phase := next } : CopyUpCall).servedPhase = true)
    (hcommit : ∀ q, event ≠ .committed f.id q) (hreturn : ∀ ok, event ≠ .returned f.id ok)
    (hlazy : event = .fillFailed f.id → kind = .completeLazy)
    (hfail : next = .releasing false → event = .fillFailed f.id) :
    ServedRun (u.setStack t ({ f with phase := next } :: rest)) kind p f.id (event :: events) where
  served := by
    refine ⟨hthere, ?_, ?_⟩
    · show f.id < u.nextId
      rw [hnext]
      exact h.served.known
    · intro t' g hg hid
      rw [hr.same_id_goOn hstack hu hg hid]
      obtain ⟨hkind, hpath, -⟩ := h.served.call t f (by rw [hstack]; simp) rfl
      exact ⟨hkind, hpath, hphase⟩
  commits := by
    intro q hmem
    rcases List.mem_cons.mp hmem with heq | hold
    · exact hcommit q heq.symm
    · exact h.commits q hold
  returns := by
    intro ok hmem
    rcases List.mem_cons.mp hmem with heq | hold
    · exact absurd heq.symm (hreturn ok)
    · exact (h.returns ok hold).imp_right (List.mem_cons_of_mem _)
  failing := by
    intro t' g hg hid hp
    rw [hr.same_id_goOn hstack hu hg hid] at hp
    rw [hfail hp]
    exact List.mem_cons_self ..
  fills := by
    intro hmem
    rcases List.mem_cons.mp hmem with heq | hold
    · exact hlazy heq.symm
    · exact h.fills hold

/-- A served call returns success, or the error of a fill of its own that failed. -/
theorem ServedRun.finish {kind : CopyUpKind} {p : RelPath} {ok : Bool} {events : List CopyUpEvent}
    (h : ServedRun s kind p f.id events) (hr : s.Reserved) (hstack : s.stack t = f :: rest)
    (hphase : f.phase = .releasing ok) :
    ServedRun (s.perform t f rest (.finish ok)) kind p f.id (.returned f.id ok :: events) where
  served := ⟨h.served.there, h.served.known,
    fun _ _ hg hid => absurd hid (hr.no_id_finish hstack hg)⟩
  commits := by
    intro q hmem
    rcases List.mem_cons.mp hmem with heq | hold
    · cases heq
    · exact h.commits q hold
  returns := by
    intro ok' hmem
    rcases List.mem_cons.mp hmem with heq | hold
    · cases heq
      cases ok with
      | true => exact Or.inl rfl
      | false =>
        have hfailed := h.failing t f (by rw [hstack]; simp) rfl hphase
        exact Or.inr (List.mem_cons_of_mem _ hfailed)
    · exact (h.returns ok' hold).imp_right (List.mem_cons_of_mem _)
  failing := fun _ _ hg hid => absurd hid (hr.no_id_finish hstack hg)
  fills := by
    intro hmem
    rcases List.mem_cons.mp hmem with heq | hold
    · cases heq
    · exact h.fills hold

/-- The moves of a served call. -/
theorem ServedRun.move_self {m : CopyUpMove} {kind : CopyUpKind} {p : RelPath}
    {events : List CopyUpEvent} (h : ServedRun s kind p f.id events) (hr : s.Reserved)
    (hstack : s.stack t = f :: rest) (hcan : f.Can s m) :
    ServedRun (s.perform t f rest m) kind p f.id (m.event f :: events) := by
  obtain ⟨hkind, hpath, hphase⟩ := h.served.call t f (by rw [hstack]; simp) rfl
  have hthere := h.served.there
  have hgo : ∀ {next : CopyUpPhase}, ({ f with phase := next } : CopyUpCall).servedPhase = true →
      next ≠ .releasing false →
      ServedRun (s.perform t f rest (.goOn next)) kind p f.id (.quiet :: events) :=
    fun hn hne => h.goOn hr hstack rfl rfl hthere hn nofun nofun nofun fun hf => absurd hf hne
  cases hcan with
  | reserve hp _ =>
    exact h.goOn (u := s.setInFlight f.path true) hr hstack rfl rfl hthere rfl nofun nofun nofun
      nofun
  | alreadyThere hp _ _ => exact hgo rfl nofun
  | notThere hp _ hnone =>
    rw [← hpath, hnone] at hthere
    cases hthere
  | shell hp hlazy _ => exact hgo (by simp [CopyUpCall.servedPhase, hlazy]) nofun
  | noShell hp _ _ => exact hgo rfl nofun
  | filled hp _ =>
    exact h.goOn (u := s.setUpper f.path .full) hr hstack rfl rfl (isSome_setUpper hthere) rfl
      nofun nofun nofun nofun
  | notFilled hp =>
    have hlazy : f.kind = .completeLazy := by simpa [CopyUpCall.servedPhase, hp] using hphase
    exact h.goOn hr hstack rfl rfl hthere (by simp [CopyUpCall.servedPhase, hlazy]) nofun
      nofun (fun _ => hkind.symm.trans hlazy) fun _ => rfl
  | finish hp => exact h.finish hr hstack hp
  | earlyHit hp _ => simp [CopyUpCall.servedPhase, hp] at hphase
  | earlyMiss hp _ => simp [CopyUpCall.servedPhase, hp] at hphase
  | notPrepared hp => simp [CopyUpCall.servedPhase, hp] at hphase
  | parentThere hp _ => simp [CopyUpCall.servedPhase, hp] at hphase
  | parentMissing hp _ _ => simp [CopyUpCall.servedPhase, hp] at hphase
  | throughLink hp _ => simp [CopyUpCall.servedPhase, hp] at hphase
  | ready hp => simp [CopyUpCall.servedPhase, hp] at hphase
  | noSource hp => simp [CopyUpCall.servedPhase, hp] at hphase
  | staged hp => simp [CopyUpCall.servedPhase, hp] at hphase
  | notStaged hp => simp [CopyUpCall.servedPhase, hp] at hphase
  | commit hp _ _ => simp [CopyUpCall.servedPhase, hp] at hphase
  | notCommitted hp => simp [CopyUpCall.servedPhase, hp] at hphase

/-- The event says something of the call `id` while it runs. -/
def CopyUpEvent.about (id : Nat) : CopyUpEvent → Bool
  | .committed id' _ => id' = id
  | .fillFailed id' => id' = id
  | .returned id' _ => id' = id
  | _ => false

theorem about_of_other {m : CopyUpMove} {id : Nat} (hne : f.id ≠ id) :
    (m.event f).about id = false := by
  cases m <;> simp [CopyUpMove.event, CopyUpEvent.about, hne]

theorem nextId_le_perform (s : CopyUpProtocol) (t : Nat) (f : CopyUpCall) (rest : List CopyUpCall)
    (m : CopyUpMove) : s.nextId ≤ (s.perform t f rest m).nextId := by
  cases m with
  | callParent => exact Nat.le_succ _
  | _ => exact Nat.le_refl _

/-- A step that keeps the entry keeps a call served. -/
theorem ServedRun.step {kind : CopyUpKind} {p : RelPath} {id : Nat} {events : List CopyUpEvent}
    {event : CopyUpEvent} (h : ServedRun s kind p id events) (hr : s.Reserved)
    (hstep : CopyUpStep s event s') (hkeep : event.removes p = false) :
    ServedRun s' kind p id (event :: events) := by
  have hthere := hstep.upper_kept hkeep h.served.there
  -- a step that only keeps the served call's frame and says nothing of it
  have hframe : s.nextId ≤ s'.nextId →
      (∀ t, ∀ g ∈ s'.stack t, g.id = id → g ∈ s.stack t) → event.about id = false →
      ServedRun s' kind p id (event :: events) := by
    intro hnext hold habout
    have hother : ∀ {e : CopyUpEvent}, e.about id = true → e ∈ event :: events → e ∈ events := by
      intro e he hmem
      rcases List.mem_cons.mp hmem with rfl | hmem
      · rw [habout] at he
        cases he
      · exact hmem
    refine ⟨⟨hthere, Nat.lt_of_lt_of_le h.served.known hnext, ?_⟩, ?_, ?_, ?_, ?_⟩
    · intro t g hg hid
      exact h.served.call t g (hold t g hg hid) hid
    · intro q hmem
      exact h.commits q (hother (decide_eq_true rfl) hmem)
    · intro ok hmem
      exact (h.returns ok (hother (decide_eq_true rfl) hmem)).imp_right (List.mem_cons_of_mem _)
    · intro t g hg hid hp
      exact List.mem_cons_of_mem _ (h.failing t g (hold t g hg hid) hid hp)
    · intro hmem
      exact h.fills (hother (decide_eq_true rfl) hmem)
  cases hstep with
  | call t kind' q hidle =>
    refine hframe (Nat.le_succ _) ?_ rfl
    intro t' g hg hid
    by_cases heq : t' = t
    · subst heq
      have hnew : g.id = s.nextId := by
        have hmem : g ∈ ([⟨s.nextId, kind', q, kind'.firstPhase⟩] : List CopyUpCall) := by
          simpa [CopyUpProtocol.setStack] using hg
        rw [List.mem_singleton.mp hmem]
      have hlt := h.served.known
      omega
    · simpa [CopyUpProtocol.setStack, heq] using hg
  | create q c _ => exact hframe (Nat.le_refl _) (fun _ _ hg _ => hg) rfl
  | remove q => exact hframe (Nat.le_refl _) (fun _ _ hg _ => hg) rfl
  | move hstack hcan =>
    rename_i t f rest m
    by_cases hid : f.id = id
    · subst hid
      exact h.move_self hr hstack hcan
    · exact hframe (nextId_le_perform ..) (fun _ _ hg hg' => h.served.mem_old hr hstack hid hg hg')
        (about_of_other hid)

theorem ServedRun.run {kind : CopyUpKind} {p : RelPath} {id : Nat} {events : List CopyUpEvent}
    (h : ServedRun s kind p id []) (hr : s.Reserved) (hrun : CopyUpRun s events s')
    (hkeep : ∀ e ∈ events, e.removes p = false) : ServedRun s' kind p id events := by
  induction hrun with
  | refl => exact h
  | tail hrun hstep ih =>
    have hbefore := ih fun e he => hkeep e (List.mem_cons_of_mem _ he)
    exact hbefore.step (reserved_of_run hr hrun) hstep (hkeep _ (List.mem_cons_self ..))

end LayerMount
