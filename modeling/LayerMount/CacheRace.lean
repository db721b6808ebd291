import LayerMount.LayerTree
import Mathlib.Logic.Relation

/-!
# Concurrent lookups and the path cache

A lookup reads the cache, on a miss probes the layers, and then puts the result.
No lock is held across the three.  A mutating call changes the layers and then
invalidates, once or for several paths in turn.  `CallStep` is one such step of one of
any number of calls, and a run is any interleaving of them.

Two things leave an answer of old layers in the cache.  A change may reach a path that
no invalidation of its call covers, and a lookup that probed before a change may put
after the last invalidation of its path.  A run in which neither happens leaves only
current answers (`quiet_cache_current`).  `LayerMount.MutationFrames` says which of the
engine's calls cover what they change, and has a run of each of the two kinds.

The probes of one lookup are one step.
-/

namespace LayerMount

/-! ## One lookup in steps -/

/-- What the probes of the layers give for a path that the cache does not have. -/
inductive ProbeOutcome where
  | redirect (target : RelPath)
  | put (resolved : ResolvedPath)
  | absent
  deriving DecidableEq, Repr

/-- `ResolveInUpper`, `HidingInUpper` and `FindInLowers`, as `ResolvePathInternal`
calls them after a cache miss. -/
def probeLayers (c : LayerConfig) (p : RelPath) : ProbeOutcome :=
  match c.upper.get p with
  | .entry e =>
    match e.redirect with
    | some target => .redirect target
    | none => .put { absolutePath := some p, source := .upper, attributes := some e.attributes }
  | _ =>
    match hidingInUpper c p with
    | .whiteout => .put { isWhiteout := true }
    | .opaqueMarker => .put {}
    | .nonDirectoryOrLink => .put {}
    | .none =>
      if !(findInLowers c p 0).found then .absent else .put (findInLowers c p 0)

/-- What the probes of a path give, by what the upper and the lowers have there. -/
inductive Probed (c : LayerConfig) (p : RelPath) : ProbeOutcome → Prop
  | redirect {e : LayerEntry} {target : RelPath} (hget : c.upper.get p = .entry e)
    (hredirect : e.redirect = some target) : Probed c p (.redirect target)
  | upper {e : LayerEntry} (hget : c.upper.get p = .entry e) (hredirect : e.redirect = none) :
    Probed c p
      (.put { absolutePath := some p, source := .upper, attributes := some e.attributes })
  | hidden {r : ResolvedPath} (hmissed : (c.upper.get p).exists = false)
    (hfound : r.found = false) : Probed c p (.put r)
  | absent (hmissed : (c.upper.get p).exists = false) (hhiding : hidingInUpper c p = .none)
    (hfound : (findInLowers c p 0).found = false) : Probed c p .absent
  | lower (hmissed : (c.upper.get p).exists = false) (hhiding : hidingInUpper c p = .none)
    (hfound : (findInLowers c p 0).found = true) : Probed c p (.put (findInLowers c p 0))

theorem probeLayers_probed (c : LayerConfig) (p : RelPath) : Probed c p (probeLayers c p) := by
  unfold probeLayers
  split
  · next e hget =>
    split
    · next target hredirect => exact .redirect hget hredirect
    · next hredirect => exact .upper hget hredirect
  · next hget =>
    have hmissed : (c.upper.get p).exists = false := by
      cases hprobe : c.upper.get p with
      | entry e => exact absurd hprobe (hget e)
      | missing => rfl
      | unreadable => rfl
    split
    · exact .hidden hmissed rfl
    · exact .hidden hmissed rfl
    · exact .hidden hmissed rfl
    · next hhiding =>
      split
      · next hfound => exact .absent hmissed hhiding (by simpa using hfound)
      · next hfound => exact .lower hmissed hhiding (by simpa using hfound)

/-- `ResolvePathInternal` is a look into the cache, then a probe, then a put. -/
theorem resolvePathInternal_steps (c : LayerConfig) (redirects : Nat) (p : RelPath)
    (cache : Cache) :
    ((resolvePathInternal c (redirects + 1) p cache).1,
        (resolvePathInternal c (redirects + 1) p cache).2.2)
      = if p.isEmpty then (resolveRoot c, cache)
        else if !isResolvablePath c p then ({}, cache)
        else
          match cache.get p with
          | (some cached, cache) => (cached, cache)
          | (none, cache) =>
            match probeLayers c p with
            | .redirect target =>
              ((resolvePathInternal c redirects target cache).1,
                (resolvePathInternal c redirects target cache).2.2)
            | .put r => (r, cache.put p r)
            | .absent => ({}, cache) := by
  rw [resolvePathInternal]
  split
  · rfl
  split
  · rfl
  rcases hget : cache.get p with ⟨_ | cached, cache'⟩
  · simp only [probeLayers]
    cases hup : c.upper.get p with
    | entry e => cases hred : e.redirect <;> simp only [hred]
    | missing =>
      cases hidingInUpper c p with
      | none => dsimp only; split <;> rfl
      | whiteout => rfl
      | opaqueMarker => rfl
      | nonDirectoryOrLink => rfl
    | unreadable =>
      cases hidingInUpper c p with
      | none => dsimp only; split <;> rfl
      | whiteout => rfl
      | opaqueMarker => rfl
      | nonDirectoryOrLink => rfl
  · rfl

/-- What a lookup that uses no cache gives. -/
def uncached (c : LayerConfig) (p : RelPath) : ResolvedPath := (resolvePath c p {}).1

/-- What a probe puts is what an uncached lookup of the same path gives. -/
theorem uncached_of_put {c : LayerConfig} {p : RelPath} {r : ResolvedPath} (hp : p ≠ [])
    (hres : isResolvablePath c p = true) (h : probeLayers c p = .put r) : uncached c p = r := by
  have hne : p.isEmpty = false := by simpa using hp
  have hmiss : Cache.get {} p = (none, {}) := rfl
  have hsteps := resolvePathInternal_steps c kMaxRedirectDepth p {}
  simp only [hne, hres, hmiss, h, Bool.not_true, Bool.false_eq_true, if_false] at hsteps
  exact congrArg Prod.fst hsteps

/-! ## Mutating calls -/

/-- What a lookup reads of the layers at a path. -/
def answerAt (c : LayerConfig) (p : RelPath) : Bool × ResolvedPath :=
  (isResolvablePath c p, uncached c p)

theorem answerAt_eq {c c' : LayerConfig} {p : RelPath} : answerAt c p = answerAt c' p ↔
    isResolvablePath c p = isResolvablePath c' p ∧ uncached c p = uncached c' p := by
  simp only [answerAt, Prod.mk.injEq]

/-- The keys that `Invalidate` or `InvalidateWithAncestors` removes. -/
def invalidationCovers (path : RelPath) (withAncestors : Bool) (key : RelPath) : Bool :=
  key = path || isInsideDirectory key path || (withAncestors && isInsideDirectory path key)

/-- One call of `Invalidate` or `InvalidateWithAncestors`. -/
structure Invalidation where
  path : RelPath
  withAncestors : Bool := true
  deriving DecidableEq, Repr

def Invalidation.covers (i : Invalidation) (key : RelPath) : Bool :=
  invalidationCovers i.path i.withAncestors key

def Invalidation.run (i : Invalidation) (cache : Cache) : Cache :=
  if i.withAncestors then cache.invalidateWithAncestors i.path else cache.invalidate i.path

/-- One of the invalidations removes the key. -/
def covered (invalidations : List Invalidation) (key : RelPath) : Bool :=
  invalidations.any fun i => i.covers key

/-- A change of the layers together with the invalidations that follow it. -/
structure Mutation where
  before : LayerConfig
  after : LayerConfig
  invalidations : List Invalidation

/-- The invalidations cover every path whose answer the change changes. -/
def Mutation.Covers (m : Mutation) : Prop :=
  ∀ key, covered m.invalidations key = false → answerAt m.after key = answerAt m.before key

/-! ## Calls and their interleavings -/

/-- Where a call is.  A stamp is the time of a step that read or changed the layers, and
`left` are the invalidations still to come. -/
inductive CacheCall where
  | idle
  | looking (redirects : Nat) (p : RelPath)
  | missed (redirects : Nat) (p : RelPath) (checkedAt : Nat)
  | probed (p : RelPath) (resolved : ResolvedPath) (checkedAt probedAt : Nat)
  | changed (m : Mutation) (left : List Invalidation) (changedAt : Nat)

/-- The check of the path and the read of the cache. -/
def afterLook (c : LayerConfig) (cache : Cache) (now : Nat) : Nat → RelPath → CacheCall × Cache
  | 0, _ => (.idle, cache)
  | redirects + 1, p =>
    if p.isEmpty || !isResolvablePath c p then (.idle, cache)
    else
      match cache.get p with
      | (some _, cache) => (.idle, cache)
      | (none, cache) => (.missed redirects p now, cache)

/-- The probe of the layers after a miss. -/
def afterProbe (c : LayerConfig) (now : Nat) (redirects : Nat) (p : RelPath) (checkedAt : Nat) :
    CacheCall :=
  match probeLayers c p with
  | .redirect target => .looking redirects target
  | .put r => .probed p r checkedAt now
  | .absent => .idle

structure Calls where
  layers : LayerConfig
  cache : Cache
  /-- The state of each thread's call. -/
  call : Nat → CacheCall
  clock : Nat

namespace Calls

/-- Thread `t` goes on to `next`, and time passes. -/
def goOn (s : Calls) (t : Nat) (next : CacheCall) : Calls :=
  { s with call := Function.update s.call t next, clock := s.clock + 1 }

end Calls

/-- One step of the call of thread `t`. -/
inductive CallStep : Calls → Nat → Calls → Prop
  | resolve {s : Calls} {t : Nat} (p : RelPath) : s.call t = .idle →
      CallStep s t (s.goOn t (.looking (kMaxRedirectDepth + 1) p))
  | look {s : Calls} {t : Nat} {redirects : Nat} {p : RelPath} :
      s.call t = .looking redirects p →
      CallStep s t ({ s with cache := (afterLook s.layers s.cache s.clock redirects p).2 }.goOn t
        (afterLook s.layers s.cache s.clock redirects p).1)
  | probe {s : Calls} {t : Nat} {redirects : Nat} {p : RelPath} {checkedAt : Nat} :
      s.call t = .missed redirects p checkedAt →
      CallStep s t (s.goOn t (afterProbe s.layers s.clock redirects p checkedAt))
  | put {s : Calls} {t : Nat} {p : RelPath} {r : ResolvedPath} {checkedAt probedAt : Nat} :
      s.call t = .probed p r checkedAt probedAt →
      CallStep s t ({ s with cache := s.cache.put p r }.goOn t .idle)
  | change {s : Calls} {t : Nat} (m : Mutation) : s.call t = .idle → m.before = s.layers →
      CallStep s t ({ s with layers := m.after }.goOn t (.changed m m.invalidations s.clock))
  | invalidate {s : Calls} {t : Nat} {m : Mutation} {i : Invalidation} {left : List Invalidation}
      {changedAt : Nat} : s.call t = .changed m (i :: left) changedAt →
      CallStep s t ({ s with cache := i.run s.cache }.goOn t (.changed m left changedAt))
  | finish {s : Calls} {t : Nat} {m : Mutation} {changedAt : Nat} :
      s.call t = .changed m [] changedAt → CallStep s t (s.goOn t .idle)

/-! ## Overtaken lookups -/

/-- The change `m`, made at `changedAt`, changed what the call had read before of a path
among `keys`. -/
def CacheCall.ReadBefore (m : Mutation) (changedAt : Nat) (keys : RelPath → Bool) :
    CacheCall → Prop
  | .missed _ p checkedAt => keys p = true ∧ checkedAt < changedAt ∧
      isResolvablePath m.after p ≠ isResolvablePath m.before p
  | .probed p _ checkedAt probedAt => keys p = true ∧
      ((checkedAt < changedAt ∧ isResolvablePath m.after p ≠ isResolvablePath m.before p) ∨
        (probedAt < changedAt ∧ uncached m.after p ≠ uncached m.before p))
  | _ => False

/-- No invalidation overtakes a lookup: when thread `t` is about to invalidate, no call
still carries an answer that the change of `t` has outdated, of a path that no later
invalidation of `t` covers. -/
def Calls.NotOvertaking (s : Calls) (t : Nat) : Prop :=
  ∀ m i left changedAt, s.call t = .changed m (i :: left) changedAt →
    ∀ t', ¬(s.call t').ReadBefore m changedAt fun p => !covered left p

/-- The change that thread `t` has made is covered by its invalidations. -/
def Calls.Covering (s : Calls) (t : Nat) : Prop :=
  ∀ m left changedAt, s.call t = .changed m left changedAt → m.Covers

/-- Steps that overtake no lookup and change nothing that they do not invalidate. -/
def OrderlyStep (s s' : Calls) : Prop :=
  ∃ t, CallStep s t s' ∧ s.NotOvertaking t ∧ s'.Covering t

/-- Every entry of the cache is what an uncached lookup of its key gives. -/
def Calls.CacheCurrent (s : Calls) : Prop :=
  ∀ e ∈ s.cache.entries, e.resolved = uncached s.layers e.key

/-- Every call has returned. -/
def Calls.Quiet (s : Calls) : Prop := ∀ t, s.call t = .idle

/-! ## The invariant -/

/-- What the call has read is what the layers say now. -/
def CacheCall.Current (c : LayerConfig) : CacheCall → Prop
  | .missed _ p _ => isResolvablePath c p = true
  | .probed p r _ _ => r = uncached c p
  | _ => True

/-- The stamps of the call are in the past, and its path is not the root. -/
def CacheCall.Dated (clock : Nat) : CacheCall → Prop
  | .missed _ p checkedAt => p ≠ [] ∧ checkedAt < clock
  | .probed _ _ checkedAt probedAt => checkedAt < clock ∧ probedAt < clock
  | _ => True

/-- A change is made and the invalidations `left` are still to come. -/
def Calls.Pending (s : Calls) (m : Mutation) (left : List Invalidation) (changedAt : Nat) :
    Prop :=
  ∃ t, s.call t = .changed m left changedAt

/-- What is cached for `key` is excused: an invalidation of it is still to come. -/
def Calls.Excused (s : Calls) (key : RelPath) : Prop :=
  ∃ m left changedAt, s.Pending m left changedAt ∧ covered left key = true ∧
    answerAt m.after key ≠ answerAt m.before key

/-- What the call has read is excused. -/
def Calls.ExcusedCall (s : Calls) (call : CacheCall) : Prop :=
  ∃ m left changedAt, s.Pending m left changedAt ∧ call.ReadBefore m changedAt (covered left)

/-- What is not current is excused by a pending change. -/
structure Calls.Coherent (s : Calls) : Prop where
  cache : ∀ e ∈ s.cache.entries, e.resolved = uncached s.layers e.key ∨ s.Excused e.key
  call : ∀ t, (s.call t).Current s.layers ∨ s.ExcusedCall (s.call t)
  dated : ∀ t, (s.call t).Dated s.clock

theorem CacheCall.Dated.mono {call : CacheCall} {i j : Nat} (h : call.Dated i) (hij : i ≤ j) :
    call.Dated j := by
  cases call with
  | idle => exact trivial
  | looking redirects p => exact trivial
  | changed m left changedAt => exact trivial
  | missed redirects p checkedAt => exact ⟨h.1, Nat.lt_of_lt_of_le h.2 hij⟩
  | probed p r checkedAt probedAt =>
    exact ⟨Nat.lt_of_lt_of_le h.1 hij, Nat.lt_of_lt_of_le h.2 hij⟩

variable {s s' : Calls} {t : Nat}

theorem pending_goOn {next : CacheCall} {m : Mutation} {left : List Invalidation}
    {changedAt : Nat} (ht : ∀ m left i, s.call t ≠ .changed m left i)
    (h : s.Pending m left changedAt) : (s.goOn t next).Pending m left changedAt := by
  obtain ⟨t', ht'⟩ := h
  refine ⟨t', ?_⟩
  have hne : t' ≠ t := by
    intro heq
    subst heq
    exact ht m left changedAt ht'
  simp only [Calls.goOn, Function.update_of_ne hne, ht']

/-- A step of a lookup: the layers stay, and no change stops pending. -/
theorem Calls.Coherent.goOn {next : CacheCall} (h : s.Coherent) (cache : Cache)
    (ht : ∀ m left i, s.call t ≠ .changed m left i)
    (hcache : ∀ e ∈ cache.entries, e.resolved = uncached s.layers e.key ∨ s.Excused e.key)
    (hnext : next.Current s.layers ∨ s.ExcusedCall next)
    (hdated : next.Dated (s.clock + 1)) : ({ s with cache }.goOn t next).Coherent where
  cache := by
    intro e he
    rcases hcache e he with hcur | ⟨m, left, i, hpend, hleft, hne⟩
    · exact Or.inl hcur
    · exact Or.inr ⟨m, left, i, pending_goOn (s := { s with cache }) ht hpend, hleft, hne⟩
  call := by
    intro t'
    by_cases heq : t' = t
    · subst heq
      simp only [Calls.goOn, Function.update_self]
      rcases hnext with hcur | ⟨m, left, i, hpend, hread⟩
      · exact Or.inl hcur
      · exact Or.inr ⟨m, left, i, pending_goOn (s := { s with cache }) ht hpend, hread⟩
    · simp only [Calls.goOn, Function.update_of_ne heq]
      rcases h.call t' with hcur | ⟨m, left, i, hpend, hread⟩
      · exact Or.inl hcur
      · exact Or.inr ⟨m, left, i, pending_goOn (s := { s with cache }) ht hpend, hread⟩
  dated := by
    intro t'
    by_cases heq : t' = t
    · subst heq
      simpa only [Calls.goOn, Function.update_self] using hdated
    · simp only [Calls.goOn, Function.update_of_ne heq]
      exact (h.dated t').mono (Nat.le_succ _)

/-! ## The cache's operations -/

theorem mem_get_entries {cache : Cache} {p : RelPath} {e : CacheEntry}
    (h : e ∈ (cache.get p).2.entries) :
    ∃ e' ∈ cache.entries, e'.key = e.key ∧ e'.resolved = e.resolved := by
  unfold Cache.get at h
  split at h
  · exact ⟨e, h, rfl, rfl⟩
  · obtain ⟨e', he', rfl⟩ := List.mem_map.mp h
    refine ⟨e', he', ?_⟩
    split <;> exact ⟨rfl, rfl⟩

theorem mem_put_entries {cache : Cache} {p : RelPath} {r : ResolvedPath} {e : CacheEntry}
    (h : e ∈ (cache.put p r).entries) : (e.key = p ∧ e.resolved = r) ∨ e ∈ cache.entries := by
  have hnew : e ∈ (⟨p, r, cache.clock⟩ : CacheEntry) :: cache.entries.filter (fun e => e.key ≠ p) := by
    unfold Cache.put at h
    dsimp only at h
    split at h
    · unfold Cache.evictLRU at h
      split at h
      · exact h
      · exact (List.mem_filter.mp h).1
    · exact h
  rcases List.mem_cons.mp hnew with rfl | hold
  · exact Or.inl ⟨rfl, rfl⟩
  · exact Or.inr (List.mem_filter.mp hold).1

theorem mem_invalidate_entries {cache : Cache} {i : Invalidation} {e : CacheEntry}
    (h : e ∈ (i.run cache).entries) : e ∈ cache.entries ∧ i.covers e.key = false := by
  unfold Invalidation.run at h
  cases hanc : i.withAncestors with
  | true =>
    rw [hanc, if_pos rfl] at h
    obtain ⟨hmem, hkeep⟩ := List.mem_filter.mp h
    refine ⟨hmem, ?_⟩
    simpa [Invalidation.covers, invalidationCovers, hanc] using hkeep
  | false =>
    rw [hanc] at h
    obtain ⟨hmem, hkeep⟩ := List.mem_filter.mp h
    refine ⟨hmem, ?_⟩
    simpa [Invalidation.covers, invalidationCovers, hanc] using hkeep

theorem covered_cons (i : Invalidation) (left : List Invalidation) (key : RelPath) :
    covered (i :: left) key = (i.covers key || covered left key) := rfl

/-! ## One step -/

theorem not_changed_of_call {call : CacheCall} (hcall : s.call t = call)
    (h : ∀ m left i, call ≠ .changed m left i) : ∀ m left i, s.call t ≠ .changed m left i := by
  rw [hcall]
  exact h

theorem look_coherent {redirects : Nat} {p : RelPath} (h : s.Coherent)
    (hcall : s.call t = .looking redirects p) :
    ({ s with cache := (afterLook s.layers s.cache s.clock redirects p).2 }.goOn t
      (afterLook s.layers s.cache s.clock redirects p).1).Coherent := by
  have ht := not_changed_of_call hcall nofun
  have hidle : ({ s with cache := s.cache }.goOn t .idle).Coherent :=
    h.goOn _ ht h.cache (Or.inl trivial) trivial
  cases redirects with
  | zero => exact hidle
  | succ redirects =>
    rw [afterLook]
    split
    · exact hidle
    · rename_i hres
      rw [Bool.not_eq_true, Bool.or_eq_false_iff, Bool.not_eq_false'] at hres
      have hentries : ∀ e ∈ (s.cache.get p).2.entries,
          e.resolved = uncached s.layers e.key ∨ s.Excused e.key := by
        intro e he
        obtain ⟨e', he', hkey, hval⟩ := mem_get_entries he
        rw [← hkey, ← hval]
        exact h.cache e' he'
      split
      · rename_i hget
        rw [hget] at hentries
        exact h.goOn _ ht hentries (Or.inl trivial) trivial
      · rename_i hget
        rw [hget] at hentries
        refine h.goOn _ ht hentries (Or.inl hres.2) ⟨?_, Nat.lt_succ_self _⟩
        simpa using hres.1

theorem probe_coherent {redirects : Nat} {p : RelPath} {checkedAt : Nat} (h : s.Coherent)
    (hcall : s.call t = .missed redirects p checkedAt) :
    (s.goOn t (afterProbe s.layers s.clock redirects p checkedAt)).Coherent := by
  have ht := not_changed_of_call hcall nofun
  have hdated := h.dated t
  have hcur := h.call t
  rw [hcall] at hdated hcur
  refine h.goOn s.cache ht h.cache ?_ ?_
  · unfold afterProbe
    split
    · exact Or.inl trivial
    · rename_i r hput
      rcases hcur with hres | ⟨m, left, i, hpend, hleft, hread⟩
      · exact Or.inl (uncached_of_put hdated.1 hres hput).symm
      · exact Or.inr ⟨m, left, i, hpend, hleft, Or.inl hread⟩
    · exact Or.inl trivial
  · unfold afterProbe
    split
    · exact trivial
    · exact ⟨Nat.lt_succ_of_lt hdated.2, Nat.lt_succ_self _⟩
    · exact trivial

theorem put_coherent {p : RelPath} {r : ResolvedPath} {checkedAt probedAt : Nat}
    (h : s.Coherent) (hcall : s.call t = .probed p r checkedAt probedAt) :
    ({ s with cache := s.cache.put p r }.goOn t .idle).Coherent := by
  have ht := not_changed_of_call hcall nofun
  have hcur := h.call t
  rw [hcall] at hcur
  refine h.goOn _ ht ?_ (Or.inl trivial) trivial
  intro e he
  rcases mem_put_entries he with ⟨rfl, rfl⟩ | hold
  · rcases hcur with hcur | ⟨m, left, i, hpend, hleft, hread⟩
    · exact Or.inl hcur
    · refine Or.inr ⟨m, left, i, hpend, hleft, ?_⟩
      rcases hread with ⟨-, hne⟩ | ⟨-, hne⟩
      · exact fun heq => hne (answerAt_eq.mp heq).1
      · exact fun heq => hne (answerAt_eq.mp heq).2
  · exact h.cache e hold

/-- A change outdates what it outdates with itself as the excuse, since its invalidations
cover it. -/
theorem change_coherent (m : Mutation) (h : s.Coherent) (hidle : s.call t = .idle)
    (hbefore : m.before = s.layers) (hcovers : m.Covers) :
    ({ s with layers := m.after }.goOn t (.changed m m.invalidations s.clock)).Coherent := by
  have ht := not_changed_of_call hidle nofun
  have hnew : ({ s with layers := m.after }.goOn t (.changed m m.invalidations s.clock)).Pending m
      m.invalidations s.clock := ⟨t, by simp only [Calls.goOn, Function.update_self]⟩
  have hkeep : ∀ {m' left i}, s.Pending m' left i →
      ({ s with layers := m.after }.goOn t
        (.changed m m.invalidations s.clock)).Pending m' left i :=
    fun hpend => pending_goOn (s := { s with layers := m.after }) ht hpend
  have hleft : ∀ {key}, answerAt m.after key ≠ answerAt m.before key →
      covered m.invalidations key = true := by
    intro key hne
    by_contra hnot
    exact hne (hcovers key (by simpa using hnot))
  constructor
  · intro e he
    rcases h.cache e he with hcur | ⟨m', left, i, hpend, hold, hne⟩
    · by_cases hsame : answerAt m.after e.key = answerAt m.before e.key
      · left
        show e.resolved = uncached m.after e.key
        rw [hcur, ← hbefore, (answerAt_eq.mp hsame).2]
      · exact Or.inr ⟨m, _, s.clock, hnew, hleft hsame, hsame⟩
    · exact Or.inr ⟨m', left, i, hkeep hpend, hold, hne⟩
  · intro t'
    by_cases heq : t' = t
    · subst heq
      simp only [Calls.goOn, Function.update_self]
      exact Or.inl trivial
    · have hcall' : ({ s with layers := m.after }.goOn t
          (.changed m m.invalidations s.clock)).call t' = s.call t' := by
        simp only [Calls.goOn, Function.update_of_ne heq]
      rw [hcall']
      have hdated := h.dated t'
      rcases h.call t' with hcur | ⟨m', left, i, hpend, hread⟩
      · cases hc : s.call t' with
        | idle => exact Or.inl trivial
        | looking redirects p => exact Or.inl trivial
        | changed m' left i => exact Or.inl trivial
        | missed redirects p checkedAt =>
          rw [hc] at hcur hdated
          by_cases hsame : isResolvablePath m.after p = isResolvablePath m.before p
          · left
            rw [hbefore] at hsame
            exact hsame.trans hcur
          · have hne : answerAt m.after p ≠ answerAt m.before p :=
              fun heq => hsame (answerAt_eq.mp heq).1
            exact Or.inr ⟨m, _, s.clock, hnew, hleft hne, hdated.2, hsame⟩
        | probed p r checkedAt probedAt =>
          rw [hc] at hcur hdated
          by_cases hsame : uncached m.after p = uncached m.before p
          · left
            rw [hbefore] at hsame
            exact Eq.trans hcur hsame.symm
          · have hne : answerAt m.after p ≠ answerAt m.before p :=
              fun heq => hsame (answerAt_eq.mp heq).2
            exact Or.inr ⟨m, _, s.clock, hnew, hleft hne, Or.inr ⟨hdated.2, hsame⟩⟩
      · exact Or.inr ⟨m', left, i, hkeep hpend, hread⟩
  · intro t'
    by_cases heq : t' = t
    · subst heq
      simp only [Calls.goOn, Function.update_self]
      exact trivial
    · simp only [Calls.goOn, Function.update_of_ne heq]
      exact (h.dated t').mono (Nat.le_succ _)

/-- What a call has read of more paths, it has read of one that the first keys have or of
one that they lack. -/
theorem CacheCall.ReadBefore.split {m : Mutation} {changedAt : Nat} {keys some : RelPath → Bool}
    {call : CacheCall} (h : call.ReadBefore m changedAt keys) :
    call.ReadBefore m changedAt some ∨ call.ReadBefore m changedAt fun p => !some p := by
  cases call with
  | idle => exact h.elim
  | looking redirects p => exact h.elim
  | changed m' left i => exact h.elim
  | missed redirects p checkedAt =>
    cases hp : some p with
    | true => exact .inl ⟨hp, h.2⟩
    | false => exact .inr ⟨by simp [hp], h.2⟩
  | probed p r checkedAt probedAt =>
    cases hp : some p with
    | true => exact .inl ⟨hp, h.2⟩
    | false => exact .inr ⟨by simp [hp], h.2⟩

/-- A step of thread `t` from one list of invalidations to the next. -/
theorem pending_left {m m' : Mutation} {left left' : List Invalidation}
    {changedAt i : Nat} {next : CacheCall} (cache : Cache)
    (hcall : s.call t = .changed m left changedAt) (hpend : s.Pending m' left' i) :
    (m' = m ∧ left' = left ∧ i = changedAt) ∨
      ({ s with cache }.goOn t next).Pending m' left' i := by
  obtain ⟨t', ht'⟩ := hpend
  by_cases heq : t' = t
  · subst heq
    rw [hcall] at ht'
    cases ht'
    exact Or.inl ⟨rfl, rfl, rfl⟩
  · refine Or.inr ⟨t', ?_⟩
    simp only [Calls.goOn, Function.update_of_ne heq, ht']

/-- An invalidation that overtakes no lookup removes what is excused by itself alone. -/
theorem invalidate_coherent {m : Mutation} {i : Invalidation} {left : List Invalidation}
    {changedAt : Nat} (h : s.Coherent) (hcall : s.call t = .changed m (i :: left) changedAt)
    (hnot : s.NotOvertaking t) :
    ({ s with cache := i.run s.cache }.goOn t (.changed m left changedAt)).Coherent := by
  have hnew : ({ s with cache := i.run s.cache }.goOn t (.changed m left changedAt)).Pending m left
      changedAt := ⟨t, by simp only [Calls.goOn, Function.update_self]⟩
  constructor
  · intro e he
    obtain ⟨hmem, hgone⟩ := mem_invalidate_entries he
    rcases h.cache e hmem with hcur | ⟨m', left', j, hpend, hleft, hne⟩
    · exact Or.inl hcur
    · rcases pending_left (i.run s.cache) hcall hpend with ⟨rfl, rfl, rfl⟩ | hpend'
      · rw [covered_cons, hgone, Bool.false_or] at hleft
        exact Or.inr ⟨m', left, j, hnew, hleft, hne⟩
      · exact Or.inr ⟨m', left', j, hpend', hleft, hne⟩
  · intro t'
    by_cases heq : t' = t
    · subst heq
      simp only [Calls.goOn, Function.update_self]
      exact Or.inl trivial
    · have hcall' : ({ s with cache := i.run s.cache }.goOn t
          (.changed m left changedAt)).call t' = s.call t' := by
        simp only [Calls.goOn, Function.update_of_ne heq]
      rw [hcall']
      rcases h.call t' with hcur | ⟨m', left', j, hpend, hread⟩
      · exact Or.inl hcur
      · rcases pending_left (i.run s.cache) hcall hpend with ⟨rfl, rfl, rfl⟩ | hpend'
        · -- a later invalidation covers what the call has read
          rcases hread.split with hlater | hmissed
          · exact Or.inr ⟨m', left, j, hnew, hlater⟩
          · exact absurd hmissed (hnot _ _ _ _ hcall t')
        · exact Or.inr ⟨m', left', j, hpend', hread⟩
  · intro t'
    by_cases heq : t' = t
    · subst heq
      simp only [Calls.goOn, Function.update_self]
      exact trivial
    · simp only [Calls.goOn, Function.update_of_ne heq]
      exact (h.dated t').mono (Nat.le_succ _)

theorem not_readBefore_nil {m : Mutation} {changedAt : Nat} {call : CacheCall} :
    ¬call.ReadBefore m changedAt (covered []) := by
  intro h
  cases call with
  | idle => exact h
  | looking redirects p => exact h
  | changed m' left i => exact h
  | missed redirects p checkedAt => cases h.1
  | probed p r checkedAt probedAt => cases h.1

/-- A call with no invalidation left excuses nothing. -/
theorem finish_coherent {m : Mutation} {changedAt : Nat} (h : s.Coherent)
    (hcall : s.call t = .changed m [] changedAt) : (s.goOn t .idle).Coherent := by
  constructor
  · intro e he
    rcases h.cache e he with hcur | ⟨m', left', j, hpend, hleft, hne⟩
    · exact Or.inl hcur
    · rcases pending_left s.cache hcall hpend with ⟨rfl, rfl, rfl⟩ | hpend'
      · cases hleft
      · exact Or.inr ⟨m', left', j, hpend', hleft, hne⟩
  · intro t'
    by_cases heq : t' = t
    · subst heq
      simp only [Calls.goOn, Function.update_self]
      exact Or.inl trivial
    · have hcall' : (s.goOn t .idle).call t' = s.call t' := by
        simp only [Calls.goOn, Function.update_of_ne heq]
      rw [hcall']
      rcases h.call t' with hcur | ⟨m', left', j, hpend, hread⟩
      · exact Or.inl hcur
      · rcases pending_left s.cache hcall hpend with ⟨rfl, rfl, rfl⟩ | hpend'
        · exact absurd hread not_readBefore_nil
        · exact Or.inr ⟨m', left', j, hpend', hread⟩
  · intro t'
    by_cases heq : t' = t
    · subst heq
      simp only [Calls.goOn, Function.update_self]
      exact trivial
    · simp only [Calls.goOn, Function.update_of_ne heq]
      exact (h.dated t').mono (Nat.le_succ _)

theorem OrderlyStep.coherent (h : s.Coherent) (hstep : OrderlyStep s s') : s'.Coherent := by
  obtain ⟨t, hstep, hnot, hcovering⟩ := hstep
  cases hstep with
  | resolve p hidle =>
    exact h.goOn s.cache (not_changed_of_call hidle nofun) h.cache (Or.inl trivial) trivial
  | look hcall => exact look_coherent h hcall
  | probe hcall => exact probe_coherent h hcall
  | put hcall => exact put_coherent h hcall
  | change m hidle hbefore =>
    have hcovers : m.Covers :=
      hcovering m m.invalidations s.clock (by simp only [Calls.goOn, Function.update_self])
    exact change_coherent m h hidle hbefore hcovers
  | invalidate hcall => exact invalidate_coherent h hcall hnot
  | finish hcall => exact finish_coherent h hcall

/-! ## Whole runs -/

theorem coherent_of_quiet (hquiet : s.Quiet) (hcache : s.CacheCurrent) : s.Coherent where
  cache := fun e he => Or.inl (hcache e he)
  call := by
    intro t
    rw [hquiet t]
    exact Or.inl trivial
  dated := by
    intro t
    rw [hquiet t]
    exact trivial

theorem OrderlyStep.run_coherent (h : s.Coherent) (hrun : Relation.ReflTransGen OrderlyStep s s') :
    s'.Coherent := by
  induction hrun with
  | refl => exact h
  | tail _ hstep ih => exact hstep.coherent ih

/-- In every run whose changes are covered by their invalidations and whose invalidations
overtake no lookup, the cache that is left once every call has returned holds only what an
uncached lookup of its keys gives. -/
theorem quiet_cache_current (hquiet : s.Quiet) (hcache : s.CacheCurrent)
    (hrun : Relation.ReflTransGen OrderlyStep s s') (hdone : s'.Quiet) : s'.CacheCurrent := by
  intro e he
  rcases (OrderlyStep.run_coherent (coherent_of_quiet hquiet hcache) hrun).cache e he with
    hcur | ⟨m, left, i, ⟨t, ht⟩, -⟩
  · exact hcur
  · rw [hdone t] at ht
    cases ht

/-! ## A lookup and a delete -/

/-- A layer that holds the file `a` or nothing. -/
def loneLayer (holdsFile : Bool) : Layer where
  get p :=
    if p = [] then .entry { attributes := { directory := true } }
    else if p = [['a']] ∧ holdsFile then .entry { attributes := {} }
    else .missing
  scan p := .ok (if p = [] ∧ holdsFile then [['a']] else [])
  sidecarOpaque _ := false
  parent_directory := by
    intro p n _ h
    right
    have hp : p = [] := by
      by_contra hp
      cases p with
      | nil => exact hp rfl
      | cons x rest => simp at h
    exact ⟨_, if_pos hp, rfl⟩
  mem_scan := by
    intro p names h n _
    simp only [Except.ok.injEq] at h
    subst h
    by_cases hp : p = []
    · subst hp
      cases holdsFile <;> simp
    · have hlong : p ++ [n] ≠ [['a']] := by
        intro heq
        cases p with
        | nil => exact hp rfl
        | cons x rest => simp at heq
      simp [hp, hlong]
  get_dot := by
    intro p h
    have hdot : p ++ [['.']] ≠ [['a']] := by
      intro heq
      have hlast := congrArg List.getLast? heq
      simp at hlast
    simp [hdot] at h

/-- An upper alone, with no lower below it. -/
def loneUpper (holdsFile : Bool) : LayerConfig where
  upper := loneLayer holdsFile
  lowers := []

theorem loneLayer_missing (b : Bool) {p : RelPath} (hp : p ≠ []) (ha : p ≠ [['a']]) :
    (loneLayer b).get p = .missing := by
  simp [loneLayer, hp, ha]

theorem hasWhiteout_loneLayer (b : Bool) (p : RelPath) : hasWhiteout (loneLayer b) p = false := by
  have hmark : markerFileExists (loneLayer b) (getWhiteoutFileName p) = false := by
    unfold markerFileExists getWhiteoutFileName
    rw [loneLayer_missing b (by simp)]
    · rfl
    · intro heq
      have hlast := congrArg List.getLast? heq
      simp [whiteoutName, kWhiteoutPrefix] at hlast
  simp [hasWhiteout, hasWhiteoutUnderWalkedDirectoryInLayer, hmark]

theorem isOpaqueInLayer_loneLayer (b : Bool) (d : RelPath) :
    isOpaqueInLayer (loneLayer b) d = false := by
  have hmark : markerFileExists (loneLayer b) (d ++ [kOpaqueMarkerFile]) = false := by
    unfold markerFileExists
    rw [loneLayer_missing b (by simp)]
    · rfl
    · intro heq
      have hlast := congrArg List.getLast? heq
      simp [kOpaqueMarkerFile] at hlast
  have hmeta : hasOpaqueMetadata (loneLayer b) d = false := by
    unfold hasOpaqueMetadata
    by_cases hd : d = []
    · subst hd
      rfl
    · by_cases ha : d = [['a']]
      · subst ha
        cases b <;> rfl
      · rw [loneLayer_missing b hd ha]
        rfl
  simp [isOpaqueInLayer, holdsOpaqueMarker, hmark, hmeta]

theorem walk_loneLayer (b : Bool) {d : RelPath} (hd : d.head? ≠ some ['a']) :
    (walkToFirstNonDirectory (loneLayer b) d).stop = .none := by
  cases d with
  | nil => rfl
  | cons x rest =>
    have hx : x ≠ ['a'] := by simpa using hd
    have hkind : componentKindInLayer (loneLayer b) [x] = .missing := by
      unfold componentKindInLayer
      rw [loneLayer_missing b (by simp) (by simpa using hx)]
    simp only [walkToFirstNonDirectory, walkFrom, List.nil_append, hkind]

/-- No walk of the layer meets a link. -/
theorem isInLinkTarget_loneUpper (b : Bool) (d : RelPath) :
    isInLinkTarget (loneUpper b) d = false := by
  have hstop : endsAtLinkOrUnreadable (walkToFirstNonDirectory (loneLayer b) d).stop = false := by
    by_cases hd : d.head? = some ['a']
    · obtain ⟨rest, rfl⟩ : ∃ rest, d = ['a'] :: rest := by
        cases d with
        | nil => simp at hd
        | cons x rest =>
          obtain rfl : x = ['a'] := by simpa using hd
          exact ⟨rest, rfl⟩
      cases b <;> rfl
    · rw [walk_loneLayer b hd]
      rfl
  have hlowers : (loneUpper b).lowers = [] := rfl
  simp only [isInLinkTarget, findLinkInView, hlowers]
  change decide ((if endsAtLinkOrUnreadable (walkToFirstNonDirectory (loneLayer b) d).stop = true
    then _ else _ : LinkInView).stop ≠ .none) = false
  rw [hstop]
  simp only [Bool.false_eq_true, if_false]
  split <;> rfl

/-- Only the answers at `a` and below depend on whether `a` is there. -/
theorem answerAt_loneUpper (b : Bool) {p : RelPath} (hp : p.head? ≠ some ['a']) :
    answerAt (loneUpper b) p = answerAt (loneUpper false) p := by
  have hres : ∀ b, isResolvablePath (loneUpper b) p = isResolvablePath (loneUpper false) p := by
    intro b
    unfold isResolvablePath isReservedOverlayPath
    simp only [isInLinkTarget_loneUpper]
  have habsent : ∀ b, p ≠ [] → probeLayers (loneUpper b) p = .absent := by
    intro b hne
    have hget : (loneUpper b).upper.get p = .missing := by
      refine loneLayer_missing b hne ?_
      rintro rfl
      exact hp rfl
    have hhead : p.dropLast.head? ≠ some ['a'] := by
      cases p with
      | nil => simp
      | cons x rest =>
        cases rest with
        | nil => simp
        | cons y rest => simpa using hp
    have hhide : hidingInUpper (loneUpper b) p = .none := by
      have hup : (loneUpper b).upper = loneLayer b := rfl
      simp [hidingInUpper, upperAncestorHiding, hup, hasWhiteout_loneLayer,
        hasWhitedOutAncestorInLayer, anyDirectoryUpToRoot, lowersBelow,
        hasOpaqueSelfOrAncestorInLayer, isOpaqueInLayer_loneLayer,
        hasNonDirectoryOrLinkSelfOrAncestorInLayer, walk_loneLayer b hhead]
    unfold probeLayers
    rw [hget]
    simp only [hhide]
    rfl
  refine answerAt_eq.mpr ⟨hres b, ?_⟩
  by_cases hne : p = []
  · subst hne
    rfl
  · have hmiss : Cache.get {} p = (none, {}) := rfl
    have hsteps : ∀ b, uncached (loneUpper b) p = {} := by
      intro b
      have h := resolvePathInternal_steps (loneUpper b) kMaxRedirectDepth p {}
      have hemp : p.isEmpty = false := by simpa using hne
      simp only [hemp, hmiss, habsent b hne, Bool.false_eq_true, if_false, ite_self] at h
      exact congrArg Prod.fst h
    rw [hsteps, hsteps]

/-- The delete of the upper file `a`, which invalidates `a`. -/
def deleteLone : Mutation where
  before := loneUpper true
  after := loneUpper false
  invalidations := [{ path := [['a']] }]

theorem covers_deleteLone : deleteLone.Covers := by
  intro key hkey
  refine (answerAt_loneUpper true ?_).symm
  intro hhead
  obtain ⟨rest, rfl⟩ : ∃ rest, key = ['a'] :: rest := by
    cases key with
    | nil => simp at hhead
    | cons x rest =>
      obtain rfl : x = ['a'] := by simpa using hhead
      exact ⟨rest, rfl⟩
  cases rest with
  | nil => simp [deleteLone, covered, Invalidation.covers, invalidationCovers] at hkey
  | cons y rest =>
    simp [deleteLone, covered, Invalidation.covers, invalidationCovers, isInsideDirectory] at hkey

/-- No call runs, and the cache is empty. -/
def loneCalls : Calls := ⟨loneUpper true, {}, fun _ => .idle, 0⟩

/-- The answer that a lookup of `a` probes while `a` is there. -/
def loneAnswer : ResolvedPath :=
  { absolutePath := some [['a']], source := .upper, attributes := some {} }

/-- Thread 0 has probed `a` and is about to put. -/
def loneProbed : Calls :=
  ((loneCalls.goOn 0 (.looking (kMaxRedirectDepth + 1) [['a']])).goOn 0
    (.missed kMaxRedirectDepth [['a']] 1)).goOn 0 (.probed [['a']] loneAnswer 1 2)

theorem orderly_of_lookup {s s' : Calls} {t : Nat} (h : CallStep s t s')
    (ht : ∀ m left i, s.call t ≠ .changed m left i)
    (ht' : ∀ m left i, s'.call t ≠ .changed m left i) : OrderlyStep s s' :=
  ⟨t, h, fun m _ _ j hm => absurd hm (ht m _ j), fun m left i hm => absurd hm (ht' m left i)⟩

theorem loneProbed_reached : Relation.ReflTransGen OrderlyStep loneCalls loneProbed := by
  have hresolve := orderly_of_lookup (CallStep.resolve (s := loneCalls) (t := 0) [['a']] rfl)
    nofun nofun
  have hlook := orderly_of_lookup (@CallStep.look (loneCalls.goOn 0 _) 0 (kMaxRedirectDepth + 1)
    [['a']] rfl) nofun nofun
  have hprobe : OrderlyStep _ loneProbed := orderly_of_lookup
    (@CallStep.probe ((loneCalls.goOn 0 _).goOn 0 _) 0 kMaxRedirectDepth [['a']] 1 rfl) nofun nofun
  exact ((Relation.ReflTransGen.refl.tail hresolve).tail hlook).tail hprobe

/-- Thread 0 has put its answer for `a`, and no call runs. -/
def lonePut : Calls :=
  { loneProbed with cache := loneProbed.cache.put [['a']] loneAnswer }.goOn 0 .idle

theorem lonePut_quiet : lonePut.Quiet := by
  intro t
  simp [Calls.goOn, lonePut, loneProbed, loneCalls]

/-- Thread 1 has deleted `a`, and then it invalidates. -/
def loneDeleting : Calls :=
  { lonePut with layers := loneUpper false }.goOn 1 (.changed deleteLone deleteLone.invalidations 4)

def loneInvalidated : Calls :=
  { loneDeleting with cache := lonePut.cache.invalidateWithAncestors [['a']] }.goOn 1
    (.changed deleteLone [] 4)

def loneDeleted : Calls := loneInvalidated.goOn 1 .idle

theorem loneDeleted_quiet : loneDeleted.Quiet := by
  intro t
  by_cases h1 : t = 1
  · subst h1
    rfl
  · have hquiet := lonePut_quiet t
    simpa [Calls.goOn, loneDeleted, loneInvalidated, loneDeleting, h1] using hquiet

/-- What thread 1 has changed is covered. -/
theorem covering_deleteLone {s : Calls} {left : List Invalidation} {changedAt : Nat}
    (h : s.call 1 = .changed deleteLone left changedAt) : s.Covering 1 := by
  intro m left' i hm
  rw [h] at hm
  cases hm
  exact covers_deleteLone

/-- The same lookup and the same delete, with the put before the invalidation. -/
theorem quiet_cache_current_lone : loneCalls.Quiet ∧ loneCalls.CacheCurrent ∧
    Relation.ReflTransGen OrderlyStep loneCalls loneDeleted ∧ loneDeleted.Quiet ∧
    loneDeleted.CacheCurrent := by
  have hcache : loneCalls.CacheCurrent := by
    intro e he
    cases he
  have hput : OrderlyStep loneProbed lonePut :=
    orderly_of_lookup (@CallStep.put loneProbed 0 [['a']] loneAnswer 1 2 rfl) nofun nofun
  have hchange : OrderlyStep lonePut loneDeleting :=
    ⟨1, CallStep.change (s := lonePut) (t := 1) deleteLone rfl rfl, nofun,
      covering_deleteLone rfl⟩
  have hinvalidate : OrderlyStep loneDeleting loneInvalidated := by
    refine ⟨1, @CallStep.invalidate loneDeleting 1 deleteLone { path := [['a']] } [] 4 rfl, ?_,
      covering_deleteLone rfl⟩
    intro m i left j _ t' hread
    by_cases h1 : t' = 1
    · subst h1
      exact hread
    · have hidle : loneDeleting.call t' = .idle := by
        simpa [Calls.goOn, loneDeleting, h1] using lonePut_quiet t'
      rw [hidle] at hread
      exact hread
  have hfinish : OrderlyStep loneInvalidated loneDeleted :=
    ⟨1, @CallStep.finish loneInvalidated 1 deleteLone 4 rfl, nofun, nofun⟩
  have hrun := (((loneProbed_reached.tail hput).tail hchange).tail hinvalidate).tail hfinish
  exact ⟨fun _ => rfl, hcache, hrun, loneDeleted_quiet,
    quiet_cache_current (fun _ => rfl) hcache hrun loneDeleted_quiet⟩

end LayerMount
