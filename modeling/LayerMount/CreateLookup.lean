import LayerMount.CacheRace
import LayerMount.CompletedCreate

/-!
# The lookup of a create

`ResolveForCreate` asks for the overlay's entry, the upper's whiteout and the lowers' entry
in one call.  The lookup hands its walk of the lowers over where it makes one, and the
branches that make none leave the lowers to a second lookup.  A cache whose entries are
current changes none of the three answers (`resolveForCreate_eq`).
-/

namespace LayerMount

open Lib

variable {c : LayerConfig} {cache other : Cache} {p : RelPath}

/-- `ResolveForCreate`. -/
def resolveForCreate (c : LayerConfig) (p : RelPath) (cache : Cache) :
    Context.CreateResolution × Cache :=
  let (overlayHit, lowerWalk, cache) := resolvePathInternal c (kMaxRedirectDepth + 1) p cache
  ({ overlayHit
     whiteoutAtPath := hasWhiteout c.upper p
     lower := lowerWalk.getD (resolveLowerPath c p) }, cache)

/-- Every entry of the cache is what a lookup without the cache finds. -/
def Cache.Coherent (c : LayerConfig) (cache : Cache) : Prop :=
  ∀ entry ∈ cache.entries, entry.resolved = uncached c entry.key

theorem coherent_empty (c : LayerConfig) : Cache.Coherent c {} := nofun

theorem Cache.Coherent.get (h : Cache.Coherent c cache) (p : RelPath) :
    Cache.Coherent c (cache.get p).2 := by
  intro entry hentry
  obtain ⟨old, hold, hkey, hresolved⟩ := mem_get_entries hentry
  rw [← hresolved, ← hkey]
  exact h old hold

theorem Cache.Coherent.put {r : ResolvedPath} (h : Cache.Coherent c cache)
    (hr : r = uncached c p) : Cache.Coherent c (cache.put p r) := by
  intro entry hentry
  rcases mem_put_entries hentry with ⟨hkey, hresolved⟩ | hold
  · rw [hkey, hresolved, hr]
  · exact h entry hold

/-- What the cache answers is what a lookup without it finds. -/
theorem Cache.Coherent.answer {r : ResolvedPath} (h : Cache.Coherent c cache)
    (hget : (cache.get p).1 = some r) : r = uncached c p := by
  rw [Cache.get] at hget
  cases hfind : cache.find p with
  | none => rw [hfind] at hget; cases hget
  | some entry =>
    rw [hfind] at hget
    have hkey : entry.key = p := by simpa using List.find?_some hfind
    rw [← Option.some.inj hget, ← hkey]
    exact h entry (List.mem_of_find?_eq_some hfind)

/-- Without redirects a lookup probes the layers of one path. -/
theorem probeLayers_ne_redirect (hred : c.NoRedirect) (target : RelPath) :
    probeLayers c p ≠ .redirect target := by
  intro h
  have hprobed := probeLayers_probed c p
  rw [h] at hprobed
  cases hprobed with
  | redirect hget hredirect =>
    rw [hred p _ hget] at hredirect
    cases hredirect

/-- A lookup with a current cache finds what one without it finds, and leaves the cache
current. -/
theorem resolvePath_coherent (hred : c.NoRedirect) (hcache : cache.Coherent c) (p : RelPath) :
    (resolvePath c p cache).1 = uncached c p ∧ (resolvePath c p cache).2.Coherent c := by
  have hsteps : resolvePath c p cache = _ := resolvePathInternal_steps c kMaxRedirectDepth p cache
  have hfresh : resolvePath c p {} = _ := resolvePathInternal_steps c kMaxRedirectDepth p {}
  rw [uncached, hsteps, hfresh]
  by_cases hne : p.isEmpty = true
  · rw [if_pos hne, if_pos hne]
    exact ⟨rfl, hcache⟩
  rw [if_neg hne, if_neg hne]
  by_cases hres : isResolvablePath c p = true
  · have hnot : ¬(!isResolvablePath c p) = true := by simp [hres]
    have hmiss : Cache.get {} p = (none, {}) := rfl
    rw [if_neg hnot, if_neg hnot, hmiss]
    have hget := hcache.get p
    have hp : p ≠ [] := by simpa using hne
    cases hcached : cache.get p with
    | mk hit cache' =>
      rw [hcached] at hget
      cases hit with
      | some r =>
        have hanswer : r = uncached c p := hcache.answer (by rw [hcached])
        have hprobe : uncached c p = _ := congrArg Prod.fst hfresh
        rw [if_neg hne, if_neg hnot, hmiss] at hprobe
        exact ⟨hanswer.trans hprobe, hget⟩
      | none =>
        cases hprobe : probeLayers c p with
        | redirect target => exact absurd hprobe (probeLayers_ne_redirect hred target)
        | put r => exact ⟨rfl, hget.put (uncached_of_put hp hres hprobe).symm⟩
        | absent => exact ⟨rfl, hget⟩
  · have hnot : (!isResolvablePath c p) = true := by simpa using hres
    rw [if_pos hnot, if_pos hnot]
    exact ⟨rfl, hcache⟩

/-- The engine's lookup answers what the cache would answer, while its entries are current,
and leaves them current. -/
theorem lookup_cached {e : Engine} (hcache : e.cache.Coherent e.config) (p : RelPath) :
    (lookup p).Ensures e fun r g =>
      r = .ok (resolvePath e.config p e.cache).1 ∧ g.cache.Coherent g.config := by
  have hhit := resolvePath_coherent e.noRedirect hcache p
  refine ⟨?_, ?_⟩
  · rw [hhit.1]
    rfl
  · have hconfig := (lookup_ensures p e).2.toUntouched.config
    rw [hconfig]
    exact hhit.2

theorem resolveForCreate_fst (c : LayerConfig) (p : RelPath) (cache : Cache) :
    (resolveForCreate c p cache).1 =
      { overlayHit := (resolvePath c p cache).1
        whiteoutAtPath := hasWhiteout c.upper p
        lower := ((resolvePathInternal c (kMaxRedirectDepth + 1) p cache).2.1).getD
          (resolveLowerPath c p) } := rfl

/-- The combined lookup of a create gives what the three plain lookups give, each with any
current cache, and leaves its cache current. -/
theorem resolveForCreate_eq (hred : c.NoRedirect) (hcache : cache.Coherent c)
    (hother : other.Coherent c) (p : RelPath) :
    (resolveForCreate c p cache).1 =
        { overlayHit := (resolvePath c p other).1
          whiteoutAtPath := hasWhiteout c.upper p
          lower := resolveLowerPath c p } ∧
      (resolveForCreate c p cache).2.Coherent c := by
  have hhit := resolvePath_coherent hred hcache p
  have hlower : ((resolvePathInternal c (kMaxRedirectDepth + 1) p cache).2.1).getD
      (resolveLowerPath c p) = resolveLowerPath c p := by
    cases hwalk : (resolvePathInternal c (kMaxRedirectDepth + 1) p cache).2.1 with
    | none => rfl
    | some walk => exact lowerWalk_eq hwalk
  refine ⟨?_, hhit.2⟩
  rw [resolveForCreate_fst, (resolvePath_coherent hred hother p).1, ← hhit.1, hlower]

/-- The engine's create asks this lookup. -/
theorem contextResolveForCreate_eq {e : Engine} (hcache : e.cache.Coherent e.config)
    (p : RelPath) :
    (Context.resolveForCreate p e).1 = .ok (resolveForCreate e.config p e.cache).1 := by
  have hhit : (resolvePath e.config p {}).1 = (resolvePath e.config p e.cache).1 :=
    (resolvePath_coherent e.noRedirect hcache p).1.symm
  rw [resolveForCreate_fst, ← hhit]
  rfl

/-- A lower's `d\\a`, and a cache that holds its lookup. -/
def cachedLower : LayerConfig :=
  configOf [{}] (some (.node {} [])) [some (.node {} [(['d'], .node {} [(['a'], .leaf (.file 0))])])]

theorem resolveForCreate_eq_cachedLower :
    (resolveForCreate cachedLower [['d'], ['a']]
        { entries := [⟨[['d'], ['a']], uncached cachedLower [['d'], ['a']], 0⟩] }).1 =
        { overlayHit := (resolvePath cachedLower [['d'], ['a']] {}).1
          whiteoutAtPath := hasWhiteout cachedLower.upper [['d'], ['a']]
          lower := resolveLowerPath cachedLower [['d'], ['a']] } ∧
      (resolveForCreate cachedLower [['d'], ['a']]
        { entries := [⟨[['d'], ['a']], uncached cachedLower [['d'], ['a']], 0⟩] }).2.Coherent
          cachedLower := by
  apply resolveForCreate_eq (noRedirect_ofTrees _ _ _) _ (coherent_empty cachedLower)
  intro entry hentry
  rw [List.mem_singleton.mp hentry]
  rfl

end LayerMount
