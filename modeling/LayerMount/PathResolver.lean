import LayerMount.LayerPath

/-!
# Path resolution

`PathResolver.cpp` over the layers of `LayerMount.LayerPath`, with the cache of
`Cache.cpp` passed from call to call.  `ResolvedPath.absolutePath` is the path of
the entry below the root of the layer that `source` and `lowerIndex` name.

The cache stamps an entry with a counter where the source reads a clock, so two
stamps never tie.  `LogTypeConflictInDeeperLowers` writes to the debugger only
and is left out.
-/

namespace LayerMount

structure ResolvedPath where
  absolutePath : Option RelPath := none
  source : LayerSource := .none
  lowerIndex : Option Nat := none
  isWhiteout : Bool := false
  attributes : Option Attributes := none
  deriving DecidableEq, Repr

def ResolvedPath.found (r : ResolvedPath) : Bool :=
  r.absolutePath.isSome && r.source ≠ .none

/-- Whether a found entry has the directory attribute. -/
def ResolvedPath.isDirectory (r : ResolvedPath) : Bool :=
  match r.attributes with
  | some a => a.directory
  | none => false

/-! ## The cache -/

/-- `IsInsideDirectory`: strictly below, and nothing is inside the empty path. -/
def isInsideDirectory (pathNorm dirNorm : RelPath) : Bool :=
  !dirNorm.isEmpty && dirNorm.isPrefixOf pathNorm && pathNorm ≠ dirNorm

structure CacheEntry where
  key : RelPath
  resolved : ResolvedPath
  lastAccess : Nat
  deriving DecidableEq, Repr

structure Cache where
  maxCapacity : Nat := 10000
  clock : Nat := 0
  entries : List CacheEntry := []
  deriving DecidableEq, Repr

namespace Cache

def find (cache : Cache) (key : RelPath) : Option CacheEntry :=
  cache.entries.find? fun e => e.key = key

/-- `Get` refreshes the stamp of the entry it finds. -/
def get (cache : Cache) (key : RelPath) : Option ResolvedPath × Cache :=
  match cache.find key with
  | none => (none, cache)
  | some e =>
    (some e.resolved,
      { cache with
        clock := cache.clock + 1
        entries := cache.entries.map fun e' =>
          if e'.key = key then { e' with lastAccess := cache.clock } else e' })

/-- The entry with the least stamp. -/
def oldest : List CacheEntry → Option CacheEntry
  | [] => none
  | e :: rest =>
    match oldest rest with
    | none => some e
    | some o => if o.lastAccess < e.lastAccess then some o else some e

def evictLRU (cache : Cache) : Cache :=
  match oldest cache.entries with
  | none => cache
  | some o => { cache with entries := cache.entries.filter fun e => e.key ≠ o.key }

def put (cache : Cache) (key : RelPath) (resolved : ResolvedPath) : Cache :=
  let entries := ⟨key, resolved, cache.clock⟩ :: cache.entries.filter fun e => e.key ≠ key
  let cache := { cache with clock := cache.clock + 1, entries }
  if cache.maxCapacity < entries.length then cache.evictLRU else cache

def invalidate (cache : Cache) (key : RelPath) : Cache :=
  { cache with entries := cache.entries.filter fun e =>
      e.key ≠ key && !isInsideDirectory e.key key }

/-- The ancestors of the key, the root excepted, go too. -/
def invalidateWithAncestors (cache : Cache) (key : RelPath) : Cache :=
  { cache with entries := cache.entries.filter fun e =>
      !(e.key = key || isInsideDirectory e.key key || isInsideDirectory key e.key) }

end Cache

/-! ## The resolver -/

def isResolvablePath (c : LayerConfig) (normalized : RelPath) : Bool :=
  isSafeRelativePath normalized && !isReservedOverlayPath c normalized

/-- The loop of `FindInLowers` from lower `i` on. -/
def findInLowersFrom (c : LayerConfig) (p : RelPath) : Nat → List Layer → ResolvedPath
  | _, [] => {}
  | i, l :: rest =>
    if hasWhiteout l p then {}
    else if hasWhitedOutAncestorInLayer l p then {}
    else if hasLinkUnderHigherLayerEntry c l i p.dropLast then {}
    else
      match l.get p with
      | .entry e =>
        { absolutePath := some p, source := .lower, lowerIndex := some i
          attributes := some e.attributes }
      | _ =>
        if lowersBelow l p.dropLast ≠ .visible then {}
        else findInLowersFrom c p (i + 1) rest

def findInLowers (c : LayerConfig) (p : RelPath) (firstLower : Nat) : ResolvedPath :=
  findInLowersFrom c p firstLower (c.lowers.drop firstLower)

inductive UpperHiding where
  | none
  | whiteout
  | opaqueMarker
  | nonDirectoryOrLink
  deriving DecidableEq, Repr

def upperAncestorHiding (c : LayerConfig) (p : RelPath) : UpperHiding :=
  if hasWhitedOutAncestorInLayer c.upper p then .whiteout
  else
    match lowersBelow c.upper p.dropLast with
    | .hiddenByOpaqueMarker => .opaqueMarker
    | .hiddenByNonDirectoryOrLink => .nonDirectoryOrLink
    | .visible => .none

def hidingInUpper (c : LayerConfig) (p : RelPath) : UpperHiding :=
  if hasWhiteout c.upper p then .whiteout else upperAncestorHiding c p

def resolveRoot (c : LayerConfig) : ResolvedPath :=
  { absolutePath := some [], source := .upper, attributes := (c.upper.get []).attributes }

/-- `ResolvePathInternal`.  The first argument counts the redirects still allowed,
the one at depth 0 included.  The second component of the result is what the
source stores through `lowerWalk`. -/
def resolvePathInternal (c : LayerConfig) :
    Nat → RelPath → Cache → ResolvedPath × Option ResolvedPath × Cache
  | 0, _, cache => ({}, none, cache)
  | redirects + 1, p, cache =>
    if p.isEmpty then (resolveRoot c, none, cache)
    else if !isResolvablePath c p then ({}, none, cache)
    else
      match cache.get p with
      | (some cached, cache) => (cached, none, cache)
      | (none, cache) =>
        match c.upper.get p with
        | .entry e =>
          match e.redirect with
          | some target =>
            let (r, _, cache) := resolvePathInternal c redirects target cache
            (r, none, cache)
          | none =>
            let r : ResolvedPath :=
              { absolutePath := some p, source := .upper, attributes := some e.attributes }
            (r, none, cache.put p r)
        | _ =>
          match hidingInUpper c p with
          | .whiteout => ({ isWhiteout := true }, none, cache.put p { isWhiteout := true })
          | .opaqueMarker => ({}, some {}, cache.put p {})
          | .nonDirectoryOrLink => ({}, some {}, cache.put p {})
          | .none =>
            let lower := findInLowers c p 0
            if !lower.found then ({}, some lower, cache)
            else (lower, some lower, cache.put p lower)

def kMaxRedirectDepth : Nat := 40

def resolvePath (c : LayerConfig) (p : RelPath) (cache : Cache) : ResolvedPath × Cache :=
  let (r, _, cache) := resolvePathInternal c (kMaxRedirectDepth + 1) p cache
  (r, cache)

/-- `ResolveLowerPath`: the lowers alone, a whiteout of the upper at the path
itself not counted. -/
def resolveLowerPath (c : LayerConfig) (p : RelPath) : ResolvedPath :=
  if p.isEmpty || !isResolvablePath c p then {}
  else if upperAncestorHiding c p ≠ .none then {}
  else findInLowers c p 0

end LayerMount
