import LayerMount.CachePaths
import LayerMount.Lib.SortedMap

/-!
# The calls of the cache

`Cache.cpp` on the texts of its keys.  The clock is read at each call, and a loop over the
map meets the entries in some order, which an insertion may change.

`cache_calls_iff` is about every sequence of calls.  The entries are bounded and each is
the last that was put under its key.  Nothing is inside the empty path, so the root does
not take its entries with it; and the walk up misses the root and a drive.
-/

namespace LayerMount.CacheText

open Lib PathText

/-! ## The source's functions -/

structure CacheEntry (V : Type) where
  key : WideString
  resolved : V
  lastAccessTicks : Int
  deriving DecidableEq, Repr

structure Cache (V : Type) where
  maxCapacity : Nat := 10000
  entries : List (CacheEntry V) := []
  hits : Nat := 0
  misses : Nat := 0
  deriving DecidableEq, Repr

/-- The order of an unordered map after an insertion. -/
structure Arrangement (V : Type) where
  order : List (CacheEntry V) → List (CacheEntry V)
  perm : ∀ entries, (order entries).Perm entries

namespace Cache

variable {V : Type} (F : CaseFold) (cache : Cache V)

def get (relativePath : WideString) (nowTicks : Int) : Option V × Cache V :=
  let key := normalizePath F relativePath
  match cache.entries.find? fun e => e.key = key with
  | none => (none, { cache with misses := cache.misses + 1 })
  | some e =>
    (some e.resolved,
      { cache with
        hits := cache.hits + 1
        entries := cache.entries.map fun e =>
          if e.key = key then { e with lastAccessTicks := nowTicks } else e })

/-- The loop of `EvictLRU`: the first of the entries with the least ticks. -/
def oldest (first : CacheEntry V) (rest : List (CacheEntry V)) : CacheEntry V :=
  rest.foldl (fun oldest e => if e.lastAccessTicks < oldest.lastAccessTicks then e else oldest)
    first

def evictLRU : Cache V :=
  match cache.entries with
  | [] => cache
  | first :: rest =>
    { cache with entries := cache.entries.eraseP fun e => e.key = (oldest first rest).key }

def put (relativePath : WideString) (resolved : V) (nowTicks : Int) (arrange : Arrangement V) :
    Cache V :=
  let key := normalizePath F relativePath
  let cache := { cache with
    entries := arrange.order
      ({ key, resolved, lastAccessTicks := nowTicks } ::
        cache.entries.filter fun e => e.key ≠ key) }
  if cache.entries.length > cache.maxCapacity then cache.evictLRU else cache

def invalidate (relativePath : WideString) : Cache V :=
  let key := normalizePath F relativePath
  { cache with
    entries := (cache.entries.filter fun e => e.key ≠ key).filter fun e =>
      !PathText.isInsideDirectory e.key key }

def invalidateWithAncestors (relativePath : WideString) : Cache V :=
  let key := normalizePath F relativePath
  { cache with
    entries := cache.entries.filter fun e =>
      !(e.key = key || PathText.isInsideDirectory e.key key || (ancestors key).contains e.key) }

def clear : Cache V := { cache with entries := [] }

end Cache

inductive Call (V : Type) where
  | get (relativePath : WideString) (nowTicks : Int)
  | put (relativePath : WideString) (resolved : V) (nowTicks : Int) (arrange : Arrangement V)
  | invalidate (relativePath : WideString)
  | invalidateWithAncestors (relativePath : WideString)
  | clear

section

variable {V : Type} (F : CaseFold)

def step (cache : Cache V) : Call V → Cache V
  | .get relativePath nowTicks => (cache.get F relativePath nowTicks).2
  | .put relativePath resolved nowTicks arrange =>
    cache.put F relativePath resolved nowTicks arrange
  | .invalidate relativePath => cache.invalidate F relativePath
  | .invalidateWithAncestors relativePath => cache.invalidateWithAncestors F relativePath
  | .clear => cache.clear

/-- The calls on a new cache. -/
def run (maxCapacity : Nat) (calls : List (Call V)) : Cache V :=
  calls.foldl (step F) { maxCapacity }

/-! ## What the calls are for -/

/-- What the calls put, under the keys they put it under. -/
def puts (calls : List (Call V)) : List (WideString × V) :=
  calls.filterMap fun call =>
    match call with
    | .put relativePath resolved _ _ => some (normalizePath F relativePath, resolved)
    | _ => none

/-- `Invalidate` takes the path and what is below it, and nothing else. -/
def TakesBelow (cache : Cache V) (relativePath : WideString) : Prop :=
  ∀ e, e ∈ (cache.invalidate F relativePath).entries ↔
    e ∈ cache.entries ∧ ¬Below e.key (normalizePath F relativePath)

/-- `InvalidateWithAncestors` takes also what the path is below. -/
def TakesLine (cache : Cache V) (relativePath : WideString) : Prop :=
  ∀ e, e ∈ (cache.invalidateWithAncestors F relativePath).entries ↔
    e ∈ cache.entries ∧ ¬(Below e.key (normalizePath F relativePath) ∨
      Below (normalizePath F relativePath) e.key)

/-- No key is the root, nor the drive that another key starts with. -/
def NoRootOrDrive (cache : Cache V) (key : WideString) : Prop :=
  ∀ e ∈ cache.entries, e.key ≠ [] ∧
    (hasDrivePrefix key = true → e.key = key.take 2 → e.key = key)

/-- What holds of the cache after calls that put `puts`. -/
structure Sound (puts : List (WideString × V)) (cache : Cache V) : Prop where
  bounded : cache.entries.length ≤ cache.maxCapacity
  normal : ∀ e ∈ cache.entries, NormalKey e.key
  last : ∀ e ∈ cache.entries, LastOf e.key e.resolved puts

/-! ## One call -/

variable {F}

/-- The host's folding makes no separator of another character. -/
def FoldsNoSeparator (F : CaseFold) : Prop :=
  ∀ (s : WideString) (i : Nat) (u : UInt16), isSlash u = true → (F.fold s)[i]? = some u →
    s[i]? = some u

theorem normalKey_normalizePath (hF : FoldsNoSeparator F) (path : WideString) :
    NormalKey (normalizePath F path) := by
  refine ⟨?_, ?_, ?_⟩
  · intro h
    rw [List.head?_eq_getElem?] at h
    have hplace := hF _ _ _ (by decide) h
    rw [← List.head?_eq_getElem?] at hplace
    exact head?_normalized path hplace
  · intro h
    rw [List.getLast?_eq_getElem?] at h
    have hplace := hF _ _ _ (by decide) h
    rw [normalizePath, F.length_fold, ← List.getLast?_eq_getElem?] at hplace
    exact getLast?_normalized path hplace
  · intro h
    obtain ⟨i, hi⟩ := List.mem_iff_getElem?.mp h
    exact slash_not_mem_normalized path (List.mem_of_getElem? (hF _ _ _ (by decide) hi))

variable {cache : Cache V} {l : List (WideString × V)}

theorem oldest_mem (first : CacheEntry V) (rest : List (CacheEntry V)) :
    Cache.oldest first rest ∈ first :: rest := by
  unfold Cache.oldest
  induction rest generalizing first with
  | nil => exact List.mem_cons_self
  | cons e rest ih =>
    rw [List.foldl_cons]
    have h := ih (if e.lastAccessTicks < first.lastAccessTicks then e else first)
    grind

/-- An eviction takes one entry. -/
theorem length_evictLRU (h : cache.entries ≠ []) :
    cache.evictLRU.entries.length = cache.entries.length - 1 := by
  unfold Cache.evictLRU
  split
  · next hnil => exact absurd hnil h
  · next first rest hentries =>
    show (cache.entries.eraseP _).length = _
    rw [hentries]
    exact List.length_eraseP_of_mem (oldest_mem first rest) (by simp)

theorem maxCapacity_evictLRU : cache.evictLRU.maxCapacity = cache.maxCapacity := by
  unfold Cache.evictLRU
  split
  · rfl
  · rfl

theorem mem_evictLRU {e : CacheEntry V} (h : e ∈ cache.evictLRU.entries) : e ∈ cache.entries := by
  unfold Cache.evictLRU at h
  split at h
  · exact h
  · exact List.mem_of_mem_eraseP h

theorem Sound.filter (h : Sound l cache) (keep : CacheEntry V → Bool) :
    Sound l { cache with entries := cache.entries.filter keep } where
  bounded := Nat.le_trans (List.length_filter_le _ _) h.bounded
  normal e he := h.normal e (List.mem_of_mem_filter he)
  last e he := h.last e (List.mem_of_mem_filter he)

/-- A `Get` changes the ticks alone. -/
theorem Sound.get (h : Sound l cache) (relativePath : WideString) (nowTicks : Int) :
    Sound l (cache.get F relativePath nowTicks).2 := by
  unfold Cache.get
  dsimp only
  split
  · exact ⟨h.bounded, h.normal, h.last⟩
  · have hsame : ∀ e ∈ cache.entries.map (fun e => if e.key = normalizePath F relativePath then
        { e with lastAccessTicks := nowTicks } else e),
        ∃ e' ∈ cache.entries, e.key = e'.key ∧ e.resolved = e'.resolved := by
      intro e he
      obtain ⟨e', he', rfl⟩ := List.mem_map.mp he
      refine ⟨e', he', ?_, ?_⟩
      · split
        · rfl
        · rfl
      · split
        · rfl
        · rfl
    refine ⟨?_, ?_, ?_⟩
    · show (cache.entries.map _).length ≤ _
      rw [List.length_map]
      exact h.bounded
    · intro e he
      obtain ⟨e', he', hkey, _⟩ := hsame e he
      rw [hkey]
      exact h.normal e' he'
    · intro e he
      obtain ⟨e', he', hkey, hresolved⟩ := hsame e he
      rw [hkey, hresolved]
      exact h.last e' he'

/-- A `Put` is the last of its key, and no other entry has that key. -/
theorem Sound.put (hF : FoldsNoSeparator F) (h : Sound l cache) (relativePath : WideString)
    (resolved : V) (nowTicks : Int) (arrange : Arrangement V) :
    Sound (l ++ [(normalizePath F relativePath, resolved)])
      (cache.put F relativePath resolved nowTicks arrange) := by
  unfold Cache.put
  dsimp only
  obtain ⟨key, hkey⟩ : ∃ key, normalizePath F relativePath = key := ⟨_, rfl⟩
  have hnormal : NormalKey key := hkey ▸ normalKey_normalizePath hF relativePath
  rw [hkey]
  have hperm := arrange.perm
    ({ key, resolved, lastAccessTicks := nowTicks } :: cache.entries.filter fun e => e.key ≠ key)
  generalize arrange.order _ = entries at hperm ⊢
  have hmem : ∀ e ∈ entries, NormalKey e.key ∧
      LastOf e.key e.resolved (l ++ [(key, resolved)]) := by
    intro e he
    obtain rfl | he := List.mem_cons.mp (hperm.subset he)
    · exact ⟨hnormal, l, [], rfl, by simp⟩
    · obtain ⟨he, hne⟩ := List.mem_filter.mp he
      obtain ⟨before, after, heq, hafter⟩ := h.last e he
      refine ⟨h.normal e he, before, after ++ [(key, resolved)], by rw [heq]; simp, ?_⟩
      intro f hf
      obtain hf | hf := List.mem_append.mp hf
      · exact hafter f hf
      · rw [List.mem_singleton.mp hf]
        exact fun heq => of_decide_eq_true hne heq.symm
  have hlength : entries.length ≤ cache.maxCapacity + 1 := by
    have hfilter := List.length_filter_le (fun e => e.key ≠ key) cache.entries
    have hold := h.bounded
    have hsame := hperm.length_eq
    rw [List.length_cons] at hsame
    omega
  split
  · next hover =>
    refine ⟨?_, fun e he => (hmem e (mem_evictLRU he)).1, fun e he => (hmem e (mem_evictLRU he)).2⟩
    rw [maxCapacity_evictLRU, length_evictLRU]
    · show entries.length - 1 ≤ cache.maxCapacity
      omega
    · exact List.ne_nil_of_length_pos (Nat.lt_of_le_of_lt (Nat.zero_le _) hover)
  · next hfits =>
      exact ⟨Nat.le_of_not_lt hfits, fun e he => (hmem e he).1, fun e he => (hmem e he).2⟩

theorem Sound.step (hF : FoldsNoSeparator F) (h : Sound l cache) (call : Call V) :
    Sound (l ++ puts F [call]) (step F cache call) := by
  cases call with
  | get relativePath nowTicks =>
    rw [puts, List.filterMap_cons_none rfl, List.filterMap_nil, List.append_nil]
    exact h.get relativePath nowTicks
  | put relativePath resolved nowTicks arrange =>
    exact h.put hF relativePath resolved nowTicks arrange
  | invalidate relativePath =>
    rw [puts, List.filterMap_cons_none rfl, List.filterMap_nil, List.append_nil]
    exact (h.filter _).filter _
  | invalidateWithAncestors relativePath =>
    rw [puts, List.filterMap_cons_none rfl, List.filterMap_nil, List.append_nil]
    exact h.filter _
  | clear =>
    refine ⟨Nat.zero_le _, ?_, ?_⟩
    · exact fun e he => absurd he List.not_mem_nil
    · exact fun e he => absurd he List.not_mem_nil

theorem maxCapacity_step (call : Call V) : (step F cache call).maxCapacity = cache.maxCapacity := by
  cases call with
  | get relativePath nowTicks =>
    show (cache.get F relativePath nowTicks).2.maxCapacity = _
    unfold Cache.get
    dsimp only
    split
    · rfl
    · rfl
  | put relativePath resolved nowTicks arrange =>
    show (cache.put F relativePath resolved nowTicks arrange).maxCapacity = _
    unfold Cache.put
    dsimp only
    split
    · exact maxCapacity_evictLRU
    · rfl
  | invalidate => rfl
  | invalidateWithAncestors => rfl
  | clear => rfl

/-- Every sequence of calls. -/
theorem sound_run (hF : FoldsNoSeparator F) (maxCapacity : Nat) (calls : List (Call V)) :
    Sound (puts F calls) (run F maxCapacity calls) ∧
      (run F maxCapacity calls).maxCapacity = maxCapacity := by
  induction calls using List.reverseRecOn with
  | nil =>
    refine ⟨⟨Nat.zero_le _, ?_, ?_⟩, rfl⟩
    · exact fun e he => absurd he List.not_mem_nil
    · exact fun e he => absurd he List.not_mem_nil
  | append_singleton calls call ih =>
    have hrun : run F maxCapacity (calls ++ [call]) = step F (run F maxCapacity calls) call :=
      List.foldl_concat _ _ _ _
    rw [hrun, puts, List.filterMap_append, maxCapacity_step]
    exact ⟨ih.1.step hF call, ih.2⟩

/-! ## What an invalidation takes -/

theorem mem_invalidate {relativePath : WideString} {e : CacheEntry V} :
    e ∈ (cache.invalidate F relativePath).entries ↔ e ∈ cache.entries ∧
      ¬(e.key = normalizePath F relativePath ∨
        PathText.isInsideDirectory e.key (normalizePath F relativePath) = true) := by
  show e ∈ (cache.entries.filter _).filter _ ↔ _
  rw [List.mem_filter, List.mem_filter, not_or]
  simp [and_assoc]

theorem mem_invalidateWithAncestors {relativePath : WideString} {e : CacheEntry V} :
    e ∈ (cache.invalidateWithAncestors F relativePath).entries ↔ e ∈ cache.entries ∧
      ¬((e.key = normalizePath F relativePath ∨
        PathText.isInsideDirectory e.key (normalizePath F relativePath) = true) ∨
          e.key ∈ ancestors (normalizePath F relativePath)) := by
  show e ∈ cache.entries.filter _ ↔ _
  rw [List.mem_filter]
  simp

/-- At or below a path, as the loops test it.  Nothing tests below the root. -/
theorem taken_iff {key dir : WideString} (hkey : NormalKey key) :
    (key = dir ∨ PathText.isInsideDirectory key dir = true) ↔
      Below key dir ∧ (dir = [] → key = []) := by
  rw [PathText.isInsideDirectory_iff]
  by_cases hdir : dir = []
  · subst hdir
    have hnone : ¬∃ rest, key = [] ++ kBackslash :: rest := by
      intro h
      obtain ⟨rest, rfl⟩ := h
      exact hkey.head rfl
    simp only [hnone, or_false, below_root, true_and, forall_const]
  · rw [below_iff hdir]
    simp [hdir]

theorem takesBelow_iff (h : ∀ e ∈ cache.entries, NormalKey e.key) (relativePath : WideString) :
    TakesBelow F cache relativePath ↔
      (normalizePath F relativePath = [] → ∀ e ∈ cache.entries, e.key = []) := by
  unfold TakesBelow
  constructor
  · intro htakes hroot e he
    by_contra hne
    have hkept : e ∈ (cache.invalidate F relativePath).entries := by
      rw [mem_invalidate, taken_iff (h e he)]
      exact ⟨he, fun hin => hne (hin.2 hroot)⟩
    exact ((htakes e).mp hkept).2 (hroot ▸ below_root _)
  · intro hroot e
    rw [mem_invalidate]
    apply and_congr_right
    intro he
    rw [taken_iff (h e he)]
    exact not_congr (and_iff_left fun hnil => hroot hnil e he)

theorem ancestors_nil : ancestors [] = [] := by
  have hparent : parentPath [] = [] := rfl
  rw [ancestors, hparent, ancestorsFrom, if_pos List.isEmpty_nil]

/-- The keys that the pass takes, and those that it is for. -/
theorem line_iff {key dir : WideString} (hkey : NormalKey key) (hdir : NormalKey dir)
    (hroot : dir ≠ []) :
    ((key = dir ∨ PathText.isInsideDirectory key dir = true) ∨ key ∈ ancestors dir ↔
      Below key dir ∨ Below dir key) ↔
      key ≠ [] ∧ (hasDrivePrefix dir = true → key = dir.take 2 → key = dir) := by
  have htaken : (key = dir ∨ PathText.isInsideDirectory key dir = true) ↔ Below key dir := by
    rw [taken_iff hkey, and_iff_left fun hnil => absurd hnil hroot]
  rw [htaken]
  by_cases hbelow : Below key dir
  · simp only [hbelow, true_or, iff_self, true_iff]
    obtain rfl | ⟨rest, hrest⟩ := (below_iff hroot).mp hbelow
    · exact ⟨hroot, fun _ _ => rfl⟩
    · refine ⟨by simp [hrest], fun _ htake => ?_⟩
      have hlonger := congrArg List.length hrest
      have hshorter := congrArg List.length htake
      rw [List.length_append, List.length_cons] at hlonger
      rw [List.length_take] at hshorter
      omega
  · have hne : key ≠ dir := fun heq => hbelow (heq ▸ List.prefix_rfl)
    simp only [hbelow, false_or, mem_ancestors_iff_below hdir hkey hne, hne, imp_false, not_and]

theorem takesLine_iff_taken (relativePath : WideString) :
    TakesLine F cache relativePath ↔ ∀ e ∈ cache.entries,
      ((e.key = normalizePath F relativePath ∨
        PathText.isInsideDirectory e.key (normalizePath F relativePath) = true) ∨
          e.key ∈ ancestors (normalizePath F relativePath) ↔
        Below e.key (normalizePath F relativePath) ∨
          Below (normalizePath F relativePath) e.key) := by
  unfold TakesLine
  simp only [mem_invalidateWithAncestors]
  constructor
  · exact fun h e he => not_iff_not.mp ((and_congr_right_iff.mp (h e)) he)
  · exact fun h e => and_congr_right fun he => not_congr (h e he)

theorem takesLine_iff (hF : FoldsNoSeparator F) (h : ∀ e ∈ cache.entries, NormalKey e.key)
    (relativePath : WideString) :
    TakesLine F cache relativePath ↔
      (normalizePath F relativePath = [] → ∀ e ∈ cache.entries, e.key = []) ∧
      (normalizePath F relativePath ≠ [] →
        NoRootOrDrive cache (normalizePath F relativePath)) := by
  rw [takesLine_iff_taken]
  by_cases hroot : normalizePath F relativePath = []
  · simp only [hroot, ancestors_nil, List.not_mem_nil, or_false, ne_eq, not_true_eq_false,
      false_implies, and_true, true_implies]
    apply forall₂_congr
    intro e he
    rw [taken_iff (h e he)]
    simp only [below_root, true_and, true_implies, true_or, iff_true]
  · have hkey := normalKey_normalizePath hF relativePath
    simp only [hroot, false_implies, true_and, ne_eq, not_false_eq_true, true_implies]
    unfold NoRootOrDrive
    exact forall₂_congr fun e he => line_iff (h e he) hkey hroot

/-- After any calls on a cache of any capacity, the entries fit and each is the last that was
put under its key.  An invalidation of the root is exact where there is no other key; and one
with ancestors, of another path, where neither the root is a key nor the drive that the path
starts with. -/
theorem cache_calls_iff (hF : FoldsNoSeparator F) (maxCapacity : Nat) (calls : List (Call V)) :
    (run F maxCapacity calls).entries.length ≤ maxCapacity ∧
    (∀ e ∈ (run F maxCapacity calls).entries, LastOf e.key e.resolved (puts F calls)) ∧
    ∀ relativePath,
      (TakesBelow F (run F maxCapacity calls) relativePath ↔
        (normalizePath F relativePath = [] →
          ∀ e ∈ (run F maxCapacity calls).entries, e.key = [])) ∧
      (TakesLine F (run F maxCapacity calls) relativePath ↔
        (normalizePath F relativePath = [] →
          ∀ e ∈ (run F maxCapacity calls).entries, e.key = []) ∧
        (normalizePath F relativePath ≠ [] →
          NoRootOrDrive (run F maxCapacity calls) (normalizePath F relativePath))) := by
  obtain ⟨hsound, hcapacity⟩ := sound_run hF maxCapacity calls
  refine ⟨?_, hsound.last, fun relativePath => ⟨?_, ?_⟩⟩
  · have hbounded := hsound.bounded
    rwa [hcapacity] at hbounded
  · exact takesBelow_iff hsound.normal relativePath
  · exact takesLine_iff hF hsound.normal relativePath

end

theorem asciiLower_foldsNoSeparator : FoldsNoSeparator asciiLower := by
  intro s i u hu h
  change (s.map asciiLowerUnit)[i]? = some u at h
  rw [List.getElem?_map, Option.map_eq_some_iff] at h
  obtain ⟨v, hv, hfold⟩ := h
  have hlow : u.toNat < 0x61 := by
    simp only [isSlash, Bool.or_eq_true, decide_eq_true_eq] at hu
    obtain rfl | rfl := hu
    · decide
    · decide
  rw [hv, eq_of_asciiLowerUnit hfold hlow]

/-- One entry, in any order. -/
def inOrder : Arrangement Nat := ⟨id, fun _ => List.Perm.refl _⟩

/-- A cache of two entries: the put of `c` evicts `b`, which `a` has been read after, and
then `A` is invalidated. -/
def evictingCalls : List (Call Nat) :=
  [.put [0x61] 1 0 inOrder, .put [0x62] 2 1 inOrder, .get [0x61] 2, .put [0x63] 3 3 inOrder,
    .invalidate [0x41]]

theorem cache_calls_iff_evicting :
    (run asciiLower 2 evictingCalls).entries
        = [{ key := [0x63], resolved := 3, lastAccessTicks := 3 }] ∧
      LastOf [0x63] 3 (puts asciiLower evictingCalls) ∧
      TakesLine asciiLower (run asciiLower 2 evictingCalls) [0x63, 0x5C, 0x64] := by
  have h := cache_calls_iff asciiLower_foldsNoSeparator 2 evictingCalls
  have hentries : (run asciiLower 2 evictingCalls).entries =
      [{ key := [0x63], resolved := 3, lastAccessTicks := 3 }] := by decide +kernel
  refine ⟨hentries,
    h.2.1 { key := [0x63], resolved := 3, lastAccessTicks := 3 } (by simp [hentries]), (h.2.2 _).2.mpr ⟨?_, ?_⟩⟩
  · intro hroot
    exact absurd hroot (by decide)
  · intro _
    unfold NoRootOrDrive
    rw [hentries]
    decide

/-- `a` is put. -/
def putA : List (Call Nat) := [.put [0x61] 1 0 inOrder]

/-- The root's invalidation leaves `a`. -/
theorem invalidate_root_keeps :
    ¬∀ (F : CaseFold) (maxCapacity : Nat) (calls : List (Call Nat)) (relativePath : WideString),
      FoldsNoSeparator F → TakesBelow F (run F maxCapacity calls) relativePath := by
  intro h
  have htakes := h asciiLower 1 putA [] asciiLower_foldsNoSeparator
  have hkept := (htakes { key := [0x61], resolved := 1, lastAccessTicks := 0 }).mp (by decide)
  exact hkept.2 (below_root _)

end LayerMount.CacheText
