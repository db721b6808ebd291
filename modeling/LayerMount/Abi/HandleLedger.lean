import Mathlib.Data.List.Nodup
import LayerMount.Abi.HandleTable

/-!
# The ledger of handle values

`Ledger` is the specification of the handle table.  It knows nothing of slots or
generations: it records each value a call returned and what the later calls said
about it.  `HandleTable.Agrees` connects table and ledger, `step_agrees` carries
it over one call, and `run_agrees` over every history.

Two lemmas do the work for all five calls: `Agrees.occupy` issues the value of a
vacant slot, and `Agrees.rewrite` moves an open value to its next status.
-/

namespace LayerMount.Abi

/-! ## Histories of calls -/

section Histories

variable {T : Type}

inductive Call (T : Type) where
  | allocate (payload : Option T) (mem : Memory)
  | reserve (mem : Memory)
  | install (reservedValue : UInt64) (payload : Option T)
  | release (reservedValue : UInt64) (mem : Memory)
  | free (handleValue : UInt64) (mem : Memory)
  deriving DecidableEq, Repr

inductive Answer (T : Type) where
  | threw
  | value (v : UInt64)
  | installed (ok : Bool)
  | released
  | freed (payload : Option T)
  deriving DecidableEq, Repr

/-- The answer of a call that returns a handle value or throws. -/
def Answer.ofValue : Option UInt64 → Answer T
  | none => .threw
  | some v => .value v

def step (magic : UInt16) (t : HandleTable T) : Call T → Answer T × HandleTable T
  | .allocate payload mem =>
    let (v, t) := t.allocate magic mem payload
    (.ofValue v, t)
  | .reserve mem =>
    let (v, t) := t.reserve magic mem
    (.ofValue v, t)
  | .install reservedValue payload =>
    let (ok, t) := t.install magic reservedValue payload
    (.installed ok, t)
  | .release reservedValue mem => (.released, t.release magic mem reservedValue)
  | .free handleValue mem =>
    let (payload, t) := t.free magic mem handleValue
    (.freed payload, t)

/-- What a holder of a value knows about it. -/
inductive Status (T : Type) where
  | live (payload : T)
  | reserved
  | dead
  deriving DecidableEq, Repr

/-- Live or reserved: the value still occupies a slot. -/
def Status.isOpen : Status T → Bool
  | .dead => false
  | _ => true

/-- Release ends a pending reservation and nothing else. -/
def Status.release : Status T → Status T
  | .reserved => .dead
  | st => st

/-- Every non-zero value a call returned, oldest first, with its status. -/
abbrev Ledger (T : Type) := List (UInt64 × Status T)

namespace Ledger

def values (ledger : Ledger T) : List UInt64 := ledger.map Prod.fst

def update (ledger : Ledger T) (v : UInt64) (f : Status T → Status T) : Ledger T :=
  ledger.map fun e => if e.1 = v then (e.1, f e.2) else e

def issue (ledger : Ledger T) (v : UInt64) (st : Status T) : Ledger T :=
  if v = 0 then ledger else ledger ++ [(v, st)]

/-- The ledger after a call, read off the call and its answer alone. -/
def record (ledger : Ledger T) : Call T → Answer T → Ledger T
  | .allocate (some p) _, .value v => ledger.issue v (.live p)
  | .reserve _, .value v => ledger.issue v .reserved
  | .install v (some p), .installed true => ledger.update v fun _ => .live p
  | .release v _, _ => ledger.update v Status.release
  | .free v _, .freed (some _) => ledger.update v fun _ => .dead
  | _, _ => ledger

end Ledger

/-- A history from a given table and ledger. -/
def runFrom (magic : UInt16) (t : HandleTable T) (ledger : Ledger T) :
    List (Call T) → HandleTable T × Ledger T
  | [] => (t, ledger)
  | call :: calls =>
    let (answer, t') := step magic t call
    runFrom magic t' (ledger.record call answer) calls

/-- A history from a new table. -/
def run (magic : UInt16) (maxSlot : UInt32) (calls : List (Call T)) :
    HandleTable T × Ledger T :=
  runFrom magic (.new maxSlot) [] calls

/-! ## The invariant -/

/-- What the slot of a returned value says about it.  `free` says that the slot
is on the free list. -/
def Slot.Bears (slot : Slot T) (free : Prop) (generation : UInt32) : Status T → Prop
  | .live p => generation = slot.generation ∧ slot.live = true ∧ slot.reserved = false ∧
      slot.payload = some p
  | .reserved => generation = slot.generation ∧ slot.reserved = true ∧ slot.live = false
  | .dead => generation.toNat < slot.generation.toNat ∨
      generation = slot.generation ∧ slot.live = false ∧ slot.reserved = false ∧ ¬free

namespace HandleTable

/-- The table knows the returned value `v` in the status `st`. -/
def Tracks (magic : UInt16) (t : HandleTable T) (v : UInt64) (st : Status T) : Prop :=
  decodeMagic v = magic ∧ 0 < (decodeSlot v).toNat ∧
    ∃ slot, t.slots[(decodeSlot v).toNat]? = some slot ∧
      slot.Bears (decodeSlot v ∈ t.freeSlots) (decodeGeneration v) st

/-- The table and the ledger agree: every value of the ledger is tracked, and
every occupied slot belongs to an open value of the ledger. -/
structure Agrees (magic : UInt16) (t : HandleTable T) (ledger : Ledger T) : Prop where
  max_le : t.maxSlot.toNat ≤ kMaxSlot.toNat
  size_le : t.slots.length ≤ t.maxSlot.toNat + 1
  generation_le : ∀ (i : Nat) (slot : Slot T), t.slots[i]? = some slot →
    slot.generation.toNat ≤ kMaxGeneration.toNat
  free_nodup : t.freeSlots.Nodup
  free_closed : ∀ i ∈ t.freeSlots, 0 < i.toNat ∧ ∃ slot : Slot T,
    t.slots[i.toNat]? = some slot ∧ slot.live = false ∧ slot.reserved = false
  values_nodup : ledger.values.Nodup
  tracks : ∀ v st, (v, st) ∈ ledger → t.Tracks magic v st
  known : ∀ (i : UInt32) (slot : Slot T), 0 < i.toNat → t.slots[i.toNat]? = some slot →
    slot.live = true ∨ slot.reserved = true →
    ∃ st, (encode magic slot.generation i, st) ∈ ledger ∧ st.isOpen = true

/-- A slot that a call has taken and not filled: no value of the ledger carries
its generation. -/
def Vacant (t : HandleTable T) (ledger : Ledger T) (i : UInt32) : Prop :=
  0 < i.toNat ∧ i ∉ t.freeSlots ∧ ∃ slot, t.slots[i.toNat]? = some slot ∧
    slot.live = false ∧ slot.reserved = false ∧
    ∀ v st, (v, st) ∈ ledger → decodeSlot v = i →
      (decodeGeneration v).toNat < slot.generation.toNat

end HandleTable

/-! ### The ledger -/

namespace Ledger

variable {ledger : Ledger T} {v w : UInt64} {st st' : Status T}

theorem values_update (f : Status T → Status T) :
    (ledger.update v f).values = ledger.values := by
  simp only [values, update, List.map_map]
  apply List.map_congr_left
  intro e _
  by_cases h : e.1 = v <;> simp [h]

theorem mem_update {f : Status T → Status T} :
    (w, st') ∈ ledger.update v f ↔
      w ≠ v ∧ (w, st') ∈ ledger ∨ w = v ∧ ∃ st, (v, st) ∈ ledger ∧ st' = f st := by
  simp only [update, List.mem_map]
  constructor
  · rintro ⟨⟨u, st⟩, hmem, heq⟩
    by_cases h : u = v
    · subst h
      simp only [if_true, Prod.mk.injEq] at heq
      exact .inr ⟨heq.1.symm, st, hmem, heq.2.symm⟩
    · simp only [h, if_false, Prod.mk.injEq] at heq
      obtain ⟨rfl, rfl⟩ := heq
      exact .inl ⟨h, hmem⟩
  · rintro (⟨hne, hmem⟩ | ⟨rfl, st, hmem, rfl⟩)
    · exact ⟨(w, st'), hmem, by simp [hne]⟩
    · exact ⟨(w, st), hmem, by simp⟩

/-- Distinct values have one status each. -/
theorem status_unique (hnodup : ledger.values.Nodup) (h : (v, st) ∈ ledger)
    (h' : (v, st') ∈ ledger) : st = st' := by
  have heq := List.inj_on_of_nodup_map hnodup h h' rfl
  exact (Prod.mk.inj heq).2

/-- An update that changes no status changes nothing. -/
theorem update_eq_self {f : Status T → Status T}
    (h : ∀ st, (v, st) ∈ ledger → f st = st) : ledger.update v f = ledger := by
  rw [update]
  conv_rhs => rw [← List.map_id ledger]
  apply List.map_congr_left
  rintro ⟨u, st⟩ hmem
  by_cases hu : u = v
  · subst hu
    simp [h st hmem]
  · simp [hu]

end Ledger

/-! ### Slots found by value -/

namespace HandleTable

variable {magic : UInt16} {t t' : HandleTable T} {ledger : Ledger T} {v : UInt64}
  {slot : Slot T} {st : Status T} {mem : Memory} {p : T}

theorem decodeSlot_zero : decodeSlot 0 = 0 := by decide

theorem pos_iff_ne_zero {i : UInt32} : 0 < i.toNat ↔ i ≠ 0 := by
  rw [Nat.pos_iff_ne_zero, ne_eq, ne_eq, ← UInt32.toNat_inj]
  rfl

theorem findSlot_eq_some_iff :
    t.findSlot magic v = some slot ↔
      decodeMagic v = magic ∧ 0 < (decodeSlot v).toNat ∧
        t.slots[(decodeSlot v).toNat]? = some slot ∧
        slot.generation = decodeGeneration v := by
  rw [pos_iff_ne_zero]
  by_cases hs : decodeSlot v = 0
  · simp [findSlot, hs]
  have hv : v ≠ 0 := by
    rintro rfl
    exact hs decodeSlot_zero
  by_cases hm : decodeMagic v = magic
  · cases hget : t.slots[(decodeSlot v).toNat]? with
    | none => simp [findSlot, hv, hs, hm, hget]
    | some s =>
      by_cases hgen : s.generation = decodeGeneration v
      · simp only [findSlot, hv, hs, hm, hget]
        constructor
        · intro h
          obtain rfl : s = slot := by simpa [hgen] using h
          exact ⟨trivial, hs, rfl, hgen⟩
        · rintro ⟨-, -, h, -⟩
          obtain rfl : s = slot := by simpa using h
          simp [hgen]
      · simp only [findSlot, hv, hs, hm, hget]
        constructor
        · intro h
          simp [hgen] at h
        · rintro ⟨-, -, h, hgen'⟩
          obtain rfl : s = slot := by simpa using h
          exact absurd hgen' hgen
  · simp [findSlot, hm]

theorem resolve_eq : t.resolve magic v =
    (t.findSlot magic v).bind fun slot => if slot.live then slot.payload else none := by
  unfold resolve findSlot
  by_cases hv : v = 0
  · simp [hv]
  by_cases hm : decodeMagic v = magic
  · by_cases hs : decodeSlot v = 0
    · simp [hv, hm, hs]
    · cases hget : t.slots[(decodeSlot v).toNat]? with
      | none => simp [hv, hm, hs]
      | some s =>
        by_cases hgen : s.generation = decodeGeneration v <;> cases hl : s.live <;>
          simp [hv, hm, hs, hgen, hl]
  · simp [hv, hm]

theorem free_eq : t.free magic mem v =
    match t.findSlot magic v with
    | none => (none, t)
    | some slot =>
      if slot.live then
        (slot.payload,
          t.recycle mem (decodeSlot v) { slot with payload := none, live := false })
      else (none, t) := by
  unfold free findSlot
  by_cases hv : v = 0
  · simp [hv]
  by_cases hm : decodeMagic v = magic
  · by_cases hs : decodeSlot v = 0
    · simp [hv, hm, hs]
    · cases hget : t.slots[(decodeSlot v).toNat]? with
      | none => simp [hv, hm, hs]
      | some s =>
        by_cases hgen : s.generation = decodeGeneration v <;> cases hl : s.live <;>
          simp [hv, hm, hs, hgen, hl]
  · simp [hv, hm]

/-- A value is the encoding of the slot it finds. -/
theorem Agrees.encode_of_findSlot (h : t.Agrees magic ledger)
    (hfind : t.findSlot magic v = some slot) :
    encode magic slot.generation (decodeSlot v) = v := by
  obtain ⟨hm, hs, hget, hgen⟩ := findSlot_eq_some_iff.mp hfind
  have hslot : (decodeSlot v).toNat ≤ kMaxSlot.toNat := by
    have hlt := (List.getElem?_eq_some_iff.mp hget).1
    have hsize := h.size_le
    have hmax := h.max_le
    omega
  have hgle := h.generation_le _ _ hget
  apply eq_of_decode_eq
  · rw [decodeMagic_encode hgle hslot, hm]
  · rw [decodeGeneration_encode hgle hslot, hgen]
  · rw [decodeSlot_encode hgle hslot]

/-- An occupied slot found by value belongs to that value's ledger entry. -/
theorem Agrees.entry_of_findSlot (h : t.Agrees magic ledger)
    (hfind : t.findSlot magic v = some slot)
    (hopen : slot.live = true ∨ slot.reserved = true) :
    ∃ st, (v, st) ∈ ledger ∧ st.isOpen = true ∧
      slot.Bears (decodeSlot v ∈ t.freeSlots) (decodeGeneration v) st := by
  obtain ⟨hm, hs, hget, hgen⟩ := findSlot_eq_some_iff.mp hfind
  obtain ⟨st, hmem, hst⟩ := h.known _ _ hs hget hopen
  rw [h.encode_of_findSlot hfind] at hmem
  obtain ⟨-, -, slot', hget', hbears⟩ := h.tracks _ _ hmem
  obtain rfl : slot = slot' := by
    rw [hget] at hget'
    exact Option.some.inj hget'
  exact ⟨st, hmem, hst, hbears⟩

/-- The open values are found in their slots. -/
theorem Agrees.findSlot_of_mem (h : t.Agrees magic ledger) (hmem : (v, st) ∈ ledger)
    (hst : st.isOpen = true) :
    ∃ slot, t.findSlot magic v = some slot ∧
      slot.Bears (decodeSlot v ∈ t.freeSlots) (decodeGeneration v) st := by
  obtain ⟨hm, hs, slot, hget, hbears⟩ := h.tracks _ _ hmem
  refine ⟨slot, findSlot_eq_some_iff.mpr ⟨hm, hs, hget, ?_⟩, hbears⟩
  cases st with
  | live p => exact hbears.1.symm
  | reserved => exact hbears.1.symm
  | dead => cases hst

/-- A dead value finds no occupied slot. -/
theorem Agrees.findSlot_of_dead (h : t.Agrees magic ledger) (hmem : (v, .dead) ∈ ledger)
    (hfind : t.findSlot magic v = some slot) :
    slot.live = false ∧ slot.reserved = false := by
  obtain ⟨-, -, hget, hgen⟩ := findSlot_eq_some_iff.mp hfind
  obtain ⟨-, -, slot', hget', hbears⟩ := h.tracks _ _ hmem
  obtain rfl : slot = slot' := by
    rw [hget] at hget'
    exact Option.some.inj hget'
  rcases hbears with hlt | ⟨-, hl, hr, -⟩
  · rw [hgen] at hlt
    omega
  · exact ⟨hl, hr⟩

/-! ### One call -/

theorem bears_of_free {free free' : Prop} {generation : UInt32}
    (h : slot.Bears free generation st) (himp : free' → free) :
    slot.Bears free' generation st := by
  cases st with
  | live p => exact h
  | reserved => exact h
  | dead =>
    rcases h with hlt | ⟨hg, hl, hr, hfree⟩
    · exact .inl hlt
    · exact .inr ⟨hg, hl, hr, fun hf => hfree (himp hf)⟩

/-- The slot vector grows by a slot no value refers to. -/
theorem Agrees.grow (h : t.Agrees magic ledger)
    (hlen : t.slots.length ≤ t.maxSlot.toNat) :
    ({ t with slots := t.slots ++ [{}] } : HandleTable T).Agrees magic ledger := by
  have hold : ∀ (i : Nat) (slot : Slot T), (t.slots ++ [({} : Slot T)])[i]? = some slot →
      t.slots[i]? = some slot ∨ slot = {} := by
    intro i slot hget
    rw [List.getElem?_append] at hget
    split at hget
    · exact .inl hget
    · right
      obtain ⟨hlt, heq⟩ := List.getElem?_eq_some_iff.mp hget
      simpa using heq.symm
  have hkeep : ∀ (i : Nat) (slot : Slot T), t.slots[i]? = some slot →
      (t.slots ++ [({} : Slot T)])[i]? = some slot := by
    intro i slot hget
    rw [List.getElem?_append_left (List.getElem?_eq_some_iff.mp hget).1, hget]
  refine ⟨h.max_le, by simp; omega, ?_, h.free_nodup, ?_, h.values_nodup, ?_, ?_⟩
  · intro i slot hget
    rcases hold i slot hget with hget | rfl
    · exact h.generation_le i slot hget
    · show (1 : UInt32).toNat ≤ kMaxGeneration.toNat
      decide
  · intro i hi
    obtain ⟨hpos, slot, hget, hclosed⟩ := h.free_closed i hi
    exact ⟨hpos, slot, hkeep _ _ hget, hclosed⟩
  · intro v st hmem
    obtain ⟨hm, hs, slot, hget, hbears⟩ := h.tracks v st hmem
    exact ⟨hm, hs, slot, hkeep _ _ hget, hbears⟩
  · intro i slot hpos hget hopen
    rcases hold _ slot hget with hget | rfl
    · exact h.known i slot hpos hget hopen
    · simp at hopen

theorem agrees_new (maxSlot : UInt32) :
    (new maxSlot : HandleTable T).Agrees magic ([] : Ledger T) := by
  refine ⟨?_, by simp [new], by simp [new], by simp [new], by simp [new],
    by simp [Ledger.values], by simp, by simp [new]⟩
  simp only [new]
  split
  · exact Nat.le_refl _
  · rename_i hle
    exact Nat.not_lt.mp fun hlt => hle (UInt32.lt_iff_toNat_lt.mpr hlt)

/-- A slot from the free list is vacant once it has left the list. -/
theorem Agrees.pop {i : UInt32} {rest : List UInt32} (h : t.Agrees magic ledger)
    (hfree : t.freeSlots = i :: rest) :
    ({ t with freeSlots := rest } : HandleTable T).Agrees magic ledger ∧
      ({ t with freeSlots := rest } : HandleTable T).Vacant ledger i := by
  have hsub : ∀ j ∈ rest, j ∈ t.freeSlots := fun j hj => by simp [hfree, hj]
  have hmem : i ∈ t.freeSlots := by simp [hfree]
  have hnodup := h.free_nodup
  rw [hfree, List.nodup_cons] at hnodup
  constructor
  · refine ⟨h.max_le, h.size_le, h.generation_le, hnodup.2,
      fun j hj => h.free_closed j (hsub j hj), h.values_nodup, ?_, h.known⟩
    intro v st hv
    obtain ⟨hm, hs, slot, hget, hbears⟩ := h.tracks v st hv
    exact ⟨hm, hs, slot, hget, bears_of_free hbears (hsub _)⟩
  · obtain ⟨hpos, slot, hget, hl, hr⟩ := h.free_closed i hmem
    refine ⟨hpos, hnodup.1, slot, hget, hl, hr, ?_⟩
    rintro v st hv rfl
    obtain ⟨-, -, slot', hget', hbears⟩ := h.tracks v st hv
    obtain rfl : slot = slot' := by
      rw [hget] at hget'
      exact Option.some.inj hget'
    cases st with
    | live p => exact absurd hbears.2.1 (by simp [hl])
    | reserved => exact absurd hbears.2.1 (by simp [hr])
    | dead =>
      rcases hbears with hlt | ⟨-, -, -, hfree'⟩
      · exact hlt
      · exact absurd hmem hfree'

/-- Taking a slot keeps the agreement, and a slot that was taken is vacant. -/
theorem Agrees.takeSlot (h : t.Agrees magic ledger) {r : Option UInt32}
    (htake : t.takeSlot mem = (r, t')) :
    t'.Agrees magic ledger ∧ ∀ i, r = some i → i ≠ 0 → t'.Vacant ledger i := by
  unfold HandleTable.takeSlot at htake
  split at htake
  · rename_i i rest hfree
    obtain ⟨rfl, rfl⟩ := Prod.mk.inj htake
    obtain ⟨hagrees, hvacant⟩ := h.pop hfree
    refine ⟨hagrees, ?_⟩
    rintro j hj -
    obtain rfl := Option.some.inj hj
    exact hvacant
  · rename_i hfree
    split at htake
    · obtain ⟨rfl, rfl⟩ := Prod.mk.inj htake
      exact ⟨h, by simp⟩
    · -- slot 0 is made first, and is never handed out
      have hzero : ({ t with slots := if t.slots.isEmpty then [{}] else t.slots } :
          HandleTable T).Agrees magic ledger := by
        split
        · rename_i hempty
          have hnil : t.slots = [] := List.isEmpty_iff.mp hempty
          have hgrow := h.grow (by simp [hnil])
          simpa [hnil] using hgrow
        · exact h
      have hpos : 0 < (if t.slots.isEmpty then [({} : Slot T)] else t.slots).length := by
        split
        · simp
        · rename_i hempty
          exact List.length_pos_iff.mpr (by simpa using hempty)
      generalize (if t.slots.isEmpty then [({} : Slot T)] else t.slots) = slots at htake hzero hpos
      simp only at htake
      split at htake
      · obtain ⟨rfl, rfl⟩ := Prod.mk.inj htake
        refine ⟨hzero, ?_⟩
        rintro i hi hne
        exact absurd (Option.some.inj hi).symm hne
      · rename_i hroom
        split at htake
        · obtain ⟨rfl, rfl⟩ := Prod.mk.inj htake
          exact ⟨hzero, by simp⟩
        · obtain ⟨rfl, rfl⟩ := Prod.mk.inj htake
          refine ⟨hzero.grow (by simpa using hroom), ?_⟩
          rintro i hi -
          obtain rfl := Option.some.inj hi
          have hidx : (UInt32.ofNat slots.length).toNat = slots.length := by
            have hmax := hzero.max_le
            rw [toNat_kMaxSlot] at hmax
            simp only at hmax hroom
            rw [UInt32.toNat_ofNat_of_lt']
            simp only [UInt32.size]
            omega
          refine ⟨by omega, by simp [hfree], {}, by simp [hidx], rfl, rfl, ?_⟩
          intro v st hv hslot
          obtain ⟨-, -, slot, hget, -⟩ := hzero.tracks v st hv
          have hlt := (List.getElem?_eq_some_iff.mp hget).1
          rw [hslot, hidx] at hlt
          simp at hlt

/-- Writing one slot leaves the values of the other slots tracked. -/
theorem Tracks.setSlot_of_ne {i : UInt32} (h : t.Tracks magic v st)
    (hne : decodeSlot v ≠ i) (slot : Slot T) : (t.setSlot i slot).Tracks magic v st := by
  obtain ⟨hm, hs, slot', hget, hbears⟩ := h
  refine ⟨hm, hs, slot', ?_, hbears⟩
  have hne' : i.toNat ≠ (decodeSlot v).toNat := fun he =>
    hne (UInt32.toNat_inj.mp he.symm)
  simpa [setSlot, List.getElem?_set_ne hne'] using hget

theorem getElem?_setSlot_self {i : UInt32} (h : i.toNat < t.slots.length) :
    (t.setSlot i slot).slots[i.toNat]? = some slot := by
  simp [setSlot, List.getElem?_set_self h]

theorem getElem?_setSlot_ne {i : UInt32} {j : Nat} (h : j ≠ i.toNat) :
    (t.setSlot i slot).slots[j]? = t.slots[j]? := by
  simp [setSlot, List.getElem?_set_ne (Ne.symm h)]

/-- Filling or reserving a vacant slot issues its value. -/
theorem Agrees.occupy {i : UInt32} {old : Slot T} (h : t.Agrees magic ledger)
    (hvacant : t.Vacant ledger i) (hold : t.slots[i.toNat]? = some old)
    (hgen : slot.generation = old.generation) (hst : st.isOpen = true)
    (hbears : slot.Bears False slot.generation st) :
    (t.setSlot i slot).Agrees magic
      (ledger.issue (encode magic old.generation i) st) := by
  obtain ⟨hpos, hfree, old', hget, hl, hr, hfresh⟩ := hvacant
  obtain rfl : old = old' := by
    rw [hold] at hget
    exact Option.some.inj hget
  have hlt := (List.getElem?_eq_some_iff.mp hold).1
  have hgle := h.generation_le _ _ hold
  have hile : i.toNat ≤ kMaxSlot.toNat := by
    have hsize := h.size_le
    have hmax := h.max_le
    omega
  have hdm : decodeMagic (encode magic old.generation i) = magic :=
    decodeMagic_encode hgle hile
  have hdg : decodeGeneration (encode magic old.generation i) = old.generation :=
    decodeGeneration_encode hgle hile
  have hds : decodeSlot (encode magic old.generation i) = i := decodeSlot_encode hgle hile
  generalize hv : encode magic old.generation i = v at hdm hdg hds
  have hvne : v ≠ 0 := by
    rintro rfl
    rw [decodeSlot_zero] at hds
    rw [← hds] at hpos
    simp at hpos
  have hnew : v ∉ ledger.values := by
    intro hmem
    obtain ⟨⟨_, st'⟩, hentry, rfl⟩ := List.mem_map.mp hmem
    have hlt' := hfresh _ st' hentry hds
    rw [hdg] at hlt'
    omega
  have hissue : ledger.issue v st = ledger ++ [(v, st)] := by simp [Ledger.issue, hvne]
  rw [hissue]
  refine ⟨h.max_le, by simpa [setSlot] using h.size_le, ?_, h.free_nodup, ?_, ?_, ?_, ?_⟩
  · intro j slot' hget'
    by_cases hj : j = i.toNat
    · subst hj
      rw [getElem?_setSlot_self hlt] at hget'
      obtain rfl := Option.some.inj hget'
      rw [hgen]
      exact hgle
    · rw [getElem?_setSlot_ne hj] at hget'
      exact h.generation_le j slot' hget'
  · intro j hj
    obtain ⟨hjpos, slot', hget', hclosed⟩ := h.free_closed j hj
    have hji : j.toNat ≠ i.toNat := by
      intro he
      exact hfree (UInt32.toNat_inj.mp he ▸ hj)
    exact ⟨hjpos, slot', by rw [getElem?_setSlot_ne hji]; exact hget', hclosed⟩
  · simp only [Ledger.values, List.map_append, List.map_cons, List.map_nil]
    exact List.nodup_append.mpr ⟨h.values_nodup, List.nodup_singleton v, by
      rintro a ha b hb rfl
      rw [List.mem_singleton] at hb
      exact hnew (hb ▸ ha)⟩
  · intro w st' hmem
    rw [List.mem_append, List.mem_singleton, Prod.mk.injEq] at hmem
    rcases hmem with hmem | ⟨rfl, rfl⟩
    · by_cases hw : decodeSlot w = i
      · -- an older value of the same slot: it was dead and stays dead
        have hlt' := hfresh w st' hmem hw
        obtain ⟨hm, hs, slot', hget', hb⟩ := h.tracks w st' hmem
        obtain rfl : old = slot' := by
          rw [hw, hold] at hget'
          exact Option.some.inj hget'
        cases st' with
        | live p => exact absurd hb.2.1 (by simp [hl])
        | reserved => exact absurd hb.2.1 (by simp [hr])
        | dead =>
          refine ⟨hm, hs, slot, ?_, .inl (by rw [hgen]; exact hlt')⟩
          rw [hw]
          exact getElem?_setSlot_self hlt
      · exact (h.tracks w st' hmem).setSlot_of_ne hw slot
    · refine ⟨hdm, by rw [hds]; exact hpos, slot, ?_, ?_⟩
      · rw [hds]
        exact getElem?_setSlot_self hlt
      · rw [hdg, ← hgen]
        refine bears_of_free hbears ?_
        rw [hds]
        exact fun hf => hfree hf
  · intro j slot' hjpos hget' hopen
    by_cases hj : j.toNat = i.toNat
    · rw [hj, getElem?_setSlot_self hlt] at hget'
      obtain rfl := Option.some.inj hget'
      obtain rfl := UInt32.toNat_inj.mp hj
      exact ⟨st, by rw [hgen, hv]; simp, hst⟩
    · rw [getElem?_setSlot_ne hj] at hget'
      obtain ⟨st', hmem, hst'⟩ := h.known j slot' hjpos hget' hopen
      exact ⟨st', List.mem_append_left _ hmem, hst'⟩

/-- Rewriting the slot of an open value moves the value to a new status.  `free`
is the new free list: the old one, or the old one with the closed slot on it. -/
theorem Agrees.rewrite {old : Slot T} {f : Status T → Status T}
    (h : t.Agrees magic ledger) (free : List UInt32) (hmem : (v, st) ∈ ledger) (hst : st.isOpen = true)
    (hold : t.findSlot magic v = some old)
    (hgen : old.generation.toNat ≤ slot.generation.toNat)
    (hgle : slot.generation.toNat ≤ kMaxGeneration.toNat)
    (hfree : free = t.freeSlots ∨ free = decodeSlot v :: t.freeSlots ∧
      slot.live = false ∧ slot.reserved = false)
    (hbears : slot.Bears (decodeSlot v ∈ free) (decodeGeneration v) (f st))
    (hopen : slot.live = true ∨ slot.reserved = true →
      slot.generation = old.generation ∧ (f st).isOpen = true) :
    ({ t.setSlot (decodeSlot v) slot with freeSlots := free } : HandleTable T).Agrees
      magic (ledger.update v f) := by
  obtain ⟨hm, hpos, hget, hvgen⟩ := findSlot_eq_some_iff.mp hold
  obtain ⟨slotOld, hfindOld, hbearsOld⟩ := h.findSlot_of_mem hmem hst
  obtain rfl : old = slotOld := by
    rw [hold] at hfindOld
    exact Option.some.inj hfindOld
  have hlt := (List.getElem?_eq_some_iff.mp hget).1
  have hnotfree : decodeSlot v ∉ t.freeSlots := by
    intro hf
    obtain ⟨-, slot', hget', hl, hr⟩ := h.free_closed _ hf
    obtain rfl : old = slot' := by
      rw [hget] at hget'
      exact Option.some.inj hget'
    cases st with
    | live p => exact absurd hbearsOld.2.1 (by simp [hl])
    | reserved => exact absurd hbearsOld.2.1 (by simp [hr])
    | dead => cases hst
  have hother : ∀ j, j ≠ decodeSlot v → (j ∈ free ↔ j ∈ t.freeSlots) := by
    intro j hj
    rcases hfree with rfl | ⟨rfl, -, -⟩
    · exact Iff.rfl
    · simp [hj]
  refine ⟨h.max_le, by simpa [setSlot] using h.size_le, ?_, ?_, ?_, ?_, ?_, ?_⟩
  · intro j slot' hget'
    by_cases hj : j = (decodeSlot v).toNat
    · subst hj
      rw [getElem?_setSlot_self hlt] at hget'
      obtain rfl := Option.some.inj hget'
      exact hgle
    · rw [getElem?_setSlot_ne hj] at hget'
      exact h.generation_le j slot' hget'
  · rcases hfree with rfl | ⟨rfl, -, -⟩
    · exact h.free_nodup
    · exact List.nodup_cons.mpr ⟨hnotfree, h.free_nodup⟩
  · intro j hj
    by_cases hjv : j = decodeSlot v
    · subst hjv
      rcases hfree with rfl | ⟨rfl, hl, hr⟩
      · exact absurd hj hnotfree
      · exact ⟨hpos, slot, getElem?_setSlot_self hlt, hl, hr⟩
    · obtain ⟨hjpos, slot', hget', hclosed⟩ := h.free_closed j ((hother j hjv).mp hj)
      have hne : j.toNat ≠ (decodeSlot v).toNat := fun he => hjv (UInt32.toNat_inj.mp he)
      exact ⟨hjpos, slot', by rw [getElem?_setSlot_ne hne]; exact hget', hclosed⟩
  · rw [Ledger.values_update]
    exact h.values_nodup
  · intro w st' hw
    rcases Ledger.mem_update.mp hw with ⟨hne, hw⟩ | ⟨rfl, st₀, hst₀, rfl⟩
    · by_cases hslot : decodeSlot w = decodeSlot v
      · -- another value of the slot has an older generation, so it stays dead
        obtain ⟨hwm, hwpos, slot', hget', hb⟩ := h.tracks w st' hw
        obtain rfl : old = slot' := by
          rw [hslot, hget] at hget'
          exact Option.some.inj hget'
        have hgne : decodeGeneration w ≠ old.generation := by
          intro he
          exact hne (eq_of_decode_eq (by rw [hwm, hm]) (by rw [he, hvgen]) hslot)
        refine ⟨hwm, hwpos, slot, ?_, ?_⟩
        · rw [hslot]
          exact getElem?_setSlot_self hlt
        · cases st' with
          | live p => exact absurd hb.1 hgne
          | reserved => exact absurd hb.1 hgne
          | dead =>
            rcases hb with hlt' | ⟨he, -⟩
            · exact .inl (Nat.lt_of_lt_of_le hlt' hgen)
            · exact absurd he hgne
      · obtain ⟨hwm, hwpos, slot', hget', hb⟩ :=
          (h.tracks w st' hw).setSlot_of_ne hslot slot
        exact ⟨hwm, hwpos, slot', hget', bears_of_free hb (hother _ hslot).mp⟩
    · obtain rfl := Ledger.status_unique h.values_nodup hmem hst₀
      exact ⟨hm, hpos, slot, getElem?_setSlot_self hlt, hbears⟩
  · intro j slot' hjpos hget' ho
    by_cases hj : j.toNat = (decodeSlot v).toNat
    · rw [hj, getElem?_setSlot_self hlt] at hget'
      obtain rfl := Option.some.inj hget'
      obtain rfl := UInt32.toNat_inj.mp hj
      obtain ⟨hg, hfo⟩ := hopen ho
      have hv : encode magic slot.generation (decodeSlot v) = v := by
        rw [hg]
        exact h.encode_of_findSlot hold
      exact ⟨f st, by rw [hv]; exact Ledger.mem_update.mpr (.inr ⟨rfl, st, hmem, rfl⟩), hfo⟩
    · rw [getElem?_setSlot_ne hj] at hget'
      obtain ⟨st', hmem', hst'⟩ := h.known j slot' hjpos hget' ho
      refine ⟨st', Ledger.mem_update.mpr (.inl ⟨?_, hmem'⟩), hst'⟩
      -- the value of slot `j` decodes to slot `j`
      rintro rfl
      have hlt' := (List.getElem?_eq_some_iff.mp hget').1
      have hjle : j.toNat ≤ kMaxSlot.toNat := by
        have hsize := h.size_le
        have hmax := h.max_le
        omega
      rw [decodeSlot_encode (h.generation_le _ _ hget') hjle] at hj
      exact hj rfl

/-- `Recycle` closes an open value, whichever way the free list goes. -/
theorem Agrees.recycle {old : Slot T} {f : Status T → Status T}
    (h : t.Agrees magic ledger) (hmem : (v, st) ∈ ledger) (hst : st.isOpen = true)
    (hold : t.findSlot magic v = some old) (hgen : slot.generation = old.generation)
    (hl : slot.live = false) (hr : slot.reserved = false) (hf : f st = .dead) :
    (t.recycle mem (decodeSlot v) slot).Agrees magic (ledger.update v f) := by
  obtain ⟨-, -, hget, hvgen⟩ := findSlot_eq_some_iff.mp hold
  have hgle := h.generation_le _ _ hget
  have hnotfree : decodeSlot v ∉ t.freeSlots := by
    intro hfree
    obtain ⟨-, slot', hget', hl', hr'⟩ := h.free_closed _ hfree
    obtain rfl : old = slot' := by
      rw [hget] at hget'
      exact Option.some.inj hget'
    obtain ⟨slot', hfind, hb⟩ := h.findSlot_of_mem hmem hst
    obtain rfl : old = slot' := by
      rw [hold] at hfind
      exact Option.some.inj hfind
    cases st with
    | live p => exact absurd hb.2.1 (by simp [hl'])
    | reserved => exact absurd hb.2.1 (by simp [hr'])
    | dead => cases hst
  unfold HandleTable.recycle
  split
  · rename_i hmax
    rw [UInt32.le_iff_toNat_le, hgen] at hmax
    have heq : kMaxGeneration = old.generation :=
      UInt32.toNat_inj.mp (Nat.le_antisymm hmax hgle)
    refine h.rewrite t.freeSlots hmem hst hold hgle (Nat.le_refl _) (.inl rfl) ?_
      (by simp [hl, hr])
    rw [hf]
    exact .inr ⟨by rw [heq, hvgen], hl, hr, hnotfree⟩
  · rename_i hmax
    rw [UInt32.le_iff_toNat_le, hgen, Nat.not_le] at hmax
    split
    · have hsucc : (slot.generation + 1).toNat = old.generation.toNat + 1 := by
        rw [UInt32.toNat_add, hgen, UInt32.toNat_one]
        rw [toNat_kMaxGeneration] at hmax
        omega
      refine h.rewrite (decodeSlot v :: t.freeSlots) hmem hst hold ?_ ?_
        (.inr ⟨rfl, hl, hr⟩) ?_ (by simp [hl, hr])
      · rw [hsucc]
        omega
      · rw [hsucc]
        omega
      · rw [hf]
        left
        rw [hsucc, ← hvgen]
        omega
    · refine h.rewrite t.freeSlots hmem hst hold (Nat.le_of_lt hmax)
        (Nat.le_refl _) (.inl rfl) ?_ (by simp [hl, hr])
      rw [hf]
      left
      rw [← hvgen]
      exact hmax

theorem Agrees.allocate (h : t.Agrees magic ledger) (payload : Option T) :
    (t.allocate magic mem payload).2.Agrees magic
      (ledger.record (.allocate payload mem)
        (.ofValue (t.allocate magic mem payload).1)) := by
  cases payload with
  | none => exact h
  | some p =>
    unfold HandleTable.allocate
    simp only
    split
    · rename_i t' htake
      exact (h.takeSlot htake).1
    · rename_i i t' htake
      obtain ⟨hagrees, hvacant⟩ := h.takeSlot htake
      split
      · exact hagrees
      · rename_i hi
        obtain ⟨hpos, hfree, old, hget, hl, hr, hfresh⟩ := hvacant i rfl hi
        rw [hget]
        exact hagrees.occupy ⟨hpos, hfree, old, hget, hl, hr, hfresh⟩ hget rfl rfl
          ⟨rfl, rfl, hr, rfl⟩

theorem Agrees.reserve (h : t.Agrees magic ledger) :
    (t.reserve magic mem).2.Agrees magic
      (ledger.record (.reserve mem) (.ofValue (t.reserve magic mem).1)) := by
  unfold HandleTable.reserve
  split
  · rename_i t' htake
    exact (h.takeSlot htake).1
  · rename_i i t' htake
    obtain ⟨hagrees, hvacant⟩ := h.takeSlot htake
    split
    · exact hagrees
    · rename_i hi
      obtain ⟨hpos, hfree, old, hget, hl, hr, hfresh⟩ := hvacant i rfl hi
      rw [hget]
      exact hagrees.occupy ⟨hpos, hfree, old, hget, hl, hr, hfresh⟩ hget rfl rfl
        ⟨rfl, rfl, hl⟩

theorem Agrees.install (h : t.Agrees magic ledger) (payload : Option T) :
    (t.install magic v payload).2.Agrees magic
      (ledger.record (.install v payload)
        (.installed (t.install magic v payload).1)) := by
  cases payload with
  | none => exact h
  | some p =>
    unfold HandleTable.install
    cases hfind : t.findSlot magic v with
    | none => exact h
    | some slot =>
      cases hres : slot.reserved with
      | false => simpa [hres, Ledger.record] using h
      | true =>
        obtain ⟨st, hmem, hst, hb⟩ := h.entry_of_findSlot hfind (.inr hres)
        obtain ⟨-, -, hget, hgen⟩ := findSlot_eq_some_iff.mp hfind
        have hgle := h.generation_le _ _ hget
        simp only [hres, Bool.not_true, Bool.false_eq_true, if_false, Ledger.record]
        exact h.rewrite t.freeSlots hmem hst hfind (Nat.le_refl _)
          hgle (.inl rfl) ⟨hgen.symm, rfl, rfl, rfl⟩
          (fun _ => ⟨rfl, rfl⟩)

theorem Agrees.release (h : t.Agrees magic ledger) :
    (t.release magic mem v).Agrees magic (ledger.update v Status.release) := by
  unfold HandleTable.release
  cases hfind : t.findSlot magic v with
  | none =>
    rwa [Ledger.update_eq_self]
    intro st hmem
    cases st with
    | live p => rfl
    | dead => rfl
    | reserved =>
      obtain ⟨slot, hfind', -⟩ := h.findSlot_of_mem hmem rfl
      rw [hfind] at hfind'
      cases hfind'
  | some slot =>
    cases hres : slot.reserved with
    | false =>
      simp only [hres, Bool.not_false, if_true]
      rwa [Ledger.update_eq_self]
      intro st hmem
      cases st with
      | live p => rfl
      | dead => rfl
      | reserved =>
        obtain ⟨slot', hfind', hb⟩ := h.findSlot_of_mem hmem rfl
        obtain rfl : slot = slot' := by
          rw [hfind] at hfind'
          exact Option.some.inj hfind'
        exact absurd hb.2.1 (by simp [hres])
    | true =>
      obtain ⟨st, hmem, hst, hb⟩ := h.entry_of_findSlot hfind (.inr hres)
      simp only [hres, Bool.not_true, Bool.false_eq_true, if_false]
      cases st with
      | live p => exact absurd hb.2.2.1 (by simp [hres])
      | reserved => exact h.recycle hmem hst hfind rfl hb.2.2 rfl rfl
      | dead => cases hst

theorem Agrees.free (h : t.Agrees magic ledger) :
    (t.free magic mem v).2.Agrees magic
      (ledger.record (.free v mem) (.freed (t.free magic mem v).1)) := by
  rw [free_eq]
  cases hfind : t.findSlot magic v with
  | none => exact h
  | some slot =>
    cases hlive : slot.live with
    | false => simpa [hlive, Ledger.record] using h
    | true =>
      obtain ⟨st, hmem, hst, hb⟩ := h.entry_of_findSlot hfind (.inl hlive)
      cases st with
      | live p =>
        obtain ⟨-, -, hr, hp⟩ := hb
        simp only [hlive, if_true, hp, Ledger.record]
        exact h.recycle hmem hst hfind rfl rfl hr rfl
      | reserved => exact absurd hb.2.2 (by simp [hlive])
      | dead => cases hst

end HandleTable

theorem step_agrees {magic : UInt16} {t : HandleTable T} {ledger : Ledger T}
    (h : t.Agrees magic ledger) (call : Call T) :
    (step magic t call).2.Agrees magic (ledger.record call (step magic t call).1) := by
  cases call with
  | allocate payload mem => exact h.allocate payload
  | reserve mem => exact h.reserve
  | install v payload => exact h.install payload
  | release v mem => exact h.release
  | free v mem => exact h.free

theorem runFrom_agrees {magic : UInt16} {t : HandleTable T} {ledger : Ledger T}
    (h : t.Agrees magic ledger) (calls : List (Call T)) :
    (runFrom magic t ledger calls).1.Agrees magic (runFrom magic t ledger calls).2 := by
  induction calls generalizing t ledger with
  | nil => exact h
  | cons call calls ih => exact ih (step_agrees h call)

theorem run_agrees (magic : UInt16) (maxSlot : UInt32) (calls : List (Call T)) :
    (run magic maxSlot calls).1.Agrees magic (run magic maxSlot calls).2 :=
  runFrom_agrees (HandleTable.agrees_new maxSlot) calls

end Histories

end LayerMount.Abi
