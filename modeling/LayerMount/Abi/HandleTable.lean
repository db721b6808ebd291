import Mathlib.Algebra.Group.Nat.Defs
import Mathlib.Tactic.Common

/-!
# The handle table

`abi/HandleTable.h` maps opaque 64-bit values to payloads.  A value packs a
16-bit magic, a 24-bit generation and a 24-bit slot index.  Slots are recycled
through a free list, and a slot whose generation has reached the maximum is
retired instead.

The table below is the source's, field for field.  `std::vector::emplace_back`
and `push_back` may run out of memory; `Memory` says for one call which of its
growths succeed, so a run may fail at any of them.  The mutex is absent: every
call takes it, so a history of calls is a sequence.

What the table guarantees is stated and proved in `LayerMount.Abi.HandleLedger`
and `LayerMount.Abi.HandleSafety`.
-/

namespace LayerMount.Abi

/-! ## Encoding -/

def kSlotBits : UInt64 := 24
def kGenerationBits : UInt64 := 24
def kMagicBits : UInt64 := 16

def kSlotMask : UInt64 := (1 <<< kSlotBits) - 1
def kGenerationMask : UInt64 := (1 <<< kGenerationBits) - 1
def kMagicMask : UInt64 := (1 <<< kMagicBits) - 1

def kMaxSlot : UInt32 := kSlotMask.toUInt32
def kMaxGeneration : UInt32 := kGenerationMask.toUInt32

def encode (magic : UInt16) (generation slot : UInt32) : UInt64 :=
  (magic.toUInt64 <<< (kSlotBits + kGenerationBits))
    ||| (generation.toUInt64 <<< kSlotBits)
    ||| slot.toUInt64

def decodeMagic (value : UInt64) : UInt16 :=
  ((value >>> (kSlotBits + kGenerationBits)) &&& kMagicMask).toUInt16

def decodeGeneration (value : UInt64) : UInt32 :=
  ((value >>> kSlotBits) &&& kGenerationMask).toUInt32

def decodeSlot (value : UInt64) : UInt32 :=
  (value &&& kSlotMask).toUInt32

theorem toNat_kMaxSlot : kMaxSlot.toNat = 2 ^ 24 - 1 := by decide

theorem toNat_kMaxGeneration : kMaxGeneration.toNat = 2 ^ 24 - 1 := by decide

/-- The packed value as a number, for a generation and a slot that fit their
fields. -/
theorem toNat_encode {magic : UInt16} {generation slot : UInt32}
    (hg : generation.toNat < 2 ^ 24) (hs : slot.toNat < 2 ^ 24) :
    (encode magic generation slot).toNat
      = magic.toNat * 2 ^ 48 + (generation.toNat * 2 ^ 24 + slot.toNat) := by
  have hm : magic.toNat < 2 ^ 16 := magic.toNat_lt
  have h48 : (kSlotBits + kGenerationBits).toNat = 48 := by decide
  have h24 : kSlotBits.toNat = 24 := by decide
  simp only [encode, UInt64.toNat_or, UInt64.toNat_shiftLeft, h48, h24,
    UInt16.toNat_toUInt64, UInt32.toNat_toUInt64]
  rw [Nat.mod_eq_of_lt (a := 48) (by decide), Nat.mod_eq_of_lt (a := 24) (by decide)]
  rw [Nat.shiftLeft_eq, Nat.shiftLeft_eq]
  rw [Nat.mod_eq_of_lt (by omega), Nat.mod_eq_of_lt (by omega)]
  rw [Nat.or_assoc, Nat.mul_comm generation.toNat,
    ← Nat.two_pow_add_eq_or_of_lt hs, Nat.mul_comm magic.toNat,
    ← Nat.two_pow_add_eq_or_of_lt (by omega)]

theorem toNat_decodeMagic (value : UInt64) :
    (decodeMagic value).toNat = value.toNat / 2 ^ 48 := by
  have hv : value.toNat < 2 ^ 64 := value.toNat_lt
  have h48 : (kSlotBits + kGenerationBits).toNat % 64 = 48 := by decide
  have hmask : kMagicMask.toNat = 2 ^ 16 - 1 := by decide
  simp only [decodeMagic, UInt64.toNat_toUInt16, UInt64.toNat_and,
    UInt64.toNat_shiftRight, h48, hmask, Nat.and_two_pow_sub_one_eq_mod,
    Nat.shiftRight_eq_div_pow]
  omega

theorem toNat_decodeGeneration (value : UInt64) :
    (decodeGeneration value).toNat = value.toNat / 2 ^ 24 % 2 ^ 24 := by
  have h24 : kSlotBits.toNat % 64 = 24 := by decide
  have hmask : kGenerationMask.toNat = 2 ^ 24 - 1 := by decide
  simp only [decodeGeneration, UInt64.toNat_toUInt32, UInt64.toNat_and,
    UInt64.toNat_shiftRight, h24, hmask, Nat.and_two_pow_sub_one_eq_mod,
    Nat.shiftRight_eq_div_pow]
  omega

theorem toNat_decodeSlot (value : UInt64) :
    (decodeSlot value).toNat = value.toNat % 2 ^ 24 := by
  have hmask : kSlotMask.toNat = 2 ^ 24 - 1 := by decide
  simp only [decodeSlot, UInt64.toNat_toUInt32, UInt64.toNat_and, hmask,
    Nat.and_two_pow_sub_one_eq_mod]
  omega

/-- A value whose slot, generation and magic are known is known. -/
theorem eq_of_decode_eq {v w : UInt64} (hm : decodeMagic v = decodeMagic w)
    (hg : decodeGeneration v = decodeGeneration w)
    (hs : decodeSlot v = decodeSlot w) : v = w := by
  have hm' := congrArg UInt16.toNat hm
  have hg' := congrArg UInt32.toNat hg
  have hs' := congrArg UInt32.toNat hs
  rw [toNat_decodeMagic, toNat_decodeMagic] at hm'
  rw [toNat_decodeGeneration, toNat_decodeGeneration] at hg'
  rw [toNat_decodeSlot, toNat_decodeSlot] at hs'
  apply UInt64.toNat_inj.mp
  omega

section RoundTrip

variable {magic : UInt16} {generation slot : UInt32}
  (hg : generation.toNat ≤ kMaxGeneration.toNat) (hs : slot.toNat ≤ kMaxSlot.toNat)
include hg hs

theorem decodeMagic_encode : decodeMagic (encode magic generation slot) = magic := by
  rw [toNat_kMaxGeneration] at hg
  rw [toNat_kMaxSlot] at hs
  apply UInt16.toNat_inj.mp
  rw [toNat_decodeMagic, toNat_encode (by omega) (by omega)]
  omega

theorem decodeGeneration_encode :
    decodeGeneration (encode magic generation slot) = generation := by
  rw [toNat_kMaxGeneration] at hg
  rw [toNat_kMaxSlot] at hs
  apply UInt32.toNat_inj.mp
  rw [toNat_decodeGeneration, toNat_encode (by omega) (by omega)]
  omega

theorem decodeSlot_encode : decodeSlot (encode magic generation slot) = slot := by
  rw [toNat_kMaxGeneration] at hg
  rw [toNat_kMaxSlot] at hs
  apply UInt32.toNat_inj.mp
  rw [toNat_decodeSlot, toNat_encode (by omega) (by omega)]
  omega

end RoundTrip

/-! ## The table -/

structure Slot (T : Type) where
  payload : Option T := none
  generation : UInt32 := 1
  live : Bool := false
  reserved : Bool := false
  deriving DecidableEq, Repr

/-- `freeSlots` is the source's vector with its back at the head of the list:
`push_back` is `cons` and `pop_back` is `tail`. -/
structure HandleTable (T : Type) where
  maxSlot : UInt32
  slots : List (Slot T) := []
  freeSlots : List UInt32 := []
  deriving DecidableEq, Repr

/-- Which of the vector growths of one call find memory: the slot vector's
unused slot 0, its next slot, and the free list. -/
structure Memory where
  slotZero : Bool := true
  nextSlot : Bool := true
  freeList : Bool := true
  deriving DecidableEq, Repr

namespace HandleTable

variable {T : Type}

/-- The constructor: a `maxSlot` above `kMaxSlot` is clamped to it. -/
def new (maxSlot : UInt32) : HandleTable T :=
  { maxSlot := if kMaxSlot < maxSlot then kMaxSlot else maxSlot }

/-- `TakeSlot`.  `none` is the exception of a growth without memory; slot 0 is
the answer of a full table. -/
def takeSlot (mem : Memory) (t : HandleTable T) : Option UInt32 × HandleTable T :=
  match t.freeSlots with
  | slotIndex :: rest => (some slotIndex, { t with freeSlots := rest })
  | [] =>
    if t.slots.isEmpty && !mem.slotZero then (none, t)
    else
      let slots := if t.slots.isEmpty then [{}] else t.slots
      if t.maxSlot.toNat < slots.length then (some 0, { t with slots })
      else if !mem.nextSlot then (none, { t with slots })
      else (some (UInt32.ofNat slots.length), { t with slots := slots ++ [{}] })

/-- `FindSlot`: the slot whose current generation the value carries. -/
def findSlot (magic : UInt16) (handleValue : UInt64) (t : HandleTable T) :
    Option (Slot T) :=
  if handleValue = 0 ∨ decodeMagic handleValue ≠ magic then none
  else if decodeSlot handleValue = 0 then none
  else
    match t.slots[(decodeSlot handleValue).toNat]? with
    | none => none
    | some slot =>
      if slot.generation ≠ decodeGeneration handleValue then none else some slot

/-- Writes one slot back, as the source does through a reference. -/
def setSlot (t : HandleTable T) (slotIndex : UInt32) (slot : Slot T) : HandleTable T :=
  { t with slots := t.slots.set slotIndex.toNat slot }

/-- `Recycle`.  `slot` is the slot at `slotIndex`.  A free list that cannot grow
leaks the slot. -/
def recycle (mem : Memory) (slotIndex : UInt32) (slot : Slot T) (t : HandleTable T) :
    HandleTable T :=
  if kMaxGeneration ≤ slot.generation then
    t.setSlot slotIndex { slot with generation := kMaxGeneration }
  else if mem.freeList then
    { t.setSlot slotIndex { slot with generation := slot.generation + 1 } with
      freeSlots := slotIndex :: t.freeSlots }
  else t.setSlot slotIndex { slot with generation := kMaxGeneration }

/-- `Allocate`, with `AllocateShared`.  The answer `none` is an exception. -/
def allocate (magic : UInt16) (mem : Memory) (payload : Option T) (t : HandleTable T) :
    Option UInt64 × HandleTable T :=
  match payload with
  | none => (some 0, t)
  | some p =>
    match t.takeSlot mem with
    | (none, t) => (none, t)
    | (some slotIndex, t) =>
      if slotIndex = 0 then (some 0, t)
      else
        match t.slots[slotIndex.toNat]? with
        | none => (some 0, t)
        | some slot =>
          (some (encode magic slot.generation slotIndex),
            t.setSlot slotIndex { slot with payload := some p, live := true })

/-- `Reserve`. -/
def reserve (magic : UInt16) (mem : Memory) (t : HandleTable T) :
    Option UInt64 × HandleTable T :=
  match t.takeSlot mem with
  | (none, t) => (none, t)
  | (some slotIndex, t) =>
    if slotIndex = 0 then (some 0, t)
    else
      match t.slots[slotIndex.toNat]? with
      | none => (some 0, t)
      | some slot =>
        (some (encode magic slot.generation slotIndex),
          t.setSlot slotIndex { slot with reserved := true })

/-- `Install`. -/
def install (magic : UInt16) (reservedValue : UInt64) (payload : Option T)
    (t : HandleTable T) : Bool × HandleTable T :=
  match payload, t.findSlot magic reservedValue with
  | none, _ => (false, t)
  | _, none => (false, t)
  | some p, some slot =>
    if !slot.reserved then (false, t)
    else (true, t.setSlot (decodeSlot reservedValue)
      { slot with reserved := false, payload := some p, live := true })

/-- `Release`. -/
def release (magic : UInt16) (mem : Memory) (reservedValue : UInt64)
    (t : HandleTable T) : HandleTable T :=
  match t.findSlot magic reservedValue with
  | none => t
  | some slot =>
    if !slot.reserved then t
    else t.recycle mem (decodeSlot reservedValue) { slot with reserved := false }

/-- `Resolve`.  The checks are those of `findSlot` with the liveness added, in
the source's order. -/
def resolve (magic : UInt16) (handleValue : UInt64) (t : HandleTable T) : Option T :=
  if handleValue = 0 then none
  else if decodeMagic handleValue ≠ magic then none
  else if decodeSlot handleValue = 0 then none
  else
    match t.slots[(decodeSlot handleValue).toNat]? with
    | none => none
    | some slot =>
      if !slot.live || slot.generation ≠ decodeGeneration handleValue then none
      else slot.payload

/-- `Free`: the payload moves out of the table. -/
def free (magic : UInt16) (mem : Memory) (handleValue : UInt64) (t : HandleTable T) :
    Option T × HandleTable T :=
  if handleValue = 0 ∨ decodeMagic handleValue ≠ magic then (none, t)
  else if decodeSlot handleValue = 0 then (none, t)
  else
    match t.slots[(decodeSlot handleValue).toNat]? with
    | none => (none, t)
    | some slot =>
      if !slot.live || slot.generation ≠ decodeGeneration handleValue then (none, t)
      else (slot.payload,
        t.recycle mem (decodeSlot handleValue)
          { slot with payload := none, live := false })

end HandleTable

end LayerMount.Abi
