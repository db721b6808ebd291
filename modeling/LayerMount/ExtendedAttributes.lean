import LayerMount.WideText
import LayerMount.Lib.Bytes
import Mathlib.Data.List.Infix

/-!
# Extended attributes

`ExtendedAttributesUserModeCanSet` and `CopyExtendedAttributes` of `EntryCopy.cpp`.  A page
of attributes is a list of records of variable length, each with the distance to the next
one; the filter drops the kernel's and links the others anew at ULONG boundaries.

A read is partial: `none` is a read outside the buffer.  The host gives the attributes of the
source from an index on, some at a time (`Pages`).
-/

namespace LayerMount.EntryCopy

open Lib

abbrev EaBytes := List UInt8

/-! ## The source's functions -/

/-- `sizeof(FullEaHeader)`. -/
def kFullEaHeaderSize : Nat := 8

structure FullEaHeader where
  nextEntryOffset : Nat
  nameLength : Nat
  valueLength : Nat
  deriving DecidableEq, Repr

/-- A read of a part of a buffer. -/
def readPart (list : EaBytes) (offset size : Nat) : Option EaBytes :=
  if offset + size ≤ list.length then some ((list.drop offset).take size) else none

def readHeader (list : EaBytes) (offset : Nat) : Option FullEaHeader :=
  (readPart list offset kFullEaHeaderSize).map fun bytes =>
    { nextEntryOffset := field bytes 0 4
      nameLength := field bytes 5 1
      valueLength := field bytes 6 2 }

def asciiLowerByte (b : UInt8) : UInt8 := if 0x41 ≤ b ∧ b ≤ 0x5A then b + 0x20 else b

/-- `$KERNEL.` -/
def kKernelPrefix : EaBytes := [0x24, 0x4B, 0x45, 0x52, 0x4E, 0x45, 0x4C, 0x2E]

/-- The compare is `_strnicmp`.  The text to find has no NUL, which would end it. -/
def isKernelExtendedAttributeName (name : EaBytes) : Bool :=
  kKernelPrefix.length ≤ name.length &&
    (name.take kKernelPrefix.length).map asciiLowerByte = kKernelPrefix.map asciiLowerByte

def alignedToUlong (offset : Nat) : Nat := (offset + 4 - 1) / 4 * 4

/-- The loop of `FullEaEntryCount`. -/
def fullEaEntryCountFrom (list : EaBytes) (length offset count : Nat) : Option Nat :=
  if offset + kFullEaHeaderSize ≤ length then
    match readHeader list offset with
    | none => none
    | some header =>
      if header.nextEntryOffset = 0 then some (count + 1)
      else fullEaEntryCountFrom list length (offset + header.nextEntryOffset) (count + 1)
  else some count
termination_by length - offset
decreasing_by
  simp only [kFullEaHeaderSize] at *
  omega

def fullEaEntryCount (list : EaBytes) : Option Nat := fullEaEntryCountFrom list list.length 0 0

/-- An assignment to `nextEntryOffset` of the header at `place`. -/
def setNextEntryOffset (list : EaBytes) (place next : Nat) : EaBytes :=
  list.take place ++ leBytes 4 next ++ list.drop (place + 4)

/-- `settable` with one entry more, and the place of that entry. -/
def keepEntry (settable : EaBytes) (lastKept : Nat) (entry : EaBytes) : EaBytes × Nat :=
  let linked :=
    if settable.isEmpty then settable
    else
      let size := alignedToUlong settable.length
      setNextEntryOffset (settable ++ List.replicate (size - settable.length) 0) lastKept
        (size - lastKept)
  (setNextEntryOffset (linked ++ entry) linked.length 0, linked.length)

/-- The loop of `ExtendedAttributesUserModeCanSet`. -/
def settableFrom (list : EaBytes) (length offset : Nat) (settable : EaBytes) (lastKept : Nat) :
    Option EaBytes :=
  if offset + kFullEaHeaderSize ≤ length then
    match readHeader list offset with
    | none => none
    | some header =>
      let entrySize := kFullEaHeaderSize + header.nameLength + 1 + header.valueLength
      if length < offset + entrySize then some settable
      else
        match readPart list (offset + kFullEaHeaderSize) header.nameLength with
        | none => none
        | some name =>
          let kept :=
            if isKernelExtendedAttributeName name then some (settable, lastKept)
            else (readPart list offset entrySize).map (keepEntry settable lastKept)
          match kept with
          | none => none
          | some (settable', lastKept') =>
            if header.nextEntryOffset = 0 then some settable'
            else settableFrom list length (offset + header.nextEntryOffset) settable' lastKept'
  else some settable
termination_by length - offset
decreasing_by
  simp only [kFullEaHeaderSize] at *
  omega

def extendedAttributesUserModeCanSet (list : EaBytes) : Option EaBytes :=
  settableFrom list list.length 0 [] 0

/-- What a query for attributes answers.  `ended` stands for no attributes, for no more of
them and for a volume that has none; an overflow gives the entries that fit. -/
inductive EaQuery where
  | ended
  | failed
  | entries (list : EaBytes)
  deriving DecidableEq, Repr

inductive EaSet where
  | done
  | refused
  | failed
  deriving DecidableEq, Repr

/-- The host's side.  The index of a query counts from 1. -/
structure EaHost where
  query : Nat → EaQuery
  /-- The destination opens for attributes. -/
  opensDestination : Bool
  /-- The answer to the set call of this number. -/
  set : Nat → EaSet

/-- The end of `CopyExtendedAttributes`: its success, and the lists it handed to the set call
that were set. -/
inductive EaOutcome where
  | finished (success : Bool) (sets : List EaBytes)
  | readOutside
  deriving DecidableEq, Repr

/-- The loop of `CopyExtendedAttributes` for a number of turns, with the lists set so far. -/
def copyExtendedAttributesFrom (H : EaHost) : Nat → Nat → List EaBytes → Option EaOutcome
  | 0, _, _ => none
  | turns + 1, nextIndex, sets =>
    match H.query nextIndex with
    | .ended => some (.finished true sets)
    | .failed => some (.finished false sets)
    | .entries list =>
      if list.isEmpty then some (.finished true sets)
      else
        match fullEaEntryCount list, extendedAttributesUserModeCanSet list with
        | some count, some settable =>
          let next := (nextIndex + count) % 2 ^ 32
          if settable.isEmpty then copyExtendedAttributesFrom H turns next sets
          else if !H.opensDestination then some (.finished false sets)
          else
            match H.set sets.length with
            | .refused => some (.finished true sets)
            | .failed => some (.finished false sets)
            | .done => copyExtendedAttributesFrom H turns next (sets ++ [settable])
        | _, _ => some .readOutside

def copyExtendedAttributes (H : EaHost) (turns : Nat) : Option EaOutcome :=
  copyExtendedAttributesFrom H turns 1 []

/-! ## Lists of attributes -/

structure ExtendedAttribute where
  flags : UInt8
  name : EaBytes
  value : EaBytes
  nameFits : name.length < 2 ^ 8
  valueFits : value.length < 2 ^ 16

namespace ExtendedAttribute

/-- The size of the entry. -/
def size (a : ExtendedAttribute) : Nat := kFullEaHeaderSize + a.name.length + 1 + a.value.length

def isKernel (a : ExtendedAttribute) : Bool := isKernelExtendedAttributeName a.name

/-- The entry behind its first field. -/
def body (a : ExtendedAttribute) : EaBytes :=
  a.flags :: (leBytes 1 a.name.length ++ (leBytes 2 a.value.length ++ (a.name ++ 0 :: a.value)))

/-- The entry, with the distance to the next one. -/
def bytes (a : ExtendedAttribute) (next : Nat) : EaBytes := leBytes 4 next ++ a.body

@[simp] theorem length_bytes (a : ExtendedAttribute) (next : Nat) :
    (a.bytes next).length = a.size := by
  unfold bytes body size kFullEaHeaderSize
  simp only [List.length_append, length_leBytes, List.length_cons]
  omega

theorem size_lt (a : ExtendedAttribute) : a.size < 2 ^ 17 := by
  have hname := a.nameFits
  have hvalue := a.valueFits
  unfold size kFullEaHeaderSize
  omega

end ExtendedAttribute

/-- `FILE_FULL_EA_INFORMATION`: the bytes are the entries of a list of attributes, each linked
to the next over a multiple of `unit`, whatever stands between them and behind the last. -/
inductive FullEaList (unit : Nat) : List ExtendedAttribute → EaBytes → Prop where
  | last (a : ExtendedAttribute) (rest : EaBytes) : FullEaList unit [a] (a.bytes 0 ++ rest)
  | link (a : ExtendedAttribute) (gap : EaBytes) {attributes : List ExtendedAttribute}
    {rest : EaBytes} (hunit : unit ∣ a.size + gap.length) (hnext : a.size + gap.length < 2 ^ 32)
    (h : FullEaList unit attributes rest) :
    FullEaList unit (a :: attributes) (a.bytes (a.size + gap.length) ++ (gap ++ rest))

/-! ## Reads -/

theorem readPart_isSome {list : EaBytes} {offset size : Nat} (h : offset + size ≤ list.length) :
    readPart list offset size = some ((list.drop offset).take size) := if_pos h

theorem readPart_append (before part after : EaBytes) :
    readPart (before ++ (part ++ after)) before.length part.length = some part := by
  rw [readPart_isSome (by simp), List.drop_left, List.take_left]

namespace ExtendedAttribute

def header (a : ExtendedAttribute) (next : Nat) : EaBytes :=
  leBytes 4 next ++ (a.flags :: (leBytes 1 a.name.length ++ leBytes 2 a.value.length))

theorem length_header (a : ExtendedAttribute) (next : Nat) :
    (a.header next).length = kFullEaHeaderSize := by
  simp [header, kFullEaHeaderSize]

theorem bytes_eq (a : ExtendedAttribute) (next : Nat) :
    a.bytes next = a.header next ++ (a.name ++ 0 :: a.value) := by
  simp [bytes, body, header]

theorem field_next (a : ExtendedAttribute) {next : Nat} (hnext : next < 2 ^ 32) :
    field (a.header next) 0 4 = next :=
  field_leBytes [] rfl (by omega) _

theorem field_nameLength (a : ExtendedAttribute) (next : Nat) :
    field (a.header next) 5 1 = a.name.length := by
  have hsplit : a.header next = (leBytes 4 next ++ [a.flags]) ++
      (leBytes 1 a.name.length ++ leBytes 2 a.value.length) := by simp [header]
  have hname := a.nameFits
  rw [hsplit]
  exact field_leBytes _ (by simp) (by omega) _

theorem field_valueLength (a : ExtendedAttribute) (next : Nat) :
    field (a.header next) 6 2 = a.value.length := by
  have hsplit : a.header next = (leBytes 4 next ++ a.flags :: leBytes 1 a.name.length) ++
      (leBytes 2 a.value.length ++ []) := by simp [header]
  have hvalue := a.valueFits
  rw [hsplit]
  exact field_leBytes _ (by simp) (by omega) _

end ExtendedAttribute

section

variable (a : ExtendedAttribute) (before after : EaBytes)

/-- The header of an entry reads back. -/
theorem readHeader_bytes {next : Nat} (hnext : next < 2 ^ 32) :
    readHeader (before ++ (a.bytes next ++ after)) before.length =
      some { nextEntryOffset := next, nameLength := a.name.length
             valueLength := a.value.length } := by
  unfold readHeader
  rw [a.bytes_eq, List.append_assoc, ← a.length_header next, readPart_append]
  simp only [Option.map_some, a.field_next hnext, a.field_nameLength, a.field_valueLength]

theorem readPart_name (next : Nat) :
    readPart (before ++ (a.bytes next ++ after)) (before.length + kFullEaHeaderSize) a.name.length
      = some a.name := by
  have hsplit : before ++ (a.bytes next ++ after)
      = (before ++ a.header next) ++ (a.name ++ (0 :: a.value ++ after)) := by
    simp [a.bytes_eq]
  have hoffset : before.length + kFullEaHeaderSize = (before ++ a.header next).length := by
    rw [List.length_append, a.length_header]
  rw [hsplit, hoffset]
  exact readPart_append _ _ _

theorem readPart_entry (next : Nat) :
    readPart (before ++ (a.bytes next ++ after)) before.length
      (kFullEaHeaderSize + a.name.length + 1 + a.value.length) = some (a.bytes next) := by
  have hsize : kFullEaHeaderSize + a.name.length + 1 + a.value.length = (a.bytes next).length :=
    (a.length_bytes next).symm
  rw [hsize]
  exact readPart_append _ _ _

end

/-- No buffer makes the filter read outside it. -/
theorem settableFrom_isSome (list : EaBytes) (offset : Nat) (settable : EaBytes) (lastKept : Nat) :
    (settableFrom list list.length offset settable lastKept).isSome := by
  fun_induction settableFrom list list.length offset settable lastKept with
  | case1 offset settable lastKept hlt hnone =>
    unfold readHeader at hnone
    rw [readPart_isSome hlt] at hnone
    exact absurd hnone (by simp)
  | case2 => rfl
  | case3 offset settable lastKept hlt header hheader entrySize hfits hnone =>
    rw [readPart_isSome (by omega)] at hnone
    exact absurd hnone (by simp)
  | case4 offset settable lastKept hlt header hheader entrySize hfits name hname kept hnone =>
    have hentry : readPart list offset entrySize = some ((list.drop offset).take entrySize) :=
      readPart_isSome (by omega)
    have hkept : (if isKernelExtendedAttributeName name then some (settable, lastKept)
        else (readPart list offset entrySize).map (keepEntry settable lastKept)) = none := hnone
    rw [hentry] at hkept
    split at hkept
    · exact absurd hkept (by simp)
    · exact absurd hkept (by simp)
  | case5 => rfl
  | case6 _ _ _ _ _ _ _ _ _ _ _ _ _ _ _ ih => exact ih
  | case7 => rfl

theorem fullEaEntryCountFrom_isSome (list : EaBytes) (offset count : Nat) :
    (fullEaEntryCountFrom list list.length offset count).isSome := by
  fun_induction fullEaEntryCountFrom list list.length offset count with
  | case1 offset count hlt hnone =>
    unfold readHeader at hnone
    rw [readPart_isSome hlt] at hnone
    exact absurd hnone (by simp)
  | case2 => rfl
  | case3 _ _ _ _ _ _ ih => exact ih
  | case4 => rfl

/-! ## The list that is kept -/

theorem alignedToUlong_spec (n : Nat) :
    4 ∣ alignedToUlong n ∧ n ≤ alignedToUlong n ∧ alignedToUlong n < n + 4 := by
  unfold alignedToUlong
  omega

/-- Alignment counts from any boundary. -/
theorem alignedToUlong_add {place : Nat} (h : 4 ∣ place) (n : Nat) :
    alignedToUlong (place + n) = place + alignedToUlong n := by
  unfold alignedToUlong
  omega

namespace ExtendedAttribute

/-- The bytes up to the next boundary. -/
def padding (a : ExtendedAttribute) : EaBytes := List.replicate (alignedToUlong a.size - a.size) 0

theorem size_add_padding (a : ExtendedAttribute) :
    a.size + a.padding.length = alignedToUlong a.size := by
  have h := alignedToUlong_spec a.size
  unfold padding
  rw [List.length_replicate]
  omega

/-- The entry, linked over the next boundary. -/
def linked (a : ExtendedAttribute) : EaBytes := a.bytes (alignedToUlong a.size) ++ a.padding

theorem length_linked (a : ExtendedAttribute) : a.linked.length = alignedToUlong a.size := by
  rw [linked, List.length_append, a.length_bytes, a.size_add_padding]

end ExtendedAttribute

/-- The entries of a list with each at a ULONG boundary. -/
def eaList : List ExtendedAttribute → EaBytes
  | [] => []
  | [a] => a.bytes 0
  | a :: b :: rest => a.linked ++ eaList (b :: rest)

theorem eaList_snoc (init : List ExtendedAttribute) (a : ExtendedAttribute) :
    eaList (init ++ [a]) = init.flatMap ExtendedAttribute.linked ++ a.bytes 0 := by
  induction init with
  | nil => rfl
  | cons b init ih =>
    have hcons : eaList (b :: (init ++ [a])) = b.linked ++ eaList (init ++ [a]) := by
      cases init with
      | nil => rfl
      | cons c init => rfl
    rw [List.cons_append, hcons, ih, List.flatMap_cons, List.append_assoc]

/-- It is a well-formed list of them. -/
theorem fullEaList_eaList {attributes : List ExtendedAttribute} (hne : attributes ≠ []) :
    FullEaList 4 attributes (eaList attributes) := by
  induction attributes with
  | nil => exact absurd rfl hne
  | cons a rest ih =>
    cases rest with
    | nil =>
      have h : FullEaList 4 [a] (a.bytes 0 ++ []) := .last a []
      rwa [List.append_nil] at h
    | cons b rest =>
      have hspec := alignedToUlong_spec a.size
      have hlt := a.size_lt
      have hsize := a.size_add_padding
      have h := @FullEaList.link 4 a a.padding _ _ (by omega) (by omega)
        (ih (List.cons_ne_nil b rest))
      rwa [hsize, ← List.append_assoc] at h

theorem dvd_length_linked (init : List ExtendedAttribute) :
    4 ∣ (init.flatMap ExtendedAttribute.linked).length := by
  induction init with
  | nil => exact Nat.dvd_zero 4
  | cons a init ih =>
    rw [List.flatMap_cons, List.length_append, a.length_linked]
    exact Nat.dvd_add (alignedToUlong_spec a.size).1 ih

theorem setNextEntryOffset_bytes (before : EaBytes) (a : ExtendedAttribute) (next next' : Nat)
    (after : EaBytes) : setNextEntryOffset (before ++ (a.bytes next ++ after)) before.length next'
      = before ++ (a.bytes next' ++ after) := by
  have hdrop : (before ++ (a.bytes next ++ after)).drop (before.length + 4) = a.body ++ after := by
    rw [← List.drop_drop, List.drop_left, ExtendedAttribute.bytes, List.append_assoc]
    exact List.drop_left' (length_leBytes 4 next)
  unfold setNextEntryOffset
  rw [List.take_left, hdrop, ExtendedAttribute.bytes]
  simp

/-- What the filter holds after it kept these attributes. -/
structure KeptSoFar (kept : List ExtendedAttribute) (settable : EaBytes) (lastKept : Nat) : Prop where
  bytes : settable = eaList kept
  place : ∀ init a, kept = init ++ [a] → lastKept = (init.flatMap ExtendedAttribute.linked).length

/-- Keeping an entry links the one before it over the next boundary. -/
theorem KeptSoFar.keepEntry {kept : List ExtendedAttribute} {settable : EaBytes} {lastKept : Nat}
    (h : KeptSoFar kept settable lastKept) (a : ExtendedAttribute) (next : Nat) :
    KeptSoFar (kept ++ [a]) (EntryCopy.keepEntry settable lastKept (a.bytes next)).1
      (EntryCopy.keepEntry settable lastKept (a.bytes next)).2 := by
  -- What stands before the new entry: all kept ones, linked.
  have hlinked : (if settable.isEmpty then settable
      else
        setNextEntryOffset
          (settable ++ List.replicate (alignedToUlong settable.length - settable.length) 0) lastKept
          (alignedToUlong settable.length - lastKept)) = kept.flatMap ExtendedAttribute.linked := by
    rcases List.eq_nil_or_concat kept with rfl | ⟨init, b, hconcat⟩
    · rw [h.bytes]
      rfl
    · rw [List.concat_eq_append] at hconcat
      subst hconcat
      have hplace := h.place init b rfl
      have hbytes := h.bytes
      rw [eaList_snoc] at hbytes
      have hlength : settable.length = lastKept + b.size := by
        rw [hbytes, List.length_append, b.length_bytes, hplace]
      have haligned : alignedToUlong settable.length = lastKept + alignedToUlong b.size := by
        rw [hlength]
        exact alignedToUlong_add (hplace ▸ dvd_length_linked init) b.size
      have hnonempty : ¬ settable.isEmpty = true := by
        have hsize : 0 < b.size := by
          unfold ExtendedAttribute.size
          omega
        rw [List.isEmpty_iff, ← List.length_eq_zero_iff]
        omega
      have hpadding : alignedToUlong settable.length - settable.length
          = alignedToUlong b.size - b.size := by omega
      have hnext : alignedToUlong settable.length - lastKept = alignedToUlong b.size := by omega
      rw [if_neg hnonempty, hpadding, hnext, hbytes, hplace, List.append_assoc]
      show setNextEntryOffset (_ ++ (b.bytes 0 ++ b.padding)) _ _ = _
      rw [setNextEntryOffset_bytes, List.flatMap_append, List.flatMap_singleton]
      rfl
  have hentry : EntryCopy.keepEntry settable lastKept (a.bytes next) =
      (eaList (kept ++ [a]), (kept.flatMap ExtendedAttribute.linked).length) := by
    unfold EntryCopy.keepEntry
    simp only [hlinked]
    have hset := setNextEntryOffset_bytes (kept.flatMap ExtendedAttribute.linked) a next 0 []
    rw [List.append_nil, List.append_nil] at hset
    rw [hset, eaList_snoc]
  rw [hentry]
  refine ⟨rfl, ?_⟩
  intro init b heq
  have hinit := List.append_inj_left' heq rfl
  rw [hinit]

/-- What the filter holds after an entry. -/
def keepUnlessKernel (settable : EaBytes) (lastKept : Nat) (a : ExtendedAttribute) (next : Nat) :
    EaBytes × Nat :=
  if a.isKernel then (settable, lastKept) else keepEntry settable lastKept (a.bytes next)

/-- One turn of the filter, at an entry that is whole. -/
theorem settableFrom_entry (a : ExtendedAttribute) {next : Nat} (hnext : next < 2 ^ 32)
    (before after settable : EaBytes) (lastKept : Nat) :
    settableFrom (before ++ (a.bytes next ++ after)) (before ++ (a.bytes next ++ after)).length
        before.length settable lastKept =
      if next = 0 then some (keepUnlessKernel settable lastKept a next).1
      else
        settableFrom (before ++ (a.bytes next ++ after)) (before ++ (a.bytes next ++ after)).length
          (before.length + next) (keepUnlessKernel settable lastKept a next).1
          (keepUnlessKernel settable lastKept a next).2 := by
  have hlength : (before ++ (a.bytes next ++ after)).length
      = before.length + (a.size + after.length) := by
    rw [List.length_append, List.length_append, a.length_bytes]
  have hsize : a.size = kFullEaHeaderSize + a.name.length + 1 + a.value.length := rfl
  have hkept : (if isKernelExtendedAttributeName a.name then some (settable, lastKept)
      else (readPart (before ++ (a.bytes next ++ after)) before.length
        (kFullEaHeaderSize + a.name.length + 1 + a.value.length)).map (keepEntry settable lastKept))
      = some (keepUnlessKernel settable lastKept a next) := by
    rw [readPart_entry]
    unfold keepUnlessKernel ExtendedAttribute.isKernel
    split
    · rfl
    · rfl
  conv => lhs; unfold settableFrom
  rw [if_pos (by omega), readHeader_bytes a before after hnext]
  simp only [readPart_name, hkept]
  rw [if_neg (by omega)]

theorem KeptSoFar.unlessKernel {kept : List ExtendedAttribute} {settable : EaBytes} {lastKept : Nat}
    (h : KeptSoFar kept settable lastKept) (a : ExtendedAttribute) (next : Nat) :
    KeptSoFar (kept ++ [a].filter fun a => !a.isKernel)
      (keepUnlessKernel settable lastKept a next).1
      (keepUnlessKernel settable lastKept a next).2 := by
  unfold keepUnlessKernel
  split
  · next hkernel =>
    rw [List.filter_cons_of_neg (by simp [hkernel]), List.filter_nil, List.append_nil]
    exact h
  · next hkernel =>
    rw [List.filter_cons_of_pos (by simp [hkernel]), List.filter_nil]
    exact h.keepEntry a next

/-- The filter from an entry on: it keeps, in order, what is not the kernel's.  The induction
is on the entries that are left. -/
theorem settableFrom_list {unit : Nat} {attributes kept : List ExtendedAttribute}
    {bytes before settable : EaBytes} {lastKept : Nat} (h : FullEaList unit attributes bytes)
    (hkept : KeptSoFar kept settable lastKept) :
    settableFrom (before ++ bytes) (before ++ bytes).length before.length settable lastKept
      = some (eaList (kept ++ attributes.filter fun a => !a.isKernel)) := by
  induction h generalizing before kept settable lastKept with
  | last a rest =>
    rw [settableFrom_entry a (by decide), if_pos rfl, (hkept.unlessKernel a 0).bytes]
  | @link a gap attributes rest hunit hnext h ih =>
    have hsize : a.size + gap.length ≠ 0 := by
      unfold ExtendedAttribute.size
      omega
    have hsplit : before ++ (a.bytes (a.size + gap.length) ++ (gap ++ rest))
        = (before ++ (a.bytes (a.size + gap.length) ++ gap)) ++ rest := by simp
    have hoffset : before.length + (a.size + gap.length)
        = (before ++ (a.bytes (a.size + gap.length) ++ gap)).length := by
      rw [List.length_append, List.length_append, a.length_bytes]
    rw [settableFrom_entry a hnext, if_neg hsize, hoffset, hsplit,
      ih (hkept.unlessKernel a (a.size + gap.length)), List.append_assoc, ← List.filter_append]
    rfl

theorem extendedAttributesUserModeCanSet_list {unit : Nat} {attributes : List ExtendedAttribute}
    {bytes : EaBytes} (h : FullEaList unit attributes bytes) :
    extendedAttributesUserModeCanSet bytes
      = some (eaList (attributes.filter fun a => !a.isKernel)) :=
  @settableFrom_list unit attributes [] bytes [] [] 0 h
    ⟨rfl, fun init a heq => absurd heq (by simp)⟩

/-- The second loop counts the entries. -/
theorem fullEaEntryCountFrom_list {unit : Nat} {attributes : List ExtendedAttribute}
    {bytes before : EaBytes} {count : Nat} (h : FullEaList unit attributes bytes) :
    fullEaEntryCountFrom (before ++ bytes) (before ++ bytes).length before.length count
      = some (count + attributes.length) := by
  induction h generalizing before count with
  | last a rest =>
    have hlength : (before ++ (a.bytes 0 ++ rest)).length
        = before.length + (a.size + rest.length) := by
      rw [List.length_append, List.length_append, a.length_bytes]
    have hsize : kFullEaHeaderSize ≤ a.size := by
      unfold ExtendedAttribute.size
      omega
    rw [fullEaEntryCountFrom, if_pos (by omega), readHeader_bytes a before rest (by decide)]
    rfl
  | @link a gap attributes rest hunit hnext h ih =>
    have hlength : (before ++ (a.bytes (a.size + gap.length) ++ (gap ++ rest))).length
        = before.length + (a.size + (gap ++ rest).length) := by
      rw [List.length_append, List.length_append, a.length_bytes]
    have hsize : kFullEaHeaderSize ≤ a.size := by
      unfold ExtendedAttribute.size
      omega
    have hpos : a.size + gap.length ≠ 0 := by
      unfold kFullEaHeaderSize at hsize
      omega
    have hsplit : before ++ (a.bytes (a.size + gap.length) ++ (gap ++ rest))
        = (before ++ (a.bytes (a.size + gap.length) ++ gap)) ++ rest := by simp
    have hoffset : before.length + (a.size + gap.length)
        = (before ++ (a.bytes (a.size + gap.length) ++ gap)).length := by
      rw [List.length_append, List.length_append, a.length_bytes]
    rw [fullEaEntryCountFrom, if_pos (by omega), readHeader_bytes a before (gap ++ rest) hnext]
    simp only [hpos, if_false]
    rw [hoffset, hsplit, ih, List.length_cons]
    congr 1
    omega

theorem fullEaEntryCount_list {unit : Nat} {attributes : List ExtendedAttribute} {bytes : EaBytes}
    (h : FullEaList unit attributes bytes) : fullEaEntryCount bytes = some attributes.length := by
  have hcount := @fullEaEntryCountFrom_list unit attributes bytes [] 0 h
  rwa [Nat.zero_add] at hcount

/-! ## The copy -/

/-- The host gives the attributes of the source in pages: from an index on some of them, at
least one, and behind the last none.  An index is a ULONG. -/
structure EaHost.Pages (H : EaHost) (attributes : List ExtendedAttribute) : Prop where
  indexed : attributes.length + 1 < 2 ^ 32
  page : ∀ done rest, attributes = done ++ rest → rest ≠ [] →
    ∃ first later list, rest = first ++ later ∧ first ≠ [] ∧
      H.query (done.length + 1) = .entries list ∧ FullEaList 1 first list
  ended : H.query (attributes.length + 1) = .ended

/-- The destination takes every list. -/
def EaHost.TakesAll (H : EaHost) : Prop := H.opensDestination = true ∧ ∀ n, H.set n = .done

/-- The loop ends: what it set is a first part of what is to be set, in order, and all of it
when the destination takes every list. -/
structure SetsAttributes (H : EaHost) (rest : List ExtendedAttribute) (sets : List EaBytes)
    (outcome : EaOutcome) (success : Bool) (pages : List (List ExtendedAttribute)) : Prop where
  outcome : outcome = .finished success (sets ++ pages.map eaList)
  nonempty : ∀ page ∈ pages, page ≠ []
  first : pages.flatten <+: rest.filter fun a => !a.isKernel
  all : H.TakesAll → success = true ∧ pages.flatten = rest.filter fun a => !a.isKernel

namespace SetsAttributes

variable {H : EaHost} {rest first later : List ExtendedAttribute} {sets : List EaBytes}

/-- The loop ends without another list. -/
theorem stop (success : Bool)
    (hall : H.TakesAll → success = true ∧ (rest.filter fun a => !a.isKernel) = []) :
    SetsAttributes H rest sets (.finished success sets) success [] where
  outcome := by rw [List.map_nil, List.append_nil]
  nonempty := by simp
  first := List.nil_prefix
  all htakes := ⟨(hall htakes).1, (hall htakes).2.symm⟩

/-- A page of the kernel's attributes alone is skipped. -/
theorem skip {outcome : EaOutcome} {success : Bool} {pages : List (List ExtendedAttribute)}
    (h : SetsAttributes H later sets outcome success pages)
    (hkernel : (first.filter fun a => !a.isKernel) = []) :
    SetsAttributes H (first ++ later) sets outcome success pages where
  outcome := h.outcome
  nonempty := h.nonempty
  first := by
    rw [List.filter_append, hkernel, List.nil_append]
    exact h.first
  all := by
    rw [List.filter_append, hkernel, List.nil_append]
    exact h.all

theorem set {outcome : EaOutcome} {success : Bool} {pages : List (List ExtendedAttribute)}
    (h : SetsAttributes H later (sets ++ [eaList (first.filter fun a => !a.isKernel)]) outcome
      success pages) (hsome : (first.filter fun a => !a.isKernel) ≠ []) :
    SetsAttributes H (first ++ later) sets outcome success
      ((first.filter fun a => !a.isKernel) :: pages) where
  outcome := by
    rw [h.outcome, List.map_cons, List.append_assoc]
    rfl
  nonempty := List.forall_mem_cons.mpr ⟨hsome, h.nonempty⟩
  first := by
    rw [List.flatten_cons, List.filter_append, List.prefix_append_right_inj]
    exact h.first
  all htakes := by
    rw [List.flatten_cons, List.filter_append, (h.all htakes).2]
    exact ⟨(h.all htakes).1, rfl⟩

end SetsAttributes

theorem isEmpty_eaList (attributes : List ExtendedAttribute) :
    (eaList attributes).isEmpty = attributes.isEmpty := by
  match attributes with
  | [] => rfl
  | [a] =>
    show (a.bytes 0).isEmpty = false
    rw [List.isEmpty_eq_false_iff, ← List.length_pos_iff, a.length_bytes]
    unfold ExtendedAttribute.size
    omega
  | a :: b :: rest =>
    show (a.linked ++ eaList (b :: rest)).isEmpty = false
    rw [List.isEmpty_eq_false_iff, ← List.length_pos_iff, ExtendedAttribute.linked,
      List.length_append, List.length_append, a.length_bytes]
    unfold ExtendedAttribute.size
    omega

theorem FullEaList.ne_nil {unit : Nat} {attributes : List ExtendedAttribute} {bytes : EaBytes}
    (h : FullEaList unit attributes bytes) : bytes.isEmpty = false := by
  rw [List.isEmpty_eq_false_iff, ← List.length_pos_iff]
  cases h with
  | last a rest =>
    rw [List.length_append, a.length_bytes]
    unfold ExtendedAttribute.size
    omega
  | link a gap =>
    rw [List.length_append, a.length_bytes]
    unfold ExtendedAttribute.size
    omega

/-- The induction is on the turns; the attributes before the index are done. -/
theorem copyExtendedAttributesFrom_sets {H : EaHost} {attributes : List ExtendedAttribute}
    (hpages : H.Pages attributes) {turns : Nat} {done rest : List ExtendedAttribute}
    (hsplit : attributes = done ++ rest) (hturns : rest.length < turns) (sets : List EaBytes) :
    ∃ outcome success pages,
      copyExtendedAttributesFrom H turns (done.length + 1) sets = some outcome ∧
        SetsAttributes H rest sets outcome success pages := by
  induction turns generalizing done rest sets with
  | zero => exact absurd hturns (Nat.not_lt_zero _)
  | succ turns ih =>
    rw [copyExtendedAttributesFrom]
    by_cases hrest : rest = []
    · have hlast : done.length + 1 = attributes.length + 1 := by
        rw [hsplit, hrest, List.append_nil]
      rw [hlast, hpages.ended, hrest]
      exact ⟨_, true, [], rfl, .stop true fun _ => ⟨rfl, rfl⟩⟩
    · obtain ⟨first, later, list, rfl, hfirst, hquery, hlist⟩ := hpages.page done rest hsplit hrest
      have hindexed := hpages.indexed
      have hlength := congrArg List.length hsplit
      have hpos := List.length_pos_iff.mpr hfirst
      rw [List.length_append, List.length_append] at hlength
      rw [List.length_append] at hturns
      have hnext : (done.length + 1 + first.length) % 2 ^ 32 = (done ++ first).length + 1 := by
        rw [List.length_append, Nat.mod_eq_of_lt (by omega)]
        omega
      have hstep := fun sets => @ih (done ++ first) later
        (by rw [hsplit, List.append_assoc]) (by omega) sets
      rw [hquery]
      simp only [hlist.ne_nil, Bool.false_eq_true, if_false, fullEaEntryCount_list hlist,
        extendedAttributesUserModeCanSet_list hlist, hnext, isEmpty_eaList]
      split
      · next hkernel =>
        rw [List.isEmpty_iff] at hkernel
        obtain ⟨outcome, success, pages, hrun, hsets⟩ := hstep sets
        exact ⟨outcome, success, pages, hrun, hsets.skip hkernel⟩
      · next hsome =>
        rw [List.isEmpty_iff] at hsome
        split
        · next hclosed =>
          refine ⟨_, false, [], rfl, .stop false fun htakes => ?_⟩
          rw [htakes.1] at hclosed
          exact absurd hclosed (by simp)
        · split
          · next hset =>
            refine ⟨_, true, [], rfl, .stop true fun htakes => ?_⟩
            rw [htakes.2] at hset
            exact absurd hset (by simp)
          · next hset =>
            refine ⟨_, false, [], rfl, .stop false fun htakes => ?_⟩
            rw [htakes.2] at hset
            exact absurd hset (by simp)
          · obtain ⟨outcome, success, pages, hrun, hsets⟩ :=
              hstep (sets ++ [eaList (first.filter fun a => !a.isKernel)])
            exact ⟨outcome, success, _, hrun, hsets.set hsome⟩

/-- The filter makes of a page the aligned list of what is not the kernel's, reads no buffer
outside, and the copy of any list in any pages ends and sets each such attribute once, in
order. -/
theorem extendedAttributes_copied :
    (∀ (unit : Nat) (attributes : List ExtendedAttribute) (list : EaBytes),
      FullEaList unit attributes list → ∃ settable,
        extendedAttributesUserModeCanSet list = some settable ∧
          ((attributes.filter fun a => !a.isKernel) = [] → settable = []) ∧
          ((attributes.filter fun a => !a.isKernel) ≠ [] →
            FullEaList 4 (attributes.filter fun a => !a.isKernel) settable)) ∧
    (∀ list : EaBytes, (extendedAttributesUserModeCanSet list).isSome ∧
      (fullEaEntryCount list).isSome) ∧
    (∀ (H : EaHost) (attributes : List ExtendedAttribute), H.Pages attributes →
      ∀ turns, attributes.length < turns →
      ∃ (success : Bool) (pages : List (List ExtendedAttribute)),
        copyExtendedAttributes H turns = some (.finished success (pages.map eaList)) ∧
          (∀ page ∈ pages, FullEaList 4 page (eaList page)) ∧
          pages.flatten <+: (attributes.filter fun a => !a.isKernel) ∧
          (H.TakesAll →
            success = true ∧ pages.flatten = attributes.filter fun a => !a.isKernel)) := by
  refine ⟨?_, ?_, ?_⟩
  · intro unit attributes list h
    refine ⟨_, extendedAttributesUserModeCanSet_list h, ?_, fullEaList_eaList⟩
    intro hnone
    rw [hnone]
    rfl
  · intro list
    exact ⟨settableFrom_isSome list 0 [] 0, fullEaEntryCountFrom_isSome list 0 0⟩
  · intro H attributes hpages turns hturns
    obtain ⟨outcome, success, pages, hrun, hsets⟩ :=
      @copyExtendedAttributesFrom_sets H attributes hpages turns [] attributes rfl hturns []
    refine ⟨success, pages, ?_, ?_, hsets.first, hsets.all⟩
    · rw [← List.nil_append (pages.map eaList), ← hsets.outcome]
      exact hrun
    · intro page hpage
      exact fullEaList_eaList (hsets.nonempty page hpage)

def plainAttribute : ExtendedAttribute where
  flags := 0
  name := [0x41]
  value := [1]
  nameFits := by decide
  valueFits := by decide

def kernelAttribute : ExtendedAttribute where
  flags := 0
  name := kKernelPrefix ++ [0x41]
  value := [2]
  nameFits := by decide
  valueFits := by decide

def lastAttribute : ExtendedAttribute where
  flags := 0
  name := [0x42]
  value := [3]
  nameFits := by decide
  valueFits := by decide

/-- The first two attributes, the second at the next ULONG. -/
def firstPage : EaBytes :=
  plainAttribute.bytes (plainAttribute.size + 1) ++ ([0] ++ kernelAttribute.bytes 0)

/-- A source that gives the first two of its attributes in one page and the last in another,
and a destination that takes every list. -/
def twoPagesHost : EaHost where
  query
    | 1 => .entries firstPage
    | 2 => .entries (kernelAttribute.bytes 0)
    | 3 => .entries (lastAttribute.bytes 0)
    | _ => .ended
  opensDestination := true
  set _ := .done

theorem fullEaList_single (a : ExtendedAttribute) : FullEaList 1 [a] (a.bytes 0) := by
  rw [← List.append_nil (a.bytes 0)]
  exact .last a []

theorem fullEaList_firstPage : FullEaList 1 [plainAttribute, kernelAttribute] firstPage :=
  .link plainAttribute [0] (Nat.one_dvd _) (by decide) (fullEaList_single kernelAttribute)

theorem twoPagesHost_pages :
    twoPagesHost.Pages [plainAttribute, kernelAttribute, lastAttribute] where
  indexed := by decide
  ended := rfl
  page done rest hsplit hrest := by
    rcases done with _ | ⟨a, _ | ⟨b, _ | ⟨c, done⟩⟩⟩
    · rw [List.nil_append] at hsplit
      subst hsplit
      exact ⟨[plainAttribute, kernelAttribute], [lastAttribute], _, rfl, by simp, rfl,
        fullEaList_firstPage⟩
    · obtain ⟨-, rfl⟩ := List.cons.inj hsplit
      exact ⟨[kernelAttribute], [lastAttribute], _, rfl, by simp, rfl, fullEaList_single _⟩
    · obtain ⟨-, hsplit⟩ := List.cons.inj hsplit
      obtain ⟨-, rfl⟩ := List.cons.inj hsplit
      exact ⟨[lastAttribute], [], _, rfl, by simp, rfl, fullEaList_single _⟩
    · have hlength := congrArg List.length hsplit
      have hpos := List.length_pos_iff.mpr hrest
      simp only [List.length_append, List.length_cons, List.length_nil] at hlength
      omega

theorem extendedAttributes_copied_twoPages :
    ∃ pages : List (List ExtendedAttribute),
      copyExtendedAttributes twoPagesHost 4 = some (.finished true (pages.map eaList)) ∧
        pages.flatten = [plainAttribute, lastAttribute] := by
  obtain ⟨success, pages, hrun, _, _, hall⟩ :=
    extendedAttributes_copied.2.2 twoPagesHost _ twoPagesHost_pages 4 (by simp)
  have htaken := hall ⟨rfl, fun _ => rfl⟩
  rw [htaken.1] at hrun
  refine ⟨pages, hrun, htaken.2.trans ?_⟩
  rw [List.filter_cons_of_pos (by decide), List.filter_cons_of_neg (by decide),
    List.filter_cons_of_pos (by decide), List.filter_nil]

end LayerMount.EntryCopy
