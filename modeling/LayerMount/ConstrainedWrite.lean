import LayerMount.Handles
import Mathlib.Algebra.Group.Int.Defs

/-!
# Constrained writes

The arithmetic of `Write` in front of `WriteFile`, with the widths of the source: the
caller's offset is a `UINT64`, compared as a `LONGLONG`, and the length is a `ULONG`.

What the host does with an offset is in `HostFile.start`.  Two offsets are no places: one
is the end of the file, one is the file pointer.  Another offset with the sign bit is
refused.  A handle with the append right alone writes at the end whatever the offset.

`constrained_write_iff` says when a constrained write stays inside the file.  The cast
lets every offset with the sign bit through the comparison, the end-of-file offset
included.  `clampedCall_eq_take` says that without the sign bit the arithmetic is the
`take` of `writeFile`.
-/

namespace LayerMount

/-- `static_cast<LONGLONG>` of a `UINT64`. -/
def toLongLong (n : Nat) : Int := if n < 2 ^ 63 then n else n - 2 ^ 64

/-- `static_cast<UINT64>` of a `LONGLONG`. -/
def toUInt64 (n : Int) : Nat := (n % 2 ^ 64).toNat

/-- `static_cast<ULONG>` of a `LONGLONG`. -/
def toULong (n : Int) : Nat := (n % 2 ^ 32).toNat

/-- What `Write` passes to `WriteFile`. -/
structure WriteCall where
  offset : Nat
  length : Nat
  deriving DecidableEq, Repr

/-- The part of `Write` between the size of the file and `WriteFile`, or nothing where it
returns before. -/
def clampedCall (fileSize : Nat) (offset : UInt64) (length : UInt32)
    (writeToEnd constrainedIo : Bool) : Option WriteCall :=
  let writeOffset : Int := if writeToEnd then fileSize else toLongLong offset.toNat
  if constrainedIo then
    if fileSize ≤ writeOffset then none
    else if fileSize < (toUInt64 writeOffset + length.toNat) % 2 ^ 64 then
      some ⟨toUInt64 writeOffset, toULong (fileSize - writeOffset)⟩
    else some ⟨toUInt64 writeOffset, length.toNat⟩
  else some ⟨toUInt64 writeOffset, length.toNat⟩

/-! ## The host's file -/

/-- `FILE_WRITE_TO_END_OF_FILE`. -/
def endOfFileOffset : Nat := 2 ^ 64 - 1

/-- `FILE_USE_FILE_POINTER_POSITION`. -/
def filePointerOffset : Nat := 2 ^ 64 - 2

/-- A file behind a handle. -/
structure HostFile where
  size : Nat
  position : Nat := 0
  appendOnly : Bool := false
  deriving DecidableEq, Repr

namespace HostFile

/-- Where the host writes, if it takes the offset. -/
def start (file : HostFile) (offset : Nat) : Option Nat :=
  if file.appendOnly ∨ offset = endOfFileOffset then some file.size
  else if offset = filePointerOffset then some file.position
  else if 2 ^ 63 ≤ offset then none
  else some offset

/-- The bytes transferred, of which the volume takes `taken` at most, and the file after. -/
def writeFile (file : HostFile) (call : WriteCall) (taken : Nat) : Nat × HostFile :=
  match file.start call.offset with
  | none => (0, file)
  | some start =>
    if min call.length taken = 0 then (0, file)
    else
      (min call.length taken,
        { file with
          size := max file.size (start + min call.length taken)
          position := start + min call.length taken })

end HostFile

structure WriteOutcome where
  call : Option WriteCall
  transferred : Nat
  file : HostFile

def hostWrite (file : HostFile) (offset : UInt64) (length : UInt32)
    (writeToEnd constrainedIo : Bool) (taken : Nat) : WriteOutcome :=
  match clampedCall file.size offset length writeToEnd constrainedIo with
  | none => { call := none, transferred := 0, file }
  | some call =>
    { call := some call
      transferred := (file.writeFile call taken).1
      file := (file.writeFile call taken).2 }

/-! ## The clamp -/

theorem clampedCall_toEnd (fileSize : Nat) (offset : UInt64) (length : UInt32) :
    clampedCall fileSize offset length true true = none := by
  simp [clampedCall]

/-- The casts to and fro keep the offset. -/
theorem toUInt64_toLongLong {n : Nat} (h : n < 2 ^ 64) : toUInt64 (toLongLong n) = n := by
  unfold toUInt64 toLongLong
  split
  · omega
  · omega

/-- The call of a constrained write at the caller's offset. -/
theorem clampedCall_at (fileSize : Nat) (offset : UInt64) (length : UInt32) :
    clampedCall fileSize offset length false true =
      if fileSize ≤ toLongLong offset.toNat then none
      else some ⟨offset.toNat,
        if fileSize < (offset.toNat + length.toNat) % 2 ^ 64 then
          toULong (fileSize - toLongLong offset.toNat)
        else length.toNat⟩ := by
  unfold clampedCall
  simp only [Bool.false_eq_true, if_false, if_true, toUInt64_toLongLong offset.toNat_lt]
  split
  · rfl
  · split
    · rfl
    · rfl

/-- Without the sign bit the call ends inside the file. -/
theorem clampedCall_plain {fileSize : Nat} {offset : UInt64} (hsize : fileSize < 2 ^ 63)
    (hsign : offset.toNat < 2 ^ 63) (length : UInt32) :
    clampedCall fileSize offset length false true =
      if fileSize ≤ offset.toNat then none
      else some ⟨offset.toNat, min length.toNat (fileSize - offset.toNat)⟩ := by
  have hlength := length.toNat_lt
  have hoffset : toLongLong offset.toNat = offset.toNat := if_pos hsign
  rw [clampedCall_at, hoffset]
  by_cases hpast : fileSize ≤ offset.toNat
  · rw [if_pos hpast, if_pos (by omega)]
  · have hclamp : (if fileSize < (offset.toNat + length.toNat) % 2 ^ 64 then
        toULong (fileSize - offset.toNat) else length.toNat)
          = min length.toNat (fileSize - offset.toNat) := by
      unfold toULong
      split
      · omega
      · omega
    rw [if_neg hpast, if_neg (by omega), hclamp]

/-- With the sign bit the comparison lets every call through. -/
theorem clampedCall_signed {fileSize : Nat} {offset : UInt64} (hsize : fileSize < 2 ^ 63)
    (hsign : 2 ^ 63 ≤ offset.toNat) (length : UInt32) :
    ∃ call, clampedCall fileSize offset length false true = some call ∧
      call.offset = offset.toNat ∧
      (call.length = 0 ↔ offset.toNat + length.toNat < 2 ^ 64 ∧
        (fileSize + (2 ^ 64 - offset.toNat)) % 2 ^ 32 = 0) := by
  have hlength := length.toNat_lt
  have hwidth := offset.toNat_lt
  have hoffset : toLongLong offset.toNat = offset.toNat - 2 ^ 64 := if_neg (by omega)
  rw [clampedCall_at, hoffset, if_neg (by omega)]
  refine ⟨_, rfl, rfl, ?_⟩
  show (if _ then toULong (fileSize - (offset.toNat - 2 ^ 64)) else length.toNat) = 0 ↔ _
  have hback : (fileSize - (offset.toNat - 2 ^ 64) : Int)
      = (fileSize + (2 ^ 64 - offset.toNat) : Nat) := by omega
  rw [hback]
  have hlong : toULong (fileSize + (2 ^ 64 - offset.toNat) : Nat)
      = (fileSize + (2 ^ 64 - offset.toNat)) % 2 ^ 32 := by
    unfold toULong
    omega
  rw [hlong]
  by_cases hwrap : offset.toNat + length.toNat < 2 ^ 64
  · rw [Nat.mod_eq_of_lt hwrap, if_pos (by omega)]
    exact (and_iff_right hwrap).symm
  · -- The sum wraps: what is left of the length is not all of it.
    have hsum : (offset.toNat + length.toNat) % 2 ^ 64 = offset.toNat + length.toNat - 2 ^ 64 := by
      omega
    rw [hsum]
    split
    · rw [Nat.mod_eq_of_lt (by omega)]
      omega
    · omega

/-- Without the sign bit it is the clamp of `writeFile`. -/
theorem clampedCall_eq_take {fileSize : Nat} {request : Context.WriteRequest}
    (hsize : fileSize < 2 ^ 63) (hbytes : request.bytes.length < 2 ^ 32) (hoffset : request.offset < 2 ^ 63)
    (htoEnd : request.writeToEnd = false) :
    clampedCall fileSize (UInt64.ofNat request.offset) (UInt32.ofNat request.bytes.length)
        request.writeToEnd true =
      if fileSize ≤ request.offset then none
      else some ⟨request.offset, (request.bytes.take (fileSize - request.offset)).length⟩ := by
  have hplain : (UInt64.ofNat request.offset).toNat = request.offset := by
    rw [UInt64.toNat_ofNat', Nat.mod_eq_of_lt (by omega)]
  have hlength : (UInt32.ofNat request.bytes.length).toNat = request.bytes.length := by
    rw [UInt32.toNat_ofNat', Nat.mod_eq_of_lt (by omega)]
  rw [htoEnd, clampedCall_plain hsize (by omega), hplain, hlength, List.length_take,
    Nat.min_comm request.bytes.length]

/-! ## The outcome -/

/-- Nothing is transferred, or the call ends inside the file and is not at its end; the
size stays. -/
def NeverExtends (file : HostFile) (outcome : WriteOutcome) : Prop :=
  outcome.file.size = file.size ∧ (outcome.transferred = 0 ∨ ∃ call, outcome.call = some call ∧
    call.offset + call.length ≤ file.size ∧ call.offset ≠ endOfFileOffset)

/-- The host's write goes on: bytes are transferred from `start` on. -/
theorem HostFile.writeFile_some {file : HostFile} {call : WriteCall} {start taken : Nat}
    (hstart : file.start call.offset = some start) (hsome : min call.length taken ≠ 0) :
    file.writeFile call taken = (min call.length taken,
      { file with
        size := max file.size (start + min call.length taken)
        position := start + min call.length taken }) := by
  unfold HostFile.writeFile
  rw [hstart]
  exact if_neg hsome

theorem HostFile.writeFile_none {file : HostFile} {call : WriteCall} {taken : Nat}
    (h : file.start call.offset = none ∨ min call.length taken = 0) :
    file.writeFile call taken = (0, file) := by
  unfold HostFile.writeFile
  split
  · rfl
  · next hstart =>
    obtain h | h := h
    · rw [hstart] at h
      exact absurd h (Option.some_ne_none _)
    · exact if_pos h

/-- Where a constrained write keeps what it promises. -/
def Bounded (file : HostFile) (offset length : Nat) (writeToEnd : Bool) (taken : Nat) : Prop :=
  writeToEnd = true ∨ taken = 0 ∨
    offset < 2 ^ 63 ∧ (file.size ≤ offset ∨ length = 0 ∨ file.appendOnly = false) ∨
    2 ^ 63 ≤ offset ∧
      (offset + length < 2 ^ 64 ∧ (file.size + (2 ^ 64 - offset)) % 2 ^ 32 = 0 ∨
        file.appendOnly = false ∧ offset ≠ endOfFileOffset ∧ offset ≠ filePointerOffset)

theorem hostWrite_call {file : HostFile} {offset : UInt64} {length : UInt32} {call : WriteCall}
    (h : clampedCall file.size offset length false true = some call) (taken : Nat) :
    hostWrite file offset length false true taken =
      { call := some call
        transferred := (file.writeFile call taken).1
        file := (file.writeFile call taken).2 } := by
  unfold hostWrite
  rw [h]

/-- A call that transfers nothing keeps the promise. -/
theorem neverExtends_of_nothing {file : HostFile} {offset : UInt64} {length : UInt32}
    {call : WriteCall} {taken : Nat}
    (h : clampedCall file.size offset length false true = some call)
    (hnothing : file.start call.offset = none ∨ min call.length taken = 0) :
    NeverExtends file (hostWrite file offset length false true taken) := by
  rw [hostWrite_call h, HostFile.writeFile_none hnothing]
  exact ⟨rfl, .inl rfl⟩

theorem neverExtends_some {file : HostFile} {offset : UInt64} {length : UInt32}
    {call : WriteCall} {start taken : Nat}
    (h : clampedCall file.size offset length false true = some call)
    (hstart : file.start call.offset = some start) (hsome : min call.length taken ≠ 0) :
    NeverExtends file (hostWrite file offset length false true taken) ↔
      start + min call.length taken ≤ file.size ∧ call.offset + call.length ≤ file.size ∧
        call.offset ≠ endOfFileOffset := by
  rw [hostWrite_call h, HostFile.writeFile_some hstart hsome]
  unfold NeverExtends
  simp only [hsome, false_or, Option.some.injEq, exists_eq_left']
  have hmax : max file.size (start + min call.length taken) = file.size ↔
      start + min call.length taken ≤ file.size := by omega
  rw [hmax]

namespace HostFile

variable {file : HostFile} {offset : Nat}

theorem start_end (h : file.appendOnly = true ∨ offset = endOfFileOffset) :
    file.start offset = some file.size := if_pos h

theorem start_plain (happend : file.appendOnly = false) (hsign : offset < 2 ^ 63) :
    file.start offset = some offset := by
  unfold start endOfFileOffset filePointerOffset
  rw [happend, if_neg (by simp; omega), if_neg (by omega), if_neg (by omega)]

theorem start_refused (happend : file.appendOnly = false) (hend : offset ≠ endOfFileOffset)
    (hpointer : offset ≠ filePointerOffset) (hsign : 2 ^ 63 ≤ offset) :
    file.start offset = none := by
  unfold start
  rw [happend, if_neg (by simp [hend]), if_neg hpointer, if_pos hsign]

end HostFile

section

variable {file : HostFile} {offset : UInt64} {length : UInt32} {taken : Nat}

/-- Without the sign bit only the append right alone leaves the file. -/
theorem neverExtends_plain (hsize : file.size < 2 ^ 63) (hsign : offset.toNat < 2 ^ 63) :
    NeverExtends file (hostWrite file offset length false true taken) ↔
      taken = 0 ∨ file.size ≤ offset.toNat ∨ length.toNat = 0 ∨ file.appendOnly = false := by
  have hcall := clampedCall_plain hsize hsign length
  by_cases hpast : file.size ≤ offset.toNat
  · rw [if_pos hpast] at hcall
    have hnone : hostWrite file offset length false true taken
        = { call := none, transferred := 0, file } := by
      unfold hostWrite
      rw [hcall]
    rw [hnone]
    exact ⟨fun _ => .inr (.inl hpast), fun _ => ⟨rfl, .inl rfl⟩⟩
  · rw [if_neg hpast] at hcall
    by_cases hnothing : min (min length.toNat (file.size - offset.toNat)) taken = 0
    · have hcases : taken = 0 ∨ length.toNat = 0 := by omega
      constructor
      · intro _
        obtain h | h := hcases
        · exact .inl h
        · exact .inr (.inr (.inl h))
      · exact fun _ => neverExtends_of_nothing hcall (.inr hnothing)
    · cases happend : file.appendOnly with
      | true =>
        rw [neverExtends_some hcall (HostFile.start_end (.inl happend)) hnothing]
        simp only [Bool.true_eq_false, or_false]
        omega
      | false =>
        rw [neverExtends_some hcall (HostFile.start_plain happend hsign) hnothing]
        unfold endOfFileOffset
        simp only [or_true, iff_true]
        omega

/-- With the sign bit a call that has bytes stays inside exactly when the host refuses it. -/
theorem neverExtends_signed (hsize : file.size < 2 ^ 63) (hsign : 2 ^ 63 ≤ offset.toNat) :
    NeverExtends file (hostWrite file offset length false true taken) ↔
      taken = 0 ∨ (offset.toNat + length.toNat < 2 ^ 64 ∧
          (file.size + (2 ^ 64 - offset.toNat)) % 2 ^ 32 = 0) ∨
        file.appendOnly = false ∧ offset.toNat ≠ endOfFileOffset ∧
          offset.toNat ≠ filePointerOffset := by
  obtain ⟨call, hcall, hoffset, hlength⟩ := clampedCall_signed hsize hsign length
  rw [← hlength]
  by_cases hnothing : min call.length taken = 0
  · have hcases : taken = 0 ∨ call.length = 0 := by omega
    constructor
    · intro _
      obtain h | h := hcases
      · exact .inl h
      · exact .inr (.inl h)
    · exact fun _ => neverExtends_of_nothing hcall (.inr hnothing)
  · have htaken : taken ≠ 0 := by omega
    have hbytes : call.length ≠ 0 := by omega
    simp only [htaken, hbytes, false_or]
    constructor
    · intro hstays
      -- A host that writes, writes behind an offset above every size.
      have hnone : file.start call.offset = none := by
        cases hstart : file.start call.offset with
        | none => rfl
        | some start =>
          have hinside := ((neverExtends_some hcall hstart hnothing).mp hstays).2.1
          omega
      rw [hoffset] at hnone
      unfold HostFile.start at hnone
      split at hnone
      · exact absurd hnone (Option.some_ne_none _)
      · next hends =>
        rw [not_or, Bool.not_eq_true] at hends
        split at hnone
        · exact absurd hnone (Option.some_ne_none _)
        · next hpointer => exact ⟨hends.1, hends.2, hpointer⟩
    · intro h
      rw [← hoffset] at h hsign
      exact neverExtends_of_nothing hcall
        (.inl (HostFile.start_refused h.1 h.2.1 h.2.2 hsign))

end

/-- A constrained write of any length at any offset stays inside the file exactly when it is
`Bounded`. -/
theorem constrained_write_iff {file : HostFile} (hsize : file.size < 2 ^ 63) (offset : UInt64)
    (length : UInt32) (writeToEnd : Bool) (taken : Nat) :
    NeverExtends file (hostWrite file offset length writeToEnd true taken) ↔
      Bounded file offset.toNat length.toNat writeToEnd taken := by
  unfold Bounded
  cases writeToEnd with
  | true =>
    have hnone : hostWrite file offset length true true taken
        = { call := none, transferred := 0, file } := by
      unfold hostWrite
      rw [clampedCall_toEnd]
    rw [hnone]
    exact ⟨fun _ => .inl rfl, fun _ => ⟨rfl, .inl rfl⟩⟩
  | false =>
    by_cases hsign : offset.toNat < 2 ^ 63
    · rw [neverExtends_plain hsize hsign]
      simp only [hsign, Nat.not_le.mpr hsign, Bool.false_eq_true, true_and, false_and, or_false,
        false_or]
    · rw [neverExtends_signed hsize (Nat.le_of_not_lt hsign)]
      simp only [hsign, Nat.le_of_not_lt hsign, Bool.false_eq_true, true_and, false_and, false_or]

theorem constrained_write_iff_inside :
    NeverExtends { size := 5 } (hostWrite { size := 5 } 3 10 false true 10) :=
  (@constrained_write_iff { size := 5 } (by decide) 3 10 false 10).mpr
    (.inr (.inr (.inl ⟨by decide, .inr (.inr rfl)⟩)))

/-- Ten bytes at the end-of-file offset: the call goes through with six, and the file
grows by them. -/
theorem constrained_write_extends :
    ¬ NeverExtends { size := 5 }
        (hostWrite { size := 5 } 0xFFFFFFFFFFFFFFFF 10 false true 10) ∧
      (hostWrite { size := 5 } 0xFFFFFFFFFFFFFFFF 10 false true 10).file.size = 11 := by
  constructor
  · intro h
    exact absurd h.1 (by decide)
  · decide

end LayerMount
