import LayerMount.Lib.Bytes

/-!
# The bounds check of a security descriptor

`IsValidBoundedSecurityDescriptor` of `AbiFile.cpp`, which checks that a self-relative descriptor
lies in its buffer before it hands the buffer to calls that take no length.

Every read of the buffer goes through `byteAt` or `fieldAt`, which fail where the buffer ends.
The sums and differences are those of `SIZE_T`.  `isValidBounded_reaches_iff` says that no read
fails, and that the Win32 check is reached exactly with a descriptor all of whose parts lie
inside.  The two Win32 calls are parameters.
-/

namespace LayerMount

namespace Abi

open Lib

/-! ## The buffer -/

/-- A buffer with its length as a `SIZE_T`. -/
structure SizedBuffer where
  data : List UInt8
  length_lt : data.length < 2 ^ 64

/-- An access outside the buffer. -/
inductive ReadFault where
  | outOfRange
  deriving DecidableEq, Repr

namespace SizedBuffer

def bytes (buf : SizedBuffer) : UInt64 := UInt64.ofNat buf.data.length

@[simp] theorem bytes_toNat (buf : SizedBuffer) : buf.bytes.toNat = buf.data.length := by
  have hlt := buf.length_lt
  unfold bytes
  rw [UInt64.toNat_ofNat']
  omega

def byteAt (buf : SizedBuffer) (k : Nat) : Except ReadFault UInt8 :=
  match buf.data[k]? with
  | some b => .ok b
  | none => .error .outOfRange

/-- `memcpy` of `width` bytes into a number. -/
def fieldAt (buf : SizedBuffer) (k width : Nat) : Except ReadFault Nat :=
  if k + width ≤ buf.data.length then .ok (field buf.data k width) else .error .outOfRange

theorem byteAt_ok {buf : SizedBuffer} {k : Nat} (h : k < buf.data.length) :
    buf.byteAt k = .ok (buf.data.getD k 0) := by
  unfold byteAt
  rw [List.getD_eq_getElem?_getD, List.getElem?_eq_getElem h]
  rfl

theorem fieldAt_ok {buf : SizedBuffer} {k width : Nat} (h : k + width ≤ buf.data.length) :
    buf.fieldAt k width = .ok (field buf.data k width) := if_pos h

end SizedBuffer

/-! ## The source -/

def kAbsentPartOffset : UInt32 := 0

def kMinSidHeader : UInt64 := 8

def kMinAclHeader : UInt64 := 8

/-- `sizeof(SECURITY_DESCRIPTOR_RELATIVE)`. -/
def kSelfRelativeHeaderBytes : UInt64 := 20

def kControlOffset : Nat := 2

def kOwnerOffset : Nat := 4

def kGroupOffset : Nat := 8

def kSaclOffset : Nat := 12

def kDaclOffset : Nat := 16

def seDaclPresent : UInt16 := 0x0004

def seSaclPresent : UInt16 := 0x0010

def seSelfRelative : UInt16 := 0x8000

/-- `sizeof(DWORD)`. -/
def kDwordBytes : Nat := 4

/-- `offsetof(SID, SubAuthorityCount)`. -/
def kSubAuthorityCountOffset : Nat := 1

/-- `offsetof(ACL, AclSize)`. -/
def kAclSizeOffset : Nat := 2

def partHeaderFitsAt (bytes : UInt64) (off : UInt32) (headerBytes : UInt64) : Bool :=
  off.toUInt64 < bytes && bytes - off.toUInt64 ≥ headerBytes

def sidFitsAt (buf : SizedBuffer) (off : UInt32) : Except ReadFault Bool :=
  if off = kAbsentPartOffset then .ok true
  else if !partHeaderFitsAt buf.bytes off kMinSidHeader then .ok false
  else do
    let subAuthorityCount ← buf.byteAt (off.toNat + kSubAuthorityCountOffset)
    let sidBytes := kMinSidHeader + UInt64.ofNat kDwordBytes * subAuthorityCount.toUInt64
    .ok (buf.bytes - off.toUInt64 ≥ sidBytes)

def aclFitsAt (buf : SizedBuffer) (off : UInt32) : Except ReadFault Bool :=
  if off = kAbsentPartOffset then .ok true
  else if !partHeaderFitsAt buf.bytes off kMinAclHeader then .ok false
  else do
    let aclSize ← buf.fieldAt (off.toNat + kAclSizeOffset) 2
    .ok (UInt64.ofNat aclSize ≥ kMinAclHeader && buf.bytes - off.toUInt64 ≥ UInt64.ofNat aclSize)

def readDword (buf : SizedBuffer) (offset : Nat) : Except ReadFault UInt32 := do
  let v ← buf.fieldAt offset 4
  .ok (UInt32.ofNat v)

/-- `readDword` of a part's offset, and the part's own check. -/
def partFits (buf : SizedBuffer) (fitsAt : SizedBuffer → UInt32 → Except ReadFault Bool)
    (offset : Nat) : Except ReadFault Bool := do
  let off ← readDword buf offset
  fitsAt buf off

/-- What `IsValidBoundedSecurityDescriptor` checks before the first Win32 call. -/
def checkParts (buf : SizedBuffer) : Except ReadFault Bool := do
  if buf.bytes < kSelfRelativeHeaderBytes then return false
  let word ← buf.fieldAt kControlOffset 2
  let control := UInt16.ofNat word
  if control &&& seSelfRelative = 0 then return false
  let saclPresent := control &&& seSaclPresent ≠ 0
  let daclPresent := control &&& seDaclPresent ≠ 0
  if !(← partFits buf sidFitsAt kOwnerOffset) then return false
  if !(← partFits buf sidFitsAt kGroupOffset) then return false
  if saclPresent then
    if !(← partFits buf aclFitsAt kSaclOffset) then return false
  if daclPresent then
    if !(← partFits buf aclFitsAt kDaclOffset) then return false
  return true

/-- The calls that take a descriptor without a length. -/
inductive SecurityCall where
  | isValidSecurityDescriptor
  | getSecurityDescriptorLength
  deriving DecidableEq, Repr

/-- What the host answers to them. -/
structure SecurityHost where
  isValidSecurityDescriptor : List UInt8 → Bool
  getSecurityDescriptorLength : List UInt8 → UInt32

/-- The answer, and the calls that were made for it. -/
structure BoundedCheck where
  answer : Bool
  calls : List SecurityCall := []
  deriving DecidableEq, Repr

/-- `IsValidBoundedSecurityDescriptor`, with no buffer for a null pointer. -/
def isValidBoundedSecurityDescriptor (host : SecurityHost) (buf : Option SizedBuffer) :
    Except ReadFault BoundedCheck :=
  match buf with
  | none => .ok { answer := false }
  | some buf => do
    let fits ← checkParts buf
    if !fits then .ok { answer := false }
    else if !host.isValidSecurityDescriptor buf.data then
      .ok { answer := false, calls := [.isValidSecurityDescriptor] }
    else
      let sdLen := host.getSecurityDescriptorLength buf.data
      .ok
        { answer := !(sdLen = 0) && !(sdLen.toUInt64 > buf.bytes)
          calls := [.isValidSecurityDescriptor, .getSecurityDescriptorLength] }

/-! ## The parts of a descriptor -/

section Parts

variable (data : List UInt8)

/-- The control word of a descriptor. -/
def controlOf : UInt16 := UInt16.ofNat (field data 2 2)

/-- A SID at an offset with all its sub-authorities lies inside, or there is none. -/
def SidInside (off : Nat) : Prop :=
  off = 0 ∨ (off + 8 ≤ data.length ∧
    off + (8 + 4 * (data.getD (off + 1) 0).toNat) ≤ data.length)

/-- An ACL at an offset lies inside in its stated size, which has room for its header, or there
is none. -/
def AclInside (off : Nat) : Prop :=
  off = 0 ∨ (off + 8 ≤ data.length ∧ 8 ≤ field data (off + 2) 2 ∧
    off + field data (off + 2) 2 ≤ data.length)

/-- The data holds a self-relative header, and every part that it uses. -/
structure PartsInside : Prop where
  header : 20 ≤ data.length
  selfRelative : controlOf data &&& seSelfRelative ≠ 0
  owner : SidInside data (field data 4 4)
  group : SidInside data (field data 8 4)
  sacl : controlOf data &&& seSaclPresent ≠ 0 → AclInside data (field data 12 4)
  dacl : controlOf data &&& seDaclPresent ≠ 0 → AclInside data (field data 16 4)

end Parts

/-! ## The reads -/

theorem field_lt (bytes : List UInt8) (offset width : Nat) :
    field bytes offset width < 256 ^ width := by
  have hlt := leNat_lt ((bytes.drop offset).take width)
  have hle : ((bytes.drop offset).take width).length ≤ width := by
    rw [List.length_take]
    omega
  exact Nat.lt_of_lt_of_le hlt (Nat.pow_le_pow_right (by decide) hle)

/-- A check of the buffer that reads inside it only, and accepts exactly where `P` holds. -/
def Checks (check : Except ReadFault Bool) (P : Prop) : Prop :=
  ∃ fits, check = .ok fits ∧ (fits = true ↔ P)

namespace Checks

variable {check rest : Except ReadFault Bool} {P Q : Prop}

theorem accept : Checks (pure true) True := ⟨true, rfl, iff_of_true rfl trivial⟩

/-- One check before the rest. -/
theorem and (h : Checks check P) (hrest : Checks rest Q) :
    Checks (do if !(← check) then return false else rest) (P ∧ Q) := by
  obtain ⟨fits, rfl, hfits⟩ := h
  cases fits with
  | false => exact ⟨false, rfl, iff_of_false (by simp) fun h => absurd (hfits.mpr h.1) (by simp)⟩
  | true =>
    obtain ⟨fits', rfl, hfits'⟩ := hrest
    exact ⟨fits', rfl, hfits'.trans (and_iff_right (hfits.mp rfl)).symm⟩

/-- A check that is made where `c` holds. -/
theorem guarded {c : Prop} [Decidable c] (h : Checks check P) (hrest : Checks rest Q) :
    Checks (if c then do if !(← check) then return false else rest else rest)
      ((c → P) ∧ Q) := by
  by_cases hc : c
  · rw [if_pos hc, forall_prop_of_true hc]
    exact h.and hrest
  · rw [if_neg hc, forall_prop_of_false hc, true_and]
    exact hrest

end Checks

section Fits

variable {buf : SizedBuffer} {off : UInt32}

theorem toNat_bytes_sub (h : off.toNat ≤ buf.data.length) :
    (buf.bytes - off.toUInt64).toNat = buf.data.length - off.toNat := by
  rw [UInt64.toNat_sub_of_le _ _ ?_, buf.bytes_toNat, UInt32.toNat_toUInt64]
  rw [UInt64.le_iff_toNat_le, buf.bytes_toNat, UInt32.toNat_toUInt64]
  exact h

/-- The difference is taken only where it does not wrap. -/
theorem partHeaderFitsAt_iff {headerBytes : UInt64} (hpos : 0 < headerBytes.toNat) :
    partHeaderFitsAt buf.bytes off headerBytes = true ↔
      off.toNat + headerBytes.toNat ≤ buf.data.length := by
  simp only [partHeaderFitsAt, Bool.and_eq_true, decide_eq_true_eq, ge_iff_le,
    UInt64.lt_iff_toNat_lt, UInt64.le_iff_toNat_le, UInt32.toNat_toUInt64, buf.bytes_toNat]
  constructor
  · intro h
    obtain ⟨hinside, hroom⟩ := h
    rw [toNat_bytes_sub (by omega)] at hroom
    omega
  · intro h
    refine ⟨by omega, ?_⟩
    rw [toNat_bytes_sub (by omega)]
    omega

theorem sidFitsAt_checks : Checks (sidFitsAt buf off) (SidInside buf.data off.toNat) := by
  have hzero : off = kAbsentPartOffset ↔ off.toNat = 0 := UInt32.toNat_inj.symm
  have hheader : partHeaderFitsAt buf.bytes off kMinSidHeader = true ↔ off.toNat + 8 ≤ _ :=
    partHeaderFitsAt_iff (by decide)
  unfold sidFitsAt
  by_cases habsent : off = kAbsentPartOffset
  · rw [if_pos habsent]
    exact ⟨true, rfl, iff_of_true rfl (.inl (hzero.mp habsent))⟩
  · rw [if_neg habsent]
    rw [hzero] at habsent
    cases hfits : partHeaderFitsAt buf.bytes off kMinSidHeader with
    | false =>
      refine ⟨false, rfl, iff_of_false (by simp) ?_⟩
      rw [hfits] at hheader
      unfold SidInside
      have hout : ¬ (off.toNat + 8 ≤ buf.data.length) := fun h => absurd (hheader.mpr h) (by simp)
      omega
    | true =>
      have hroom : off.toNat + 8 ≤ buf.data.length := hheader.mp hfits
      -- The count is in the header, and the sum of the sizes is small.
      have hread : buf.byteAt (off.toNat + kSubAuthorityCountOffset)
          = .ok (buf.data.getD (off.toNat + 1) 0) :=
        SizedBuffer.byteAt_ok (show off.toNat + 1 < buf.data.length by omega)
      have hcount := (buf.data.getD (off.toNat + 1) 0).toNat_lt
      simp only [Bool.not_true, Bool.false_eq_true, if_false, hread]
      refine ⟨_, rfl, ?_⟩
      unfold SidInside
      rw [decide_eq_true_eq, ge_iff_le, UInt64.le_iff_toNat_le, toNat_bytes_sub (by omega)]
      have hsum : (kMinSidHeader + UInt64.ofNat kDwordBytes *
          (buf.data.getD (off.toNat + 1) 0).toUInt64).toNat
          = 8 + 4 * (buf.data.getD (off.toNat + 1) 0).toNat := by
        simp only [kMinSidHeader, kDwordBytes, UInt64.toNat_add, UInt64.toNat_mul,
          UInt8.toNat_toUInt64, UInt64.reduceToNat, UInt64.reduceOfNat]
        omega
      rw [hsum]
      omega

theorem aclFitsAt_checks : Checks (aclFitsAt buf off) (AclInside buf.data off.toNat) := by
  have hzero : off = kAbsentPartOffset ↔ off.toNat = 0 := UInt32.toNat_inj.symm
  have hheader : partHeaderFitsAt buf.bytes off kMinAclHeader = true ↔ off.toNat + 8 ≤ _ :=
    partHeaderFitsAt_iff (by decide)
  unfold aclFitsAt
  by_cases habsent : off = kAbsentPartOffset
  · rw [if_pos habsent]
    exact ⟨true, rfl, iff_of_true rfl (.inl (hzero.mp habsent))⟩
  · rw [if_neg habsent]
    rw [hzero] at habsent
    cases hfits : partHeaderFitsAt buf.bytes off kMinAclHeader with
    | false =>
      refine ⟨false, rfl, iff_of_false (by simp) ?_⟩
      rw [hfits] at hheader
      unfold AclInside
      have hout : ¬ (off.toNat + 8 ≤ buf.data.length) := fun h => absurd (hheader.mpr h) (by simp)
      omega
    | true =>
      have hroom : off.toNat + 8 ≤ buf.data.length := hheader.mp hfits
      have hread : buf.fieldAt (off.toNat + kAclSizeOffset) 2
          = .ok (field buf.data (off.toNat + 2) 2) :=
        SizedBuffer.fieldAt_ok (show off.toNat + 2 + 2 ≤ buf.data.length by omega)
      have hsize := field_lt buf.data (off.toNat + 2) 2
      have htoNat : (UInt64.ofNat (field buf.data (off.toNat + 2) 2)).toNat
          = field buf.data (off.toNat + 2) 2 := by
        rw [UInt64.toNat_ofNat']
        omega
      simp only [Bool.not_true, Bool.false_eq_true, if_false, hread]
      refine ⟨_, rfl, ?_⟩
      unfold AclInside
      rw [Bool.and_eq_true, decide_eq_true_eq, decide_eq_true_eq, ge_iff_le, ge_iff_le,
        UInt64.le_iff_toNat_le, UInt64.le_iff_toNat_le, toNat_bytes_sub (by omega), htoNat]
      show 8 ≤ _ ∧ _ ↔ _
      omega

/-- A part whose offset is in the header. -/
theorem partFits_checks {fitsAt : SizedBuffer → UInt32 → Except ReadFault Bool}
    {Inside : Nat → Prop} (h : ∀ off : UInt32, Checks (fitsAt buf off) (Inside off.toNat))
    {offset : Nat} (hoffset : offset + 4 ≤ buf.data.length) :
    Checks (partFits buf fitsAt offset) (Inside (field buf.data offset 4)) := by
  have hlt := field_lt buf.data offset 4
  have htoNat : (UInt32.ofNat (field buf.data offset 4)).toNat = field buf.data offset 4 := by
    rw [UInt32.toNat_ofNat']
    omega
  have hread : readDword buf offset = .ok (UInt32.ofNat (field buf.data offset 4)) := by
    unfold readDword
    rw [SizedBuffer.fieldAt_ok hoffset]
    rfl
  have hpart := h (UInt32.ofNat (field buf.data offset 4))
  rw [htoNat] at hpart
  unfold partFits
  rw [hread]
  exact hpart

end Fits

/-! ## The whole check -/

/-- The checks before the call read inside the buffer, and accept exactly where every part lies
inside. -/
theorem checkParts_checks (buf : SizedBuffer) : Checks (checkParts buf) (PartsInside buf.data) := by
  have hsize : buf.bytes < kSelfRelativeHeaderBytes ↔ buf.data.length < 20 := by
    rw [UInt64.lt_iff_toNat_lt, buf.bytes_toNat]
    rfl
  unfold checkParts
  by_cases hheader : buf.data.length < 20
  · rw [if_pos (hsize.mpr hheader)]
    exact ⟨false, rfl, iff_of_false (by simp) fun h => absurd h.header (by omega)⟩
  have hword : buf.fieldAt kControlOffset 2 = .ok (field buf.data 2 2) :=
    SizedBuffer.fieldAt_ok (show 2 + 2 ≤ buf.data.length by omega)
  rw [if_neg (fun h => hheader (hsize.mp h)), hword]
  by_cases hcontrol : controlOf buf.data &&& seSelfRelative = 0
  · refine ⟨false, ?_, iff_of_false (by simp) fun h => absurd hcontrol h.selfRelative⟩
    exact if_pos hcontrol
  have hsid : ∀ offset, offset + 4 ≤ 20 →
      Checks (partFits buf sidFitsAt offset) (SidInside buf.data (field buf.data offset 4)) :=
    fun offset hoffset => partFits_checks (fun _ => sidFitsAt_checks) (by omega)
  have hacl : ∀ offset, offset + 4 ≤ 20 →
      Checks (partFits buf aclFitsAt offset) (AclInside buf.data (field buf.data offset 4)) :=
    fun offset hoffset => partFits_checks (fun _ => aclFitsAt_checks) (by omega)
  have hparts := (hsid kOwnerOffset (by decide)).and ((hsid kGroupOffset (by decide)).and
    ((hacl kSaclOffset (by decide)).guarded (c := controlOf buf.data &&& seSaclPresent ≠ 0)
      ((hacl kDaclOffset (by decide)).guarded (c := controlOf buf.data &&& seDaclPresent ≠ 0)
        Checks.accept)))
  obtain ⟨fits, heq, hfits⟩ := hparts
  refine ⟨fits, (if_neg hcontrol).trans heq, hfits.trans ?_⟩
  constructor
  · intro h
    obtain ⟨howner, hgroup, hsacl, hdacl, -⟩ := h
    exact ⟨by omega, hcontrol, howner, hgroup, hsacl, hdacl⟩
  · intro h
    exact ⟨h.owner, h.group, h.sacl, h.dacl, trivial⟩

/-- The check of a descriptor reads inside the buffer only, whatever the buffer and the host.
It reaches the Win32 check exactly where the buffer holds a self-relative header and every part
that the Win32 check uses lies completely inside. -/
theorem isValidBounded_reaches_iff (host : SecurityHost) (buf : Option SizedBuffer) :
    ∃ result, isValidBoundedSecurityDescriptor host buf = .ok result ∧
      (.isValidSecurityDescriptor ∈ result.calls ↔ ∃ b, buf = some b ∧ PartsInside b.data) := by
  unfold isValidBoundedSecurityDescriptor
  cases buf with
  | none => exact ⟨_, rfl, by simp⟩
  | some buf =>
    obtain ⟨fits, heq, hfits⟩ := checkParts_checks buf
    have hbuf : (∃ b, some buf = some b ∧ PartsInside b.data) ↔ fits = true := by
      simp [hfits]
    rw [hbuf]
    simp only [heq]
    cases fits with
    | false => exact ⟨_, rfl, by simp⟩
    | true =>
      show ∃ result, (if !host.isValidSecurityDescriptor buf.data then _ else _) = _ ∧ _
      split
      · exact ⟨_, rfl, by simp⟩
      · exact ⟨_, rfl, by simp⟩

end Abi

end LayerMount
