import LayerMount.Handles

/-!
# The copy that keeps holes

`CopyFileDataKeepingHoles` of `EntryCopy.cpp`: the allocated ranges of a sparse source are
copied page by page, or every byte where a handle is not sparse or the volume refuses the
query.

The host may fail any call, give a read any part of what is asked, and answer each query of
the ranges as `Answered` says.  `copyFileDataKeepingHoles_exact` is for all such hosts: the
loop over the pages ends, and a copy that succeeds leaves the source's bytes.
-/

namespace LayerMount.EntryCopy

open Context (writeAt)

def kCopyBufferSize : Nat := 64 * 1024

/-- `LLONG_MAX`. -/
def kLongLongMax : Nat := 2 ^ 63 - 1

/-- The size of the buffer of one range query. -/
def kRangesPerQuery : Nat := 64

/-- `FILE_ALLOCATED_RANGE_BUFFER`. -/
structure AllocatedRange where
  fileOffset : Nat
  length : Nat
  deriving DecidableEq, Repr

def AllocatedRange.stop (r : AllocatedRange) : Nat := r.fileOffset + r.length

inductive RangeQuery where
  | complete
  | more
  | refused
  deriving DecidableEq, Repr

def kFileAttributeSparseFile : UInt32 := 0x200

/-- The bits of `MayHoldRemoteData`: reparse point, offline, recall on open, recall on data
access. -/
def kRemoteAttributes : UInt32 := 0x400 ||| 0x1000 ||| 0x40000 ||| 0x400000

/-- The host's side of a copy.  A call is known by its number. -/
structure CopyHost where
  error : Nat → Option NtStatus
  /-- A read gives no more than one byte above this. -/
  delivered : Nat → Nat
  queryAllocatedRanges : Nat → (offset length : Nat) → RangeQuery × List AllocatedRange
  sourceAttributes : Option UInt32
  destinationAttributes : Option UInt32

/-- The two files behind their handles. -/
structure CopyFiles where
  source : Data
  sourcePosition : Nat := 0
  destination : Data
  destinationPosition : Nat := 0
  calls : Nat := 0
  deriving DecidableEq, Repr

def CopyFiles.called (f : CopyFiles) : CopyFiles := { f with calls := f.calls + 1 }

section

variable (H : CopyHost)

/-- What `ReadFile` puts into the buffer. -/
def bytesRead (f : CopyFiles) (chunk : Nat) : Data :=
  ((f.source.drop f.sourcePosition).take chunk).take (H.delivered f.calls + 1)

/-- A write of a part is a failed write. -/
def writeChunk (bytes : Data) (f : CopyFiles) : Except NtStatus CopyFiles :=
  match H.error f.calls with
  | some status => .error status
  | none =>
    .ok
      { f with
        destination := writeAt f.destination f.destinationPosition bytes
        destinationPosition := f.destinationPosition + bytes.length
        calls := f.calls + 1 }

/-- The loop of `CopyBytes`, and the bytes copied with it. -/
def copyBytes (limit bytesCopied : Nat) (f : CopyFiles) : Except NtStatus (Nat × CopyFiles) :=
  if bytesCopied < limit then
    match H.error f.calls with
    | some status => .error status
    | none =>
      let bytes := bytesRead H f (min (limit - bytesCopied) kCopyBufferSize)
      if bytes.length = 0 then .ok (bytesCopied, f.called)
      else
        match writeChunk H bytes
          { f.called with sourcePosition := f.sourcePosition + bytes.length } with
        | .error status => .error status
        | .ok f' => copyBytes limit (bytesCopied + bytes.length) f'
  else .ok (bytesCopied, f)
termination_by limit - bytesCopied
decreasing_by
  rename_i hlt hbytes
  have hpos : (bytesRead H f (min (limit - bytesCopied) kCopyBufferSize)).length ≠ 0 := hbytes
  omega

def copyBytesToEnd (f : CopyFiles) : Except NtStatus CopyFiles :=
  (copyBytes H kLongLongMax 0 f).map Prod.snd

/-- `SetFilePointerEx` of both handles. -/
def seekBoth (position : Nat) (f : CopyFiles) : Except NtStatus CopyFiles :=
  match H.error f.calls with
  | some status => .error status
  | none =>
    .ok { f.called with sourcePosition := position, destinationPosition := position }

def copyBytesFromStart (f : CopyFiles) : Except NtStatus CopyFiles :=
  match seekBoth H 0 f with
  | .error status => .error status
  | .ok f' => copyBytesToEnd H f'

def copyAllocatedRange (r : AllocatedRange) (f : CopyFiles) : Except NtStatus (Nat × CopyFiles) :=
  match seekBoth H r.fileOffset f with
  | .error status => .error status
  | .ok f' => copyBytes H r.length 0 f'

/-- The loop over one page, and whether the source ended in it. -/
def copyPage : List AllocatedRange → CopyFiles → Except NtStatus (Bool × CopyFiles)
  | [], f => .ok (false, f)
  | r :: rest, f =>
    match copyAllocatedRange H r f with
    | .error status => .error status
    | .ok (bytesCopied, f') => if bytesCopied < r.length then .ok (true, f') else copyPage rest f'

/-- The loop of `CopyAllocatedRanges` from the query at `offset` on, for a number of turns,
and whether the volume refused a query. -/
def copyAllocatedRanges (srcSize : Nat) :
    Nat → Nat → CopyFiles → Option (Except NtStatus (Bool × CopyFiles))
  | 0, offset, f => if offset < srcSize then none else some (.ok (false, f))
  | turns + 1, offset, f =>
    if offset < srcSize then
      match H.queryAllocatedRanges f.calls offset (srcSize - offset) with
      | (.refused, _) => some (.ok (true, f.called))
      | (result, ranges) =>
        match copyPage H ranges f.called with
        | .error status => some (.error status)
        | .ok (true, f') => some (.ok (false, f'))
        | .ok (false, f') =>
          match result, ranges.getLast? with
          | .more, some last => copyAllocatedRanges srcSize turns last.stop f'
          | _, _ => some (.ok (false, f'))
    else some (.ok (false, f))

def setEndOfFileIfSizeDiffers (size : Nat) (f : CopyFiles) : Except NtStatus CopyFiles :=
  match H.error f.calls with
  | some status => .error status
  | none =>
    if f.destination.length = size then .ok f.called
    else
      match H.error f.called.calls with
      | some status => .error status
      | none =>
        .ok
          { f.called.called with
            destination :=
              f.destination.take size ++ List.replicate (size - f.destination.length) 0
            destinationPosition := size }

/-- Whether the copy takes the byte path: the attributes of a handle are not there, or ask
for it. -/
def readsEveryByte : Bool :=
  match H.sourceAttributes with
  | none => true
  | some attributes =>
    attributes &&& kFileAttributeSparseFile = 0 || attributes &&& kRemoteAttributes ≠ 0 ||
      match H.destinationAttributes with
      | none => true
      | some attributes => attributes &&& kFileAttributeSparseFile = 0

def copyFileDataKeepingHoles (turns : Nat) (f : CopyFiles) : Option (Except NtStatus CopyFiles) :=
  if readsEveryByte H then some (copyBytesToEnd H f)
  else
    match H.error f.calls with
    | some status => some (.error status)
    | none =>
      match copyAllocatedRanges H f.source.length turns 0 f.called with
      | none => none
      | some (.error status) => some (.error status)
      | some (.ok (true, f')) => some (copyBytesFromStart H f')
      | some (.ok (false, f')) => some (setEndOfFileIfSizeDiffers H f.source.length f')

end

/-! ## Bytes of a file -/

/-- The byte at an offset.  Behind its end a file has zeros. -/
def byteAt (data : Data) (k : Nat) : UInt8 := data.getD k 0

theorem byteAt_of_le {data : Data} {k : Nat} (h : data.length ≤ k) : byteAt data k = 0 := by
  unfold byteAt
  rw [List.getD_eq_getElem?_getD, List.getElem?_eq_none h]
  rfl

theorem eq_of_byteAt {a b : Data} (hlength : a.length = b.length)
    (h : ∀ k, byteAt a k = byteAt b k) : a = b := by
  apply List.ext_getElem hlength
  intro k ha hb
  have hk := h k
  unfold byteAt at hk
  rwa [List.getD_eq_getElem?_getD, List.getD_eq_getElem?_getD, List.getElem?_eq_getElem ha,
    List.getElem?_eq_getElem hb] at hk

theorem byteAt_replicate (n k : Nat) : byteAt (List.replicate n 0) k = 0 := by
  unfold byteAt
  rw [List.getD_eq_getElem?_getD, List.getElem?_replicate]
  split
  · rfl
  · rfl

theorem byteAt_append (a b : Data) (k : Nat) :
    byteAt (a ++ b) k = if k < a.length then byteAt a k else byteAt b (k - a.length) := by
  unfold byteAt
  rw [List.getD_eq_getElem?_getD, List.getD_eq_getElem?_getD, List.getD_eq_getElem?_getD,
    List.getElem?_append]
  split
  · rfl
  · rfl

theorem byteAt_take (data : Data) (n k : Nat) :
    byteAt (data.take n) k = if k < n then byteAt data k else 0 := by
  unfold byteAt
  rw [List.getD_eq_getElem?_getD, List.getD_eq_getElem?_getD, List.getElem?_take]
  split
  · rfl
  · rfl

theorem byteAt_drop (data : Data) (n k : Nat) : byteAt (data.drop n) k = byteAt data (n + k) := by
  unfold byteAt
  rw [List.getD_eq_getElem?_getD, List.getD_eq_getElem?_getD, List.getElem?_drop]

/-- A write changes the bytes it covers and no other. -/
theorem byteAt_writeAt (data : Data) (offset : Nat) (bytes : Data) (k : Nat) :
    byteAt (writeAt data offset bytes) k =
      if offset ≤ k ∧ k < offset + bytes.length then byteAt bytes (k - offset)
      else byteAt data k := by
  have hbefore : (data.take offset ++ List.replicate (offset - data.length) 0).length = offset := by
    rw [List.length_append, List.length_take, List.length_replicate]
    omega
  unfold writeAt
  rw [List.append_assoc, byteAt_append, hbefore]
  split
  · next hlt =>
    rw [if_neg (by omega), byteAt_append, byteAt_take, byteAt_replicate, if_pos hlt]
    split
    · rfl
    · next hpast =>
      rw [List.length_take] at hpast
      exact (byteAt_of_le (by omega)).symm
  · next hge =>
    rw [byteAt_append, byteAt_drop]
    split
    · rw [if_pos (by omega)]
    · rw [if_neg (by omega)]
      congr 1
      omega

theorem length_writeAt {bytes : Data} (hbytes : bytes ≠ []) (data : Data) (offset : Nat) :
    (writeAt data offset bytes).length = max data.length (offset + bytes.length) := by
  have hpos := List.length_pos_iff.mpr hbytes
  unfold writeAt
  simp only [List.length_append, List.length_take, List.length_replicate, List.length_drop]
  omega

/-! ## Copying bytes -/

/-- `m` bytes went from one file to the other, at the same offsets. -/
structure Copied (f f' : CopyFiles) (m : Nat) : Prop where
  source : f'.source = f.source
  sourcePosition : f'.sourcePosition = f.sourcePosition + m
  destinationPosition : f'.destinationPosition = f.destinationPosition + m
  inside : m ≠ 0 → f.sourcePosition + m ≤ f.source.length
  bytes : ∀ k, byteAt f'.destination k =
    if f.sourcePosition ≤ k ∧ k < f.sourcePosition + m then byteAt f.source k
    else byteAt f.destination k
  size : f'.destination.length =
    if m = 0 then f.destination.length else max f.destination.length (f.sourcePosition + m)

namespace Copied

variable {f f' f'' : CopyFiles}

/-- A call that moves nothing. -/
theorem called (f : CopyFiles) (n : Nat) : Copied f { f with calls := n } 0 where
  source := rfl
  sourcePosition := rfl
  destinationPosition := rfl
  inside h := absurd rfl h
  bytes k := by
    rw [if_neg (by omega)]
  size := rfl

theorem refl (f : CopyFiles) : Copied f f 0 := called f f.calls

theorem trans {m n : Nat} (h : Copied f f' m) (h' : Copied f' f'' n) : Copied f f'' (m + n) where
  source := h'.source.trans h.source
  sourcePosition := by rw [h'.sourcePosition, h.sourcePosition, Nat.add_assoc]
  destinationPosition := by rw [h'.destinationPosition, h.destinationPosition, Nat.add_assoc]
  inside hne := by
    have hm := h.inside
    have hn := h'.inside
    rw [h.sourcePosition, h.source] at hn
    omega
  bytes k := by
    rw [h'.bytes, h.bytes, h.sourcePosition, h.source]
    split
    · rw [if_pos (by omega)]
    · split
      · rw [if_pos (by omega)]
      · rw [if_neg (by omega)]
  size := by
    rw [h'.size, h.size, h.sourcePosition]
    split
    · split
      · rw [if_pos (by omega)]
      · rw [if_neg (by omega)]
        omega
    · split
      · rw [if_neg (by omega)]
        omega
      · rw [if_neg (by omega)]
        omega

end Copied

section

variable {H : CopyHost}

theorem bytesRead_eq (f : CopyFiles) (chunk : Nat) :
    bytesRead H f chunk
      = (f.source.drop f.sourcePosition).take (bytesRead H f chunk).length := by
  unfold bytesRead
  rw [List.take_take, List.length_take, List.take_eq_take_iff, List.length_drop]
  omega

theorem length_bytesRead_le (f : CopyFiles) (chunk : Nat) :
    (bytesRead H f chunk).length ≤ min chunk (f.source.length - f.sourcePosition) := by
  unfold bytesRead
  rw [List.length_take, List.length_take, List.length_drop]
  omega

/-- A read gives nothing at the end of the source only. -/
theorem source_ends_of_bytesRead {f : CopyFiles} {chunk : Nat} (hchunk : 0 < chunk)
    (h : (bytesRead H f chunk).length = 0) : f.source.length ≤ f.sourcePosition := by
  unfold bytesRead at h
  rw [List.length_take, List.length_take, List.length_drop] at h
  omega

/-- One turn of the loop copies what was read. -/
theorem writeChunk_copied {f f' : CopyFiles} {chunk : Nat}
    (hpositions : f.sourcePosition = f.destinationPosition)
    (hbytes : (bytesRead H f chunk).length ≠ 0)
    (h : writeChunk H (bytesRead H f chunk)
      { f.called with sourcePosition := f.sourcePosition + (bytesRead H f chunk).length } = .ok f') :
    Copied f f' (bytesRead H f chunk).length := by
  have hinside := length_bytesRead_le (H := H) f chunk
  unfold writeChunk at h
  split at h
  · exact absurd h (by simp)
  · injection h with h
    subst h
    refine ⟨rfl, rfl, rfl, ?_, ?_, ?_⟩
    · intro _
      omega
    · intro k
      show byteAt (writeAt f.destination f.destinationPosition (bytesRead H f chunk)) k = _
      rw [byteAt_writeAt, ← hpositions]
      split
      · next hk =>
        rw [bytesRead_eq, byteAt_take, if_pos (by omega), byteAt_drop]
        congr 1
        omega
      · rfl
    · show (writeAt f.destination f.destinationPosition (bytesRead H f chunk)).length = _
      rw [length_writeAt (List.ne_nil_of_length_pos (Nat.pos_of_ne_zero hbytes)), if_neg hbytes,
        hpositions]

/-- The loop copies up to the limit, and stops before it at the end of the source only. -/
theorem copyBytes_copied {limit bytesCopied : Nat} {f f' : CopyFiles} {copied : Nat}
    (hpositions : f.sourcePosition = f.destinationPosition) (hle : bytesCopied ≤ limit)
    (h : copyBytes H limit bytesCopied f = .ok (copied, f')) :
    ∃ m, copied = bytesCopied + m ∧ copied ≤ limit ∧ Copied f f' m ∧
      (copied < limit → f.source.length ≤ f.sourcePosition + m) := by
  fun_induction copyBytes H limit bytesCopied f with
  | case1 bytesCopied f hlt status hstatus => exact absurd h (by simp)
  | case2 bytesCopied f hlt hnone bytes hempty =>
    injection h with h
    injection h with hcopied hf
    subst hcopied hf
    refine ⟨0, rfl, hle, .called f _, fun _ => ?_⟩
    exact source_ends_of_bytesRead (by unfold kCopyBufferSize; omega) hempty
  | case3 bytesCopied f hlt hnone bytes hbytes status hstatus => exact absurd h (by simp)
  | case4 bytesCopied f hlt hnone bytes hbytes f₁ hwrite ih =>
    have hturn : Copied f f₁ bytes.length := writeChunk_copied hpositions hbytes hwrite
    have hread : bytes.length ≤ _ := length_bytesRead_le f (min (limit - bytesCopied) kCopyBufferSize)
    obtain ⟨m, hcopied, hlimit, hrest, hends⟩ := ih (by
      rw [hturn.sourcePosition, hturn.destinationPosition, hpositions]) (by omega) h
    refine ⟨bytes.length + m, ?_, hlimit, hturn.trans hrest, ?_⟩
    · omega
    · intro hshort
      have hend := hends hshort
      rw [hturn.source, hturn.sourcePosition] at hend
      omega
  | case5 bytesCopied f hlt =>
    injection h with h
    injection h with hcopied hf
    subst hcopied hf
    exact ⟨0, rfl, hle, .refl f, fun hshort => absurd hshort hlt⟩

theorem seekBoth_eq {position : Nat} {f f' : CopyFiles} (h : seekBoth H position f = .ok f') :
    f' = { f.called with sourcePosition := position, destinationPosition := position } := by
  unfold seekBoth at h
  split at h
  · exact absurd h (by simp)
  · injection h with h
    exact h.symm

/-- The byte path from the start leaves the source. -/
theorem copyBytesToEnd_exact {f f' : CopyFiles} (hsource : f.sourcePosition = 0)
    (hdestination : f.destinationPosition = 0) (hsize : f.source.length ≤ kLongLongMax)
    (hfits : f.destination.length ≤ f.source.length) (h : copyBytesToEnd H f = .ok f') :
    f'.destination = f.source := by
  unfold copyBytesToEnd at h
  cases hcopy : copyBytes H kLongLongMax 0 f with
  | error status =>
    rw [hcopy] at h
    exact absurd h (by simp [Except.map])
  | ok result =>
    obtain ⟨copied, last⟩ := result
    rw [hcopy] at h
    injection h with h
    change last = f' at h
    subst h
    obtain ⟨m, hcopied, hlimit, hmoved, hends⟩ :=
      copyBytes_copied (by rw [hsource, hdestination]) (Nat.zero_le _) hcopy
    have hinside := hmoved.inside
    have hlength := hmoved.size
    rw [hsource] at hinside hlength hends
    have hm : m = f.source.length := by omega
    apply eq_of_byteAt
    · rw [hlength]
      split
      · omega
      · omega
    · intro k
      rw [hmoved.bytes, hsource]
      split
      · rfl
      · have hend : f.destination.length ≤ k := by omega
        rw [byteAt_of_le hend, byteAt_of_le (by omega)]

theorem copyBytesFromStart_exact {f f' : CopyFiles} (hsize : f.source.length ≤ kLongLongMax)
    (hfits : f.destination.length ≤ f.source.length) (h : copyBytesFromStart H f = .ok f') :
    f'.destination = f.source := by
  unfold copyBytesFromStart at h
  split at h
  · exact absurd h (by simp)
  · next f₁ hseek =>
    have heq := seekBoth_eq hseek
    subst heq
    exact copyBytesToEnd_exact
      (f := { f.called with sourcePosition := 0, destinationPosition := 0 }) rfl rfl hsize hfits h

end

/-! ## Copying ranges -/

/-- The byte at `k` is copied. -/
def Agrees (f : CopyFiles) (k : Nat) : Prop := byteAt f.destination k = byteAt f.source k

/-- A part of the source is there, and zeros for the rest. -/
structure PartCopy (source : Data) (f : CopyFiles) : Prop where
  same : f.source = source
  size : f.destination.length ≤ source.length
  bytes : ∀ k, Agrees f k ∨ byteAt f.destination k = 0

namespace PartCopy

variable {source : Data} {f f' : CopyFiles}

theorem agrees_of_le (h : PartCopy source f) {k : Nat} (hk : source.length ≤ k) : Agrees f k := by
  have hsize := h.size
  unfold Agrees
  have hend : f.destination.length ≤ k := by omega
  rw [byteAt_of_le hend, byteAt_of_le (by rw [h.same]; exact hk)]

/-- A hole needs no copy. -/
theorem agrees_of_zero (h : PartCopy source f) {k : Nat} (hk : byteAt source k = 0) :
    Agrees f k := by
  obtain hagrees | hzero := h.bytes k
  · exact hagrees
  · unfold Agrees
    rw [hzero, h.same, hk]

end PartCopy

/-- More of the source is there. -/
structure Advances (source : Data) (f f' : CopyFiles) : Prop where
  part : PartCopy source f'
  agrees : ∀ k, Agrees f k → Agrees f' k

theorem Advances.trans {source : Data} {f f' f'' : CopyFiles} (h : Advances source f f')
    (h' : Advances source f' f'') : Advances source f f'' :=
  ⟨h'.part, fun k hk => h'.agrees k (h.agrees k hk)⟩

theorem Copied.advances {source : Data} {f f' : CopyFiles} {m : Nat} (h : Copied f f' m)
    (hf : PartCopy source f) : Advances source f f' ∧
      ∀ k, f.sourcePosition ≤ k → k < f.sourcePosition + m → Agrees f' k := by
  have hcopied : ∀ k, f.sourcePosition ≤ k → k < f.sourcePosition + m → Agrees f' k := by
    intro k hfrom hto
    unfold Agrees
    rw [h.bytes, if_pos ⟨hfrom, hto⟩, h.source]
  have hkept : ∀ k, Agrees f k → Agrees f' k := by
    intro k hk
    unfold Agrees at hk ⊢
    rw [h.bytes, h.source]
    split
    · rfl
    · exact hk
  refine ⟨⟨⟨h.source.trans hf.same, ?_, ?_⟩, hkept⟩, hcopied⟩
  · have hinside := h.inside
    have hsize := hf.size
    rw [hf.same] at hinside
    rw [h.size]
    split
    · exact hsize
    · omega
  · intro k
    by_cases hk : f.sourcePosition ≤ k ∧ k < f.sourcePosition + m
    · exact .inl (hcopied k hk.1 hk.2)
    · obtain hagrees | hzero := hf.bytes k
      · exact .inl (hkept k hagrees)
      · refine .inr ?_
        rw [h.bytes, if_neg hk, hzero]

/-- Ranges in ascending order. -/
def Ascending (ranges : List AllocatedRange) : Prop :=
  ranges.Pairwise fun a b => a.stop ≤ b.fileOffset

def Covers (ranges : List AllocatedRange) (k : Nat) : Prop :=
  ∃ r ∈ ranges, r.fileOffset ≤ k ∧ k < r.stop

section

variable {H : CopyHost} {source : Data}

theorem copyAllocatedRange_advances {r : AllocatedRange} {f f' : CopyFiles} {copied : Nat}
    (hf : PartCopy source f) (h : copyAllocatedRange H r f = .ok (copied, f')) :
    Advances source f f' ∧ (∀ k, r.fileOffset ≤ k → k < r.stop → Agrees f' k) ∧
      (copied < r.length → source.length ≤ r.stop) := by
  unfold copyAllocatedRange at h
  split at h
  · exact absurd h (by simp)
  · next f₁ hseek =>
    have heq := seekBoth_eq hseek
    subst heq
    have hsought : PartCopy source { f.called with
        sourcePosition := r.fileOffset, destinationPosition := r.fileOffset } :=
      ⟨hf.same, hf.size, hf.bytes⟩
    obtain ⟨m, hcopied, hlimit, hmoved, hends⟩ := copyBytes_copied rfl (Nat.zero_le _) h
    obtain ⟨hadvances, hrange⟩ := hmoved.advances hsought
    have hend : copied < r.length → source.length ≤ r.fileOffset + m := by
      intro hshort
      rw [← hf.same]
      exact hends hshort
    refine ⟨⟨hadvances.part, hadvances.agrees⟩, ?_, ?_⟩
    · intro k hfrom hto
      unfold AllocatedRange.stop at hto
      by_cases hk : k < r.fileOffset + m
      · exact hrange k hfrom hk
      · exact hadvances.part.agrees_of_le (by omega)
    · intro hshort
      unfold AllocatedRange.stop
      have hend := hend hshort
      omega

/-- A page is copied whole, or up to the end of the source.  The ranges behind the one in
which the source ends have none of its bytes. -/
theorem copyPage_advances {ranges : List AllocatedRange} {f f' : CopyFiles} {ended : Bool}
    (hascending : Ascending ranges) (hf : PartCopy source f)
    (h : copyPage H ranges f = .ok (ended, f')) :
    Advances source f f' ∧ (∀ k, Covers ranges k → Agrees f' k) ∧
      (ended = true → ∃ r ∈ ranges, source.length ≤ r.stop) := by
  induction ranges generalizing f with
  | nil =>
    injection h with h
    injection h with hended h
    subst h hended
    refine ⟨⟨hf, fun k hk => hk⟩, ?_, fun h => absurd h (by simp)⟩
    rintro k ⟨r, hr, -⟩
    exact absurd hr List.not_mem_nil
  | cons r rest ih =>
    unfold Ascending at hascending
    rw [List.pairwise_cons] at hascending
    unfold copyPage at h
    split at h
    · exact absurd h (by simp)
    · next copied f₁ hrange =>
      obtain ⟨hadvances, hcopied, hends⟩ := copyAllocatedRange_advances hf hrange
      split at h
      · next hshort =>
        injection h with h
        injection h with _ h
        subst h
        refine ⟨hadvances, ?_, fun _ => ⟨r, List.mem_cons_self, hends hshort⟩⟩
        rintro k ⟨r', hr', hfrom, hto⟩
        rcases List.mem_cons.mp hr' with rfl | hr'
        · exact hcopied k hfrom hto
        · have hbehind := hascending.1 r' hr'
          have hend := hends hshort
          exact hadvances.part.agrees_of_le (by omega)
      · obtain ⟨hrest, hcovered, hended⟩ := ih hascending.2 hadvances.part h
        refine ⟨hadvances.trans hrest, ?_, ?_⟩
        · rintro k ⟨r', hr', hfrom, hto⟩
          rcases List.mem_cons.mp hr' with rfl | hr'
          · exact hrest.agrees k (hcopied k hfrom hto)
          · exact hcovered k ⟨r', hr', hfrom, hto⟩
        · intro h
          obtain ⟨r', hr', hend⟩ := hended h
          exact ⟨r', List.mem_cons_of_mem _ hr', hend⟩

/-- What a volume that takes the query answers for the ranges from `offset` on: ranges in
ascending order that have all data up to the end of the last one, or all data when they are
complete.  A page that leaves ranges out is not empty. -/
structure Answered (source : Data) (offset : Nat) (answer : RangeQuery × List AllocatedRange) :
    Prop where
  fits : answer.2.length ≤ kRangesPerQuery
  longLong : ∀ r ∈ answer.2, r.stop ≤ kLongLongMax
  ascending : Ascending answer.2
  ahead : ∀ r ∈ answer.2, offset < r.stop
  complete : answer.1 = .complete → ∀ k, offset ≤ k → byteAt source k ≠ 0 → Covers answer.2 k
  more : answer.1 = .more → ∃ last, answer.2.getLast? = some last ∧
    ∀ k, offset ≤ k → k < last.stop → byteAt source k ≠ 0 → Covers answer.2 k

/-- Every query is refused or answered. -/
def CopyHost.Lists (H : CopyHost) (source : Data) : Prop :=
  ∀ call offset, offset < source.length →
    (H.queryAllocatedRanges call offset (source.length - offset)).1 = .refused ∨
      Answered source offset (H.queryAllocatedRanges call offset (source.length - offset))

theorem stop_le_last {ranges : List AllocatedRange} {r last : AllocatedRange}
    (hascending : Ascending ranges) (hr : r ∈ ranges) (hlast : ranges.getLast? = some last) :
    r.stop ≤ last.stop := by
  obtain ⟨before, rfl⟩ := List.getLast?_eq_some_iff.mp hlast
  unfold Ascending at hascending
  rw [List.pairwise_append] at hascending
  rcases List.mem_append.mp hr with hr | hr
  · have hbehind := hascending.2.2 r hr last (List.mem_singleton_self last)
    unfold AllocatedRange.stop at hbehind ⊢
    omega
  · rw [List.mem_singleton.mp hr]

/-- What is there after a page: all of the source, or all of it before the next query. -/
theorem Answered.agrees {offset : Nat} {result : RangeQuery} {ranges : List AllocatedRange}
    {f' : CopyFiles} (h : Answered source offset (result, ranges)) (hf : PartCopy source f')
    (hcopied : ∀ k < offset, Agrees f' k) (hcovered : ∀ k, Covers ranges k → Agrees f' k) :
    (result = .complete → ∀ k, Agrees f' k) ∧
      ∀ last, result = .more → ranges.getLast? = some last → ∀ k < last.stop, Agrees f' k := by
  constructor
  · intro hresult k
    by_cases hk : k < offset
    · exact hcopied k hk
    · by_cases hzero : byteAt source k = 0
      · exact hf.agrees_of_zero hzero
      · exact hcovered k (h.complete hresult k (by omega) hzero)
  · intro last hresult hlast k hstop
    obtain ⟨last', hlast', hall⟩ := h.more hresult
    have heq : last' = last := Option.some.inj (hlast'.symm.trans hlast)
    subst heq
    by_cases hk : k < offset
    · exact hcopied k hk
    · by_cases hzero : byteAt source k = 0
      · exact hf.agrees_of_zero hzero
      · exact hcovered k (hall k (by omega) hstop hzero)

/-- A page in which the source ends leaves nothing to copy. -/
theorem Answered.agrees_of_ended {offset : Nat} {result : RangeQuery}
    {ranges : List AllocatedRange} {f' : CopyFiles} (h : Answered source offset (result, ranges))
    (hanswered : result ≠ .refused) (hf : PartCopy source f') (hcopied : ∀ k < offset, Agrees f' k)
    (hcovered : ∀ k, Covers ranges k → Agrees f' k)
    (hended : ∃ r ∈ ranges, source.length ≤ r.stop) (k : Nat) : Agrees f' k := by
  obtain ⟨hcomplete, hmore⟩ := h.agrees hf hcopied hcovered
  cases result with
  | complete => exact hcomplete rfl k
  | more =>
    obtain ⟨last, hlast, -⟩ := h.more rfl
    obtain ⟨r, hr, hend⟩ := hended
    have hle := stop_le_last h.ascending hr hlast
    by_cases hk : k < source.length
    · exact hmore last rfl hlast k (by omega)
    · exact hf.agrees_of_le (by omega)
  | refused => exact absurd rfl hanswered

/-- At the end of the source all of it is there. -/
theorem PartCopy.agrees_of_end {offset : Nat} {f : CopyFiles} (hf : PartCopy source f)
    (hcopied : ∀ k < offset, Agrees f k) (hend : ¬ offset < source.length) (k : Nat) :
    Agrees f k := by
  by_cases hk : k < offset
  · exact hcopied k hk
  · exact hf.agrees_of_le (by omega)

/-- The loop ends, and unless a query was refused the data is there.  The induction is on the
turns; the part before the query's offset is copied. -/
theorem copyAllocatedRanges_ends (hlists : H.Lists source) {turns offset : Nat} {f : CopyFiles}
    (hf : PartCopy source f) (hcopied : ∀ k < offset, Agrees f k)
    (hturns : source.length ≤ offset + turns) :
    ∃ outcome, copyAllocatedRanges H source.length turns offset f = some outcome ∧
      ∀ refused f', outcome = .ok (refused, f') →
        PartCopy source f' ∧ (refused = false → ∀ k, Agrees f' k) := by
  have hdone : ∀ {f₁ : CopyFiles}, PartCopy source f₁ → (∀ k, Agrees f₁ k) →
      ∀ refused f', (Except.ok (false, f₁) : Except NtStatus (Bool × CopyFiles)) = .ok (refused, f')
        → PartCopy source f' ∧ (refused = false → ∀ k, Agrees f' k) := by
    intro f₁ hpart hall refused f' h
    injection h with h
    injection h with _ h
    subst h
    exact ⟨hpart, fun _ => hall⟩
  induction turns generalizing offset f with
  | zero =>
    have hend : ¬ offset < source.length := by omega
    rw [copyAllocatedRanges, if_neg hend]
    exact ⟨_, rfl, hdone hf (hf.agrees_of_end hcopied hend)⟩
  | succ turns ih =>
    rw [copyAllocatedRanges]
    split
    · next hlt =>
      have hanswer := hlists f.calls offset hlt
      have hcalled : PartCopy source f.called := ⟨hf.same, hf.size, hf.bytes⟩
      split
      · refine ⟨_, rfl, ?_⟩
        intro refused f' h
        injection h with h
        injection h with hrefused h
        subst h hrefused
        exact ⟨hcalled, fun h => absurd h (by simp)⟩
      · next result ranges hnotRefused hquery =>
        rw [hquery] at hanswer
        have hresult : result ≠ .refused := hnotRefused
        have hanswered := hanswer.resolve_left hresult
        split
        · exact ⟨_, rfl, fun _ _ h => absurd h (by simp)⟩
        · next f₁ hpage =>
          obtain ⟨hadvances, hcovered, hended⟩ :=
            copyPage_advances hanswered.ascending hcalled hpage
          have hkept : ∀ k < offset, Agrees f₁ k := fun k hk => hadvances.agrees k (hcopied k hk)
          exact ⟨_, rfl, hdone hadvances.part (hanswered.agrees_of_ended hresult hadvances.part
            hkept hcovered (hended rfl))⟩
        · next f₁ hpage =>
          obtain ⟨hadvances, hcovered, -⟩ := copyPage_advances hanswered.ascending hcalled hpage
          have hkept : ∀ k < offset, Agrees f₁ k := fun k hk => hadvances.agrees k (hcopied k hk)
          obtain ⟨hcomplete, hmore⟩ := hanswered.agrees hadvances.part hkept hcovered
          cases result with
          | complete => exact ⟨_, rfl, hdone hadvances.part (hcomplete rfl)⟩
          | more =>
            obtain ⟨last, hlast, -⟩ := hanswered.more rfl
            have hahead := hanswered.ahead last (List.mem_of_getLast? hlast)
            have hnext := hmore last rfl hlast
            change ranges.getLast? = some last at hlast
            rw [hlast]
            exact ih hadvances.part hnext (by omega)
          | refused => exact absurd rfl hresult
    · next hend => exact ⟨_, rfl, hdone hf (hf.agrees_of_end hcopied hend)⟩

theorem setEndOfFileIfSizeDiffers_exact {f f' : CopyFiles} (hf : PartCopy source f)
    (hall : ∀ k, Agrees f k) (h : setEndOfFileIfSizeDiffers H source.length f = .ok f') :
    f'.destination = source := by
  have hbytes : ∀ k, byteAt f.destination k = byteAt source k := fun k => by
    rw [← hf.same]
    exact hall k
  have hsize := hf.size
  unfold setEndOfFileIfSizeDiffers at h
  split at h
  · exact absurd h (by simp)
  · split at h
    · next hsame =>
      injection h with h
      subst h
      exact eq_of_byteAt hsame hbytes
    · split at h
      · exact absurd h (by simp)
      · injection h with h
        subst h
        show f.destination.take source.length ++ _ = source
        rw [List.take_of_length_le hsize]
        apply eq_of_byteAt
        · rw [List.length_append, List.length_replicate]
          omega
        · intro k
          rw [byteAt_append, byteAt_replicate]
          split
          · exact hbytes k
          · rw [← hbytes, byteAt_of_le (by omega)]

end

/-- For every source, every volume and every host: the loop over the ranges ends, and when the
copy into an empty file or into a shell of zeros succeeds, the destination is the source. -/
theorem copyFileDataKeepingHoles_exact {H : CopyHost} {source destination : Data}
    (hsize : source.length ≤ kLongLongMax) (hlists : H.Lists source)
    (hdestination : destination = [] ∨ destination = List.replicate source.length 0) {turns : Nat}
    (hturns : source.length ≤ turns) :
    ∃ outcome, copyFileDataKeepingHoles H turns { source, destination } = some outcome ∧
      ∀ files, outcome = .ok files → files.destination = source := by
  have hfits : destination.length ≤ source.length := by
    obtain h | h := hdestination
    · rw [h]
      exact Nat.zero_le _
    · rw [h, List.length_replicate]
  have hzeros : ∀ k, byteAt destination k = 0 := by
    intro k
    obtain h | h := hdestination
    · rw [h]
      exact byteAt_of_le (Nat.zero_le _)
    · rw [h, byteAt_replicate]
  unfold copyFileDataKeepingHoles
  split
  · exact ⟨_, rfl, fun files h => copyBytesToEnd_exact rfl rfl hsize hfits h⟩
  · split
    · exact ⟨_, rfl, fun _ h => absurd h (by simp)⟩
    · have hpart : PartCopy source
          (CopyFiles.called { source, destination }) := ⟨rfl, hfits, fun k => .inr (hzeros k)⟩
      obtain ⟨outcome, hrun, hout⟩ := copyAllocatedRanges_ends hlists hpart
        (fun k hk => absurd hk (Nat.not_lt_zero k)) (by omega : source.length ≤ 0 + turns)
      rw [hrun]
      match outcome, hout with
      | .error status, _ => exact ⟨_, rfl, fun _ h => absurd h (by simp)⟩
      | .ok (true, f'), hout =>
        obtain ⟨hpart', -⟩ := hout true f' rfl
        refine ⟨_, rfl, fun files h => ?_⟩
        have hexact := copyBytesFromStart_exact (f := f') (by rw [hpart'.same]; exact hsize)
          (by rw [hpart'.same]; exact hpart'.size) h
        rw [hexact, hpart'.same]
      | .ok (false, f'), hout =>
        obtain ⟨hpart', hall⟩ := hout false f' rfl
        exact ⟨_, rfl, fun files h => setEndOfFileIfSizeDiffers_exact hpart' (hall rfl) h⟩

/-- A volume that gives one cluster of eight bytes for each query. -/
def clusterHost : CopyHost where
  error _ := none
  delivered _ := kCopyBufferSize
  queryAllocatedRanges _ offset _ := (.complete, [⟨offset, 8⟩])
  sourceAttributes := some kFileAttributeSparseFile
  destinationAttributes := some kFileAttributeSparseFile

theorem clusterHost_lists : clusterHost.Lists [1, 0, 0, 2] := by
  intro call offset hlt
  change offset < 4 at hlt
  have hfits : 1 ≤ kRangesPerQuery := by decide
  refine .inr ⟨hfits, ?_, List.pairwise_singleton _ _, ?_, ?_, fun h => RangeQuery.noConfusion h⟩
  · intro r hr
    rw [List.mem_singleton.mp hr]
    unfold AllocatedRange.stop kLongLongMax
    show offset + 8 ≤ _
    omega
  · intro r hr
    rw [List.mem_singleton.mp hr]
    show offset < offset + 8
    omega
  · intro _ k hk hdata
    refine ⟨⟨offset, 8⟩, List.mem_singleton_self _, hk, ?_⟩
    show k < offset + 8
    by_cases hend : k < 4
    · omega
    · have hle : ([1, 0, 0, 2] : Data).length ≤ k := Nat.le_of_not_lt hend
      exact absurd (byteAt_of_le hle) hdata

theorem copyFileDataKeepingHoles_exact_cluster :
    ∃ outcome, copyFileDataKeepingHoles clusterHost 4
        { source := [1, 0, 0, 2], destination := List.replicate 4 0 } = some outcome ∧
      ∀ files, outcome = .ok files → files.destination = [1, 0, 0, 2] :=
  copyFileDataKeepingHoles_exact (by decide) clusterHost_lists (.inr rfl) (Nat.le_refl 4)

end LayerMount.EntryCopy
