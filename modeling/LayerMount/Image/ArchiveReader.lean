import LayerMount.Image.LayerImageManager

/-!
# The archive reader by positions

`ReadArchiveEntry` and the loop of `ExtractArchive` on the array they read: positions are
64-bit and wrap, and every access to the array goes through `fetch`, which fails where the
array ends.  What the loop does with an entry is a parameter, so a run is one against any
file system.

The reader by positions is `readArchiveEntry` on what is left of the array
(`readArchiveEntryAt_eq`).  No access of it fails, and every entry moves the position on.
-/

namespace LayerMount

open Lib

/-- A `std::vector` of bytes, whose length a signed 64-bit difference of pointers holds. -/
structure ByteVector where
  bytes : Data
  length_lt : bytes.length < 2 ^ 63

/-- Why a read ends without a result. -/
inductive ReadError where
  /-- An access outside the array. -/
  | outOfRange
  /-- More turns than the loop was given. -/
  | outOfTurns
  | status (e : Win32Error)
  deriving DecidableEq, Repr

namespace ByteVector

def size (a : ByteVector) : UInt64 := UInt64.ofNat a.bytes.length

/-- The bytes from the index `start` on, `length` of them. -/
def fetch (a : ByteVector) (start length : Nat) : Except ReadError Data :=
  if start + length ≤ a.bytes.length then .ok ((a.bytes.drop start).take length)
  else .error .outOfRange

def fetchByte (a : ByteVector) (k : Nat) : Except ReadError UInt8 :=
  match a.bytes[k]? with
  | some b => .ok b
  | none => .error .outOfRange

end ByteVector

/-! ## The reader -/

/-- The inner loop of `IsValidUtf8`: the bytes after a first byte. -/
def continuationsAt (a : ByteVector) : Nat → Nat → Except ReadError Bool
  | _, 0 => .ok true
  | k, extra + 1 => do
    let c ← a.fetchByte k
    if (c &&& 0xC0) ≠ 0x80 then .ok false else continuationsAt a (k + 1) extra

/-- The outer loop of `IsValidUtf8` on the `length` bytes at `start`, from index `i` on.
Each turn takes a byte at least, so the bytes left bound the turns. -/
def isValidUtf8Loop (a : ByteVector) (start length : Nat) : Nat → Nat → Except ReadError Bool
  | 0, _ => .ok true
  | turns + 1, i =>
    if length ≤ i then .ok true
    else do
      let c ← a.fetchByte (start + i)
      if c = 0 then .ok false
      else
        match extraBytes c with
        | none => .ok false
        | some extra =>
          if length ≤ i + extra then .ok false
          else do
            let all ← continuationsAt a (start + i + 1) extra
            if !all then .ok false else isValidUtf8Loop a start length turns (i + extra + 1)

def isValidUtf8At (a : ByteVector) (start length : Nat) : Except ReadError Bool :=
  isValidUtf8Loop a start length length 0

/-- An entry by the position of its data. -/
structure EntryAt where
  header : FileEntryHeader
  name : WideString
  dataAt : UInt64
  deriving DecidableEq, Repr

/-- The second half of `ReadArchiveEntry`, from the name on. -/
def readNameAt (a : ByteVector) (header : FileEntryHeader) (pos : UInt64) :
    Except ReadError (Option EntryAt × UInt64) := do
  let utf8Name ← a.fetch pos.toNat header.nameLength.toNat
  let pos := pos + header.nameLength.toUInt64
  if !isValidArchivePath utf8Name then .error (.status .badPathname)
  else if header.size > a.size - pos then .error (.status .invalidData)
  else
    .ok (some ⟨header, utf8ToWide utf8Name, pos⟩,
      if header.isDirectory = 0 then pos + header.size else pos)

/-- `ReadArchiveEntry`: the entry at the position, or none at the end marker, and the
position after it. -/
def readArchiveEntryAt (a : ByteVector) (pos : UInt64) :
    Except ReadError (Option EntryAt × UInt64) :=
  if pos + UInt64.ofNat kFileEntryHeaderSize > a.size then .error (.status .invalidData)
  else do
    let bytes ← a.fetch pos.toNat kFileEntryHeaderSize
    let header := FileEntryHeader.ofBytes bytes
    let pos := pos + UInt64.ofNat kFileEntryHeaderSize
    if header.nameLength = kArchiveEndMarker then .ok (none, pos)
    else if header.nameLength = 0 then .error (.status .invalidData)
    else if pos + header.nameLength.toUInt64 > a.size then .error (.status .invalidData)
    else do
      let valid ← isValidUtf8At a pos.toNat header.nameLength.toNat
      if !valid then .error (.status .invalidData) else readNameAt a header pos

/-! ## The loop -/

/-- What the loop does with an entry: go on, write the entry's data, or stop. -/
inductive Turn (σ : Type) where
  | next (s : σ)
  | write (s : Data → Except Win32Error σ)
  | stop (e : Win32Error)

section Loop

variable {σ : Type} (turn : σ → FileEntryHeader → WideString → Turn σ)

/-- The rest of a turn, after an entry was read. -/
def consumeAt (a : ByteVector) (s : σ) (entry : EntryAt) : Except ReadError σ :=
  match turn s entry.header entry.name with
  | .next s => .ok s
  | .stop e => .error (.status e)
  | .write f => do
    let data ← a.fetch entry.dataAt.toNat entry.header.size.toNat
    match f data with
    | .ok s => .ok s
    | .error e => .error (.status e)

/-- The loop of `ExtractArchive`. -/
def extractArchiveAt (a : ByteVector) : Nat → UInt64 → σ → Except ReadError σ
  | 0, _, _ => .error .outOfTurns
  | turns + 1, pos, s =>
    match readArchiveEntryAt a pos with
    | .error e => .error e
    | .ok (none, _) => .ok s
    | .ok (some entry, pos) => do
      let s ← consumeAt turn a s entry
      extractArchiveAt a turns pos s

/-- The positions and states at the head of the loop in a run. -/
inductive AtHead (a : ByteVector) (s₀ : σ) : UInt64 → σ → Prop where
  | start : AtHead a s₀ 0 s₀
  | next {pos pos' : UInt64} {s s' : σ} {entry : EntryAt} (h : AtHead a s₀ pos s)
      (hread : readArchiveEntryAt a pos = .ok (some entry, pos'))
      (hconsume : consumeAt turn a s entry = .ok s') : AtHead a s₀ pos' s'

end Loop

/-! ## No access outside the array -/

section Reader

variable {a : ByteVector}

theorem fetch_ok {start length : Nat} (h : start + length ≤ a.bytes.length) :
    a.fetch start length = .ok ((a.bytes.drop start).take length) := if_pos h

theorem fetchByte_ok {k : Nat} (h : k < a.bytes.length) : a.fetchByte k = .ok (a.bytes[k]) := by
  simp [ByteVector.fetchByte, h]

/-- The second byte and the ones after it, in one sequence. -/
def isContinuation (c : UInt8) : Bool := (c &&& 0xC0) = 0x80

theorem continuationsAt_eq {k extra : Nat} (h : k + extra ≤ a.bytes.length) :
    continuationsAt a k extra = .ok (((a.bytes.drop k).take extra).all isContinuation) := by
  induction extra generalizing k with
  | zero => simp [continuationsAt]
  | succ extra ih =>
    have hk : k < a.bytes.length := by omega
    rw [List.drop_eq_getElem_cons hk, List.take_succ_cons, List.all_cons, continuationsAt,
      fetchByte_ok hk]
    simp only [bind, Except.bind]
    by_cases hc : (a.bytes[k] &&& 0xC0) = 0x80
    · simp only [hc, ne_eq, not_true_eq_false, if_false, isContinuation, decide_true, Bool.true_and]
      exact ih (by omega)
    · simp [hc, isContinuation]

/-- The check of the bytes to come, and of what is after them. -/
theorem isValidUtf8From_split (pending : Nat) (l : Data) :
    isValidUtf8From pending l
      = (decide (pending ≤ l.length) && (l.take pending).all isContinuation &&
        isValidUtf8From 0 (l.drop pending)) := by
  induction pending generalizing l with
  | zero => simp
  | succ pending ih =>
    cases l with
    | nil => simp [isValidUtf8From]
    | cons c rest =>
      rw [isValidUtf8From, ih, List.take_succ_cons, List.all_cons, List.drop_succ_cons,
        List.length_cons, isContinuation]
      have hle : decide (pending + 1 ≤ rest.length + 1) = decide (pending ≤ rest.length) := by
        simp
      rw [hle]
      cases decide ((c &&& 0xC0) = 0x80) <;> cases decide (pending ≤ rest.length) <;> simp

theorem isValidUtf8Loop_eq {start length turns i : Nat} (h : start + length ≤ a.bytes.length)
    (hturns : length ≤ turns + i) :
    isValidUtf8Loop a start length turns i
      = .ok (isValidUtf8From 0 (((a.bytes.drop start).take length).drop i)) := by
  have hname : ((a.bytes.drop start).take length).length = length := by
    rw [List.length_take, List.length_drop]
    omega
  induction turns generalizing i with
  | zero =>
    rw [List.drop_eq_nil_of_le (by omega)]
    rfl
  | succ turns ih =>
    rw [isValidUtf8Loop]
    by_cases hi : length ≤ i
    · rw [if_pos hi, List.drop_eq_nil_of_le (by omega)]
      rfl
    · have hbyte : start + i < a.bytes.length := by omega
      have hcons : ((a.bytes.drop start).take length).drop i
          = a.bytes[start + i] :: ((a.bytes.drop start).take length).drop (i + 1) := by
        rw [List.drop_eq_getElem_cons (by omega), List.getElem_take, List.getElem_drop]
      rw [if_neg hi, fetchByte_ok hbyte, hcons]
      simp only [bind, Except.bind, isValidUtf8From]
      by_cases hzero : a.bytes[start + i] = 0
      · simp [hzero]
      · simp only [hzero, if_false]
        cases extraBytes a.bytes[start + i] with
        | none => rfl
        | some extra =>
          simp only
          have hrest : (((a.bytes.drop start).take length).drop (i + 1)).length = length - (i + 1) := by
            rw [List.length_drop, hname]
          rw [isValidUtf8From_split extra]
          by_cases hshort : length ≤ i + extra
          · have hnot : ¬extra ≤ (((a.bytes.drop start).take length).drop (i + 1)).length := by omega
            rw [if_pos hshort, decide_eq_false hnot]
            rfl
          · have hall : (((a.bytes.drop start).take length).drop (i + 1)).take extra
                = (a.bytes.drop (start + i + 1)).take extra := by
              rw [List.drop_take, List.drop_drop, List.take_take, Nat.min_eq_left (by omega)]
              rfl
            have hle : extra ≤ (((a.bytes.drop start).take length).drop (i + 1)).length := by omega
            rw [if_neg hshort, continuationsAt_eq (by omega), hall, List.drop_drop]
            simp only [hle, decide_true, Bool.true_and]
            cases ((a.bytes.drop (start + i + 1)).take extra).all isContinuation with
            | false => rfl
            | true =>
              have hnext := ih (i := i + extra + 1) (by omega)
              have hindex : i + 1 + extra = i + extra + 1 := by omega
              rw [hindex]
              simpa using hnext

theorem isValidUtf8At_eq {start length : Nat} (h : start + length ≤ a.bytes.length) :
    isValidUtf8At a start length = .ok (isValidUtf8 ((a.bytes.drop start).take length)) := by
  rw [isValidUtf8At, isValidUtf8Loop_eq h (by omega), List.drop_zero]
  rfl

theorem field_take {bytes : Data} {offset width k : Nat} (h : offset + width ≤ k) :
    field (bytes.take k) offset width = field bytes offset width := by
  unfold field
  rw [List.drop_take, List.take_take, Nat.min_eq_left (by omega)]

theorem ofBytes_take (bytes : Data) :
    FileEntryHeader.ofBytes (bytes.take kFileEntryHeaderSize) = FileEntryHeader.ofBytes bytes := by
  unfold FileEntryHeader.ofBytes kFileEntryHeaderSize
  simp (disch := omega) only [field_take]

theorem toNat_size_vector : a.size.toNat = a.bytes.length := by
  have hlt := a.length_lt
  rw [ByteVector.size, UInt64.toNat_ofNat']
  omega

/-- Positions inside the array do not wrap. -/
theorem toNat_add_of_le {pos k : UInt64} {n : Nat} (hpos : pos.toNat ≤ n) (hn : n < 2 ^ 63)
    (hk : k.toNat < 2 ^ 63) : (pos + k).toNat = pos.toNat + k.toNat := by
  rw [UInt64.toNat_add]
  omega

/-- What the reader gives for what is left of the array, by positions. -/
def entryAtOf (a : ByteVector) (pos : UInt64) :
    Except Win32Error (Option ArchiveEntry × Data) → Except ReadError (Option EntryAt × UInt64)
  | .error e => .error (.status e)
  | .ok (none, rest) => .ok (none, UInt64.ofNat (a.bytes.length - rest.length))
  | .ok (some entry, rest) =>
    .ok (some ⟨entry.header, entry.name,
        pos + UInt64.ofNat kFileEntryHeaderSize + entry.header.nameLength.toUInt64⟩,
      UInt64.ofNat (a.bytes.length - rest.length))

/-- The reader by positions reads what is left of the array. -/
theorem readArchiveEntryAt_eq {pos : UInt64} (hpos : pos.toNat ≤ a.bytes.length) :
    readArchiveEntryAt a pos = entryAtOf a pos (readArchiveEntry (a.bytes.drop pos.toNat)) := by
  have hlt := a.length_lt
  have hsize := toNat_size_vector (a := a)
  have hheaderSize : (UInt64.ofNat kFileEntryHeaderSize).toNat = 24 := rfl
  have hpos₁ : (pos + UInt64.ofNat kFileEntryHeaderSize).toNat = pos.toNat + 24 :=
    toNat_add_of_le hpos hlt (by rw [hheaderSize]; omega)
  have hleft : (a.bytes.drop pos.toNat).length = a.bytes.length - pos.toNat := List.length_drop
  unfold readArchiveEntryAt readArchiveEntry
  by_cases hshort : (a.bytes.drop pos.toNat).length < kFileEntryHeaderSize
  · have hwide : pos + UInt64.ofNat kFileEntryHeaderSize > a.size := by
      rw [gt_iff_lt, UInt64.lt_iff_toNat_lt, hpos₁, hsize]
      rw [kFileEntryHeaderSize] at hshort
      omega
    rw [if_pos hwide, if_pos hshort]
    rfl
  rw [kFileEntryHeaderSize] at hshort
  have hwide : ¬pos + UInt64.ofNat kFileEntryHeaderSize > a.size := by
    rw [gt_iff_lt, UInt64.lt_iff_toNat_lt, hpos₁, hsize]
    omega
  have hshort' : ¬(a.bytes.drop pos.toNat).length < kFileEntryHeaderSize := hshort
  rw [if_neg hwide, if_neg hshort', fetch_ok (by rw [kFileEntryHeaderSize]; omega)]
  simp only [bind, Except.bind, ofBytes_take]
  obtain ⟨header, hheader⟩ : ∃ header, FileEntryHeader.ofBytes (a.bytes.drop pos.toNat) = header :=
    ⟨_, rfl⟩
  obtain ⟨rest, hrest⟩ : ∃ rest, (a.bytes.drop pos.toNat).drop kFileEntryHeaderSize = rest :=
    ⟨_, rfl⟩
  have hrestDrop : rest = a.bytes.drop (pos.toNat + 24) := by
    rw [← hrest, List.drop_drop]
    rfl
  have hrestLength : rest.length = a.bytes.length - (pos.toNat + 24) := by
    rw [hrestDrop, List.length_drop]
  simp only [hheader, hrest]
  by_cases hend : header.nameLength = kArchiveEndMarker
  · simp only [hend, if_true, entryAtOf]
    rw [hrestLength]
    congr 2
    apply UInt64.toNat.inj
    rw [hpos₁, UInt64.toNat_ofNat']
    omega
  by_cases hzero : header.nameLength = 0
  · simp only [hzero, if_true, entryAtOf]
    have hne : ¬(0 : UInt16) = kArchiveEndMarker := by decide
    simp [hne]
  have hname : header.nameLength.toUInt64.toNat = header.nameLength.toNat := by simp
  have hnameLt := header.nameLength.toNat_lt
  have hpos₂ : (pos + UInt64.ofNat kFileEntryHeaderSize + header.nameLength.toUInt64).toNat
      = pos.toNat + 24 + header.nameLength.toNat := by
    rw [toNat_add_of_le (n := a.bytes.length) (by omega) hlt (by omega), hpos₁, hname]
  simp only [hend, hzero, if_false]
  by_cases hlong : rest.length < header.nameLength.toNat
  · have hwide₂ : pos + UInt64.ofNat kFileEntryHeaderSize + header.nameLength.toUInt64 > a.size := by
      rw [gt_iff_lt, UInt64.lt_iff_toNat_lt, hpos₂, hsize]
      omega
    simp only [hlong, hwide₂, if_true, entryAtOf]
  have hwide₂ : ¬pos + UInt64.ofNat kFileEntryHeaderSize + header.nameLength.toUInt64 > a.size := by
    rw [gt_iff_lt, UInt64.lt_iff_toNat_lt, hpos₂, hsize]
    omega
  have hinside : pos.toNat + 24 + header.nameLength.toNat ≤ a.bytes.length := by omega
  simp only [hlong, hwide₂, if_false, hpos₁, isValidUtf8At_eq hinside, ← hrestDrop]
  cases isValidUtf8 (rest.take header.nameLength.toNat) with
  | false => rfl
  | true =>
    simp only [Bool.not_true, Bool.false_eq_true, if_false]
    have hfetch : a.fetch (pos.toNat + 24) header.nameLength.toNat
        = .ok (rest.take header.nameLength.toNat) := by
      rw [fetch_ok hinside, hrestDrop]
    unfold readNameAt
    simp only [bind, Except.bind, hpos₁, hfetch]
    cases isValidArchivePath (rest.take header.nameLength.toNat) with
    | false => rfl
    | true =>
      simp only [Bool.not_true, Bool.false_eq_true, if_false, List.length_drop]
      have hroom : (a.size - (pos + UInt64.ofNat kFileEntryHeaderSize +
          header.nameLength.toUInt64)).toNat = rest.length - header.nameLength.toNat := by
        rw [UInt64.toNat_sub_of_le, hsize, hpos₂]
        · omega
        · rw [UInt64.le_iff_toNat_le, hpos₂, hsize]
          omega
      have hover : header.size > a.size - (pos + UInt64.ofNat kFileEntryHeaderSize +
          header.nameLength.toUInt64) ↔ header.size.toNat > rest.length - header.nameLength.toNat := by
        rw [gt_iff_lt, UInt64.lt_iff_toNat_lt, hroom]
      by_cases hlarge : header.size.toNat > rest.length - header.nameLength.toNat
      · simp only [hover, hlarge, if_true, entryAtOf]
      · simp only [hover, hlarge, if_false, entryAtOf]
        congr 3
        split
        · apply UInt64.toNat.inj
          rw [toNat_add_of_le (n := a.bytes.length) (by omega) hlt (by omega), hpos₂,
            UInt64.toNat_ofNat', List.length_drop, List.length_drop]
          omega
        · apply UInt64.toNat.inj
          rw [hpos₂, UInt64.toNat_ofNat', List.length_drop]
          omega

/-- What the reader takes is at the front of what is left. -/
theorem readArchiveEntry_bounds {l rest : Data} {o : Option ArchiveEntry}
    (h : readArchiveEntry l = .ok (o, rest)) :
    rest.length + kFileEntryHeaderSize ≤ l.length ∧ rest <:+ l ∧ ∀ entry ∈ o,
      kFileEntryHeaderSize + entry.header.nameLength.toNat + entry.header.size.toNat ≤ l.length ∧
        entry.data = (l.drop (kFileEntryHeaderSize + entry.header.nameLength.toNat)).take
          entry.header.size.toNat := by
  unfold readArchiveEntry at h
  by_cases hshort : l.length < kFileEntryHeaderSize
  · rw [if_pos hshort] at h
    cases h
  rw [if_neg hshort] at h
  simp only at h
  obtain ⟨header, hheader⟩ : ∃ header, FileEntryHeader.ofBytes l = header := ⟨_, rfl⟩
  rw [hheader] at h
  by_cases hend : header.nameLength = kArchiveEndMarker
  · rw [if_pos hend] at h
    obtain ⟨rfl, rfl⟩ := Prod.mk.inj (Except.ok.inj h)
    refine ⟨by rw [List.length_drop]; omega, List.drop_suffix _ _, ?_⟩
    intro entry hentry
    cases hentry
  rw [if_neg hend] at h
  split at h
  · cases h
  split at h
  · cases h
  rename_i hlong
  rw [List.length_drop] at hlong
  split at h
  · cases h
  split at h
  · cases h
  split at h
  · cases h
  rename_i hlarge
  rw [List.length_drop, List.length_drop] at hlarge
  obtain ⟨rfl, rfl⟩ := Prod.mk.inj (Except.ok.inj h)
  have hname : (l.drop kFileEntryHeaderSize).drop header.nameLength.toNat <:+ l :=
    (List.drop_suffix _ _).trans (List.drop_suffix _ _)
  refine ⟨?_, ?_, ?_⟩
  · split
    · rw [List.length_drop, List.length_drop, List.length_drop]
      omega
    · rw [List.length_drop, List.length_drop]
      omega
  · split
    · exact (List.drop_suffix _ _).trans hname
    · exact hname
  · intro entry hentry
    rw [← Option.some.inj hentry]
    refine ⟨by dsimp only; omega, ?_⟩
    dsimp only
    rw [List.drop_drop]

/-- A read at the position stays in the array and moves on. -/
structure ReadsInside (a : ByteVector) (pos : UInt64) : Prop where
  noFault : readArchiveEntryAt a pos ≠ .error .outOfRange
  advances : ∀ o pos', readArchiveEntryAt a pos = .ok (o, pos') →
    pos.toNat < pos'.toNat ∧ pos'.toNat ≤ a.bytes.length
  dataInside : ∀ entry pos', readArchiveEntryAt a pos = .ok (some entry, pos') →
    entry.dataAt.toNat + entry.header.size.toNat ≤ a.bytes.length

theorem entryAtOf_ne_fault {pos : UInt64} {r : Except Win32Error (Option ArchiveEntry × Data)}
    {fault : ReadError} (h : ∀ e, fault ≠ .status e) : entryAtOf a pos r ≠ .error fault := by
  intro heq
  rcases r with e | ⟨_ | entry, rest⟩
  · exact h e (Except.error.inj heq).symm
  · cases heq
  · cases heq

theorem readsInside {pos : UInt64} (hpos : pos.toNat ≤ a.bytes.length) : ReadsInside a pos := by
  have hlt := a.length_lt
  have hread := readArchiveEntryAt_eq hpos
  refine ⟨?_, ?_, ?_⟩
  · rw [hread]
    apply entryAtOf_ne_fault
    intro e heq
    cases heq
  · intro o pos' h
    rw [hread] at h
    rcases hlist : readArchiveEntry (a.bytes.drop pos.toNat) with e | ⟨o', rest⟩
    · rw [hlist] at h
      cases h
    · obtain ⟨hbound, _⟩ := readArchiveEntry_bounds hlist
      rw [List.length_drop, kFileEntryHeaderSize] at hbound
      have hpos' : pos' = UInt64.ofNat (a.bytes.length - rest.length) := by
        rw [hlist] at h
        cases o' with
        | none => exact (Prod.mk.inj (Except.ok.inj h)).2.symm
        | some entry => exact (Prod.mk.inj (Except.ok.inj h)).2.symm
      rw [hpos', UInt64.toNat_ofNat']
      omega
  · intro entry pos' h
    rw [hread] at h
    rcases hlist : readArchiveEntry (a.bytes.drop pos.toNat) with e | ⟨o', rest⟩
    · rw [hlist] at h
      cases h
    · rw [hlist] at h
      cases o' with
      | none => cases h
      | some entry' =>
        obtain ⟨_, _, hentry⟩ := readArchiveEntry_bounds hlist
        obtain ⟨hbound, _⟩ := hentry entry' rfl
        rw [List.length_drop, kFileEntryHeaderSize] at hbound
        have hentryEq := Option.some.inj (Prod.mk.inj (Except.ok.inj h)).1
        have hheaderSize : (UInt64.ofNat kFileEntryHeaderSize).toNat = 24 := rfl
        have hname : entry'.header.nameLength.toUInt64.toNat = entry'.header.nameLength.toNat := by
          simp
        have hpos₁ : (pos + UInt64.ofNat kFileEntryHeaderSize).toNat = pos.toNat + 24 :=
          toNat_add_of_le hpos hlt (by rw [hheaderSize]; omega)
        rw [← hentryEq]
        dsimp only
        rw [toNat_add_of_le (n := a.bytes.length) (by omega) hlt (by omega), hpos₁, hname]
        omega

end Reader

/-! ## Runs of the loop -/

section Runs

variable {σ : Type} {turn : σ → FileEntryHeader → WideString → Turn σ} {a : ByteVector} {s₀ s : σ}
  {pos : UInt64}

/-- The position at the head of the loop never passes the end of the array. -/
theorem AtHead.inside (h : AtHead turn a s₀ pos s) : pos.toNat ≤ a.bytes.length := by
  induction h with
  | start => exact Nat.zero_le _
  | next _ hread _ ih => exact ((readsInside ih).advances _ _ hread).2

/-- The data of an entry is inside the array, so a turn fails only with a status. -/
theorem consumeAt_cases (turn : σ → FileEntryHeader → WideString → Turn σ) (s : σ)
    {entry : EntryAt}
    (hdata : entry.dataAt.toNat + entry.header.size.toNat ≤ a.bytes.length) :
    (∃ s', consumeAt turn a s entry = .ok s') ∨
      ∃ e, consumeAt turn a s entry = .error (.status e) := by
  unfold consumeAt
  cases turn s entry.header entry.name with
  | next s' => exact Or.inl ⟨s', rfl⟩
  | stop e => exact Or.inr ⟨e, rfl⟩
  | write f =>
    rw [fetch_ok hdata]
    simp only [bind, Except.bind]
    cases f ((a.bytes.drop entry.dataAt.toNat).take entry.header.size.toNat) with
    | ok s' => exact Or.inl ⟨s', rfl⟩
    | error e => exact Or.inr ⟨e, rfl⟩

/-- From the head of the loop a run ends at an end marker or with a status. -/
theorem extractArchiveAt_ends (h : AtHead turn a s₀ pos s) {turns : Nat}
    (hturns : a.bytes.length < turns + pos.toNat) :
    (∃ pos' s' after, AtHead turn a s₀ pos' s' ∧ readArchiveEntryAt a pos' = .ok (none, after) ∧
      extractArchiveAt turn a turns pos s = .ok s') ∨
      ∃ e, extractArchiveAt turn a turns pos s = .error (.status e) := by
  induction turns generalizing pos s with
  | zero =>
    have hinside := h.inside
    omega
  | succ turns ih =>
    have hreads := readsInside h.inside
    rw [extractArchiveAt]
    rcases hread : readArchiveEntryAt a pos with e | ⟨_ | entry, pos'⟩
    · right
      cases e with
      | outOfRange => exact absurd hread hreads.noFault
      | outOfTurns =>
        rw [readArchiveEntryAt_eq h.inside] at hread
        exact absurd hread (entryAtOf_ne_fault fun e heq => by cases heq)
      | status e => exact ⟨e, rfl⟩
    · left
      exact ⟨pos, s, pos', h, hread, rfl⟩
    · obtain ⟨hmoved, _⟩ := hreads.advances _ _ hread
      rcases consumeAt_cases turn s (hreads.dataInside _ _ hread)
        with ⟨s', hconsume⟩ | ⟨e, hconsume⟩
      · simp only [hconsume, bind, Except.bind]
        exact ih (h.next hread hconsume) (by omega)
      · right
        exact ⟨e, by simp only [hconsume, bind, Except.bind]⟩

/-- The reader is safe on every array and in every run of the loop: no access is outside the
array, the data of every entry is inside it, every entry moves the position on, the position
stays inside, and the loop ends at an end marker or with a status. -/
theorem extractArchiveAt_safe (turn : σ → FileEntryHeader → WideString → Turn σ) (a : ByteVector)
    (s₀ : σ) :
    (∀ pos s, AtHead turn a s₀ pos s → pos.toNat ≤ a.bytes.length ∧ ReadsInside a pos) ∧
      ((∃ pos s after, AtHead turn a s₀ pos s ∧ readArchiveEntryAt a pos = .ok (none, after) ∧
        extractArchiveAt turn a (a.bytes.length + 1) 0 s₀ = .ok s) ∨
        ∃ e, extractArchiveAt turn a (a.bytes.length + 1) 0 s₀ = .error (.status e)) := by
  constructor
  · intro pos s h
    exact ⟨h.inside, readsInside h.inside⟩
  · apply extractArchiveAt_ends AtHead.start
    show a.bytes.length < a.bytes.length + 1 + 0
    omega

end Runs

/-! ## The loop on a tree -/

section Host

variable {H : Host} {a : ByteVector} {u : Unpacked H} {pos : UInt64}

/-- One turn of `ExtractArchive` on a tree. -/
def hostTurn (u : Unpacked H) (header : FileEntryHeader) (name : WideString) : Turn (Unpacked H) :=
  if unpackSkipsEntry u.tree name then .next u
  else if header.isDirectory ≠ 0 then
    .next { u with tree := u.tree.createDirectories (pathOf name) }
  else .write fun data => extractEntry u ⟨header, name, data⟩

theorem consumeAt_hostTurn {entry : EntryAt} {data : Data}
    (hdata : a.fetch entry.dataAt.toNat entry.header.size.toNat = .ok data) :
    consumeAt hostTurn a u entry
      = (extractEntry u ⟨entry.header, entry.name, data⟩).mapError .status := by
  unfold consumeAt hostTurn
  by_cases hskip : unpackSkipsEntry u.tree entry.name = true
  · simp [hskip, extractEntry, Except.mapError]
  · by_cases hdir : entry.header.isDirectory ≠ 0
    · simp [hskip, hdir, extractEntry, Except.mapError]
    · simp only [hskip, hdir, if_false, Bool.false_eq_true, hdata, bind, Except.bind]
      cases extractEntry u ⟨entry.header, entry.name, data⟩ with
      | ok u' => rfl
      | error e => rfl

theorem extractArchiveFrom_eq (hpos : pos.toNat ≤ a.bytes.length) {turns : Nat}
    (hturns : a.bytes.length < turns + pos.toNat) :
    extractArchiveAt hostTurn a turns pos u
      = (extractArchiveFrom turns (a.bytes.drop pos.toNat) u).mapError .status := by
  induction turns generalizing pos u with
  | zero => omega
  | succ turns ih =>
    have hreads := readsInside hpos
    have hread := readArchiveEntryAt_eq hpos
    rw [extractArchiveAt, extractArchiveFrom]
    rcases hlist : readArchiveEntry (a.bytes.drop pos.toNat) with e | ⟨_ | entry, rest⟩
    · rw [hread, hlist]
      rfl
    · rw [hread, hlist]
      rfl
    · obtain ⟨hbound, hsuffix, hentry⟩ := readArchiveEntry_bounds hlist
      obtain ⟨_, hdata⟩ := hentry entry rfl
      rw [hlist] at hread
      have hread' : readArchiveEntryAt a pos = .ok (some ⟨entry.header, entry.name,
          pos + UInt64.ofNat kFileEntryHeaderSize + entry.header.nameLength.toUInt64⟩,
          UInt64.ofNat (a.bytes.length - rest.length)) := hread
      obtain ⟨hmoved, hinside⟩ := hreads.advances _ _ hread'
      have hfetch : a.fetch
          (pos + UInt64.ofNat kFileEntryHeaderSize + entry.header.nameLength.toUInt64).toNat
          entry.header.size.toNat = .ok entry.data := by
        have hlt := a.length_lt
        have hname : entry.header.nameLength.toUInt64.toNat = entry.header.nameLength.toNat := by
          simp
        have hnameLt := entry.header.nameLength.toNat_lt
        have hheaderSize : (UInt64.ofNat kFileEntryHeaderSize).toNat = 24 := rfl
        have hpos₁ : (pos + UInt64.ofNat kFileEntryHeaderSize).toNat = pos.toNat + 24 :=
          toNat_add_of_le hpos hlt (by rw [hheaderSize]; omega)
        have hpos₂ : (pos + UInt64.ofNat kFileEntryHeaderSize +
            entry.header.nameLength.toUInt64).toNat
              = pos.toNat + 24 + entry.header.nameLength.toNat := by
          rw [List.length_drop, kFileEntryHeaderSize] at hbound
          rw [toNat_add_of_le (n := a.bytes.length) (by omega) hlt (by omega), hpos₁, hname]
        rw [fetch_ok (hreads.dataInside _ _ hread'), hdata, hpos₂, List.drop_drop,
          kFileEntryHeaderSize, Nat.add_assoc]
      have hrest : rest = a.bytes.drop (UInt64.ofNat (a.bytes.length - rest.length)).toNat := by
        have hlt := a.length_lt
        have hlength := hsuffix.length_le
        rw [List.length_drop] at hlength
        have hdrop := List.suffix_iff_eq_drop.mp (hsuffix.trans (List.drop_suffix _ _))
        rw [UInt64.toNat_ofNat', Nat.mod_eq_of_lt (by omega)]
        exact hdrop
      rw [hread']
      simp only
      rw [consumeAt_hostTurn hfetch]
      cases extractEntry u ⟨entry.header, entry.name, entry.data⟩ with
      | error e => rfl
      | ok u' =>
        have hnext := ih (u := u') hinside (by omega)
        rw [← hrest] at hnext
        exact hnext

/-- The loop by positions does what `extractArchive` does. -/
theorem extractArchive_eq_at (a : ByteVector) (target : HostDir H) :
    extractArchiveAt hostTurn a (a.bytes.length + 1) 0 ⟨target, []⟩
      = (extractArchive a.bytes target).mapError .status := by
  apply extractArchiveFrom_eq
  · exact Nat.zero_le _
  · show a.bytes.length < a.bytes.length + 1 + 0
    omega

end Host

end LayerMount
