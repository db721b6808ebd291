import LayerMount.Lib.Json
import LayerMount.WideText

/-!
# The two metadata stores

`MetadataStore.cpp` and `SidecarMetadata.cpp`: the record of an entry is in its
`:overlay` stream or in a JSON file of the sidecar directory.  A write goes to the one
that the host's ADS capability picks, a read looks into both, and a remove cleans both.

What a write leaves behind in the other store is what decides a later read.  The read
gives the last write exactly when the other store has no record that goes first
(`read_after_write_or_remove`).

The host is a parameter: SHA-1, `CharLowerBuffW`, and the JSON library under `vendor/`.
The temporary file of a sidecar write is not kept in the state, because no read opens it.
-/

namespace LayerMount

open Lib

/-! ## The record -/

structure FileTime where
  low : UInt32 := 0
  high : UInt32 := 0
  deriving DecidableEq, Repr

def fileTimeToUint64 (ft : FileTime) : UInt64 := ft.high.toUInt64 <<< 32 ||| ft.low.toUInt64

def uint64ToFileTime (val : UInt64) : FileTime where
  low := (val &&& 0xFFFFFFFF).toUInt32
  high := (val >>> 32).toUInt32

structure LayerMountMetadata where
  opaqueFlag : Bool := false
  metacopy : Bool := false
  redirect : WideString := []
  copyUpTimestamp : FileTime := {}
  originLayer : WideString := []
  hasStableIndexNumber : Bool := false
  stableIndexNumber : UInt64 := 0
  deriving DecidableEq, Repr

/-- The text of a key as the program writes it. -/
def jsonKey (text : String) : Utf8String := encodeUtf8 text.toList

def metadataToJson (m : LayerMountMetadata) : Json :=
  .object <|
    Json.setField (jsonKey "stableIndexNumber") (.number m.stableIndexNumber) <|
    Json.setField (jsonKey "hasStableIndexNumber") (.bool m.hasStableIndexNumber) <|
    Json.setField (jsonKey "originLayer") (.string (wideToUtf8 m.originLayer)) <|
    Json.setField (jsonKey "copyUpTimestamp") (.number (fileTimeToUint64 m.copyUpTimestamp)) <|
    Json.setField (jsonKey "redirect") (.string (wideToUtf8 m.redirect)) <|
    Json.setField (jsonKey "metacopy") (.bool m.metacopy) <|
    Json.setField (jsonKey "opaque") (.bool m.opaqueFlag) []

/-- `JsonToMetadata`, with `none` for an exception of the JSON library. -/
def jsonToMetadata (j : Json) : Option LayerMountMetadata := do
  let opaqueFlag ← j.value Json.getBool (jsonKey "opaque") false
  let metacopy ← j.value Json.getBool (jsonKey "metacopy") false
  let redirect ← j.value Json.getString (jsonKey "redirect") []
  let copyUpTimestamp ← j.value Json.getUInt64 (jsonKey "copyUpTimestamp") 0
  let originLayer ← j.value Json.getString (jsonKey "originLayer") []
  let hasStableIndexNumber ← j.value Json.getBool (jsonKey "hasStableIndexNumber") false
  let stableIndexNumber ← j.value Json.getUInt64 (jsonKey "stableIndexNumber") 0
  pure
    { opaqueFlag, metacopy
      redirect := utf8ToWide redirect
      copyUpTimestamp := uint64ToFileTime copyUpTimestamp
      originLayer := utf8ToWide originLayer
      hasStableIndexNumber, stableIndexNumber }

def isDefaultMetadata (m : LayerMountMetadata) : Bool :=
  !m.opaqueFlag && !m.metacopy && m.redirect.isEmpty && m.copyUpTimestamp.low = 0 &&
    m.copyUpTimestamp.high = 0 && m.originLayer.isEmpty && !m.hasStableIndexNumber &&
    m.stableIndexNumber = 0

/-! ## The host -/

/-- The code outside the stores that they call. -/
structure StoreHost where
  /-- `nlohmann::json::dump`. -/
  dump : Json → List UInt8
  /-- `nlohmann::json::parse`, with `none` for an exception. -/
  parse : List UInt8 → Option Json
  /-- `CharLowerBuffW`. -/
  charLower : WideString → WideString
  /-- `Sha1Hex`, with `none` for the empty text that a BCrypt failure gives. -/
  sha1Hex : List UInt8 → Option WideString

/-- What a stream or a file name of the host has.  `unreadable` is one whose open or
read fails with another error than a missing one. -/
inductive Stored where
  | absent
  | unreadable
  | bytes (content : List UInt8)
  deriving DecidableEq, Repr

structure MetadataStores where
  /-- The `:overlay` stream of each entry. -/
  stream : WideString → Stored
  /-- The files of the sidecar directory. -/
  file : WideString → Stored

namespace MetadataStores

def setStream (stores : MetadataStores) (filePath : WideString) (s : Stored) : MetadataStores :=
  { stores with stream := Function.update stores.stream filePath s }

def setFile (stores : MetadataStores) (path : WideString) (s : Stored) : MetadataStores :=
  { stores with file := Function.update stores.file path s }

end MetadataStores

/-- The parts of `LayerConfig` that the stores read. -/
structure StoreConfig where
  upperPath : WideString
  /-- `Capabilities().HasAds()`. -/
  hasAds : Bool
  deriving DecidableEq, Repr

/-- What the host answers to the calls of one write or remove. -/
structure HostAnswers where
  createsDirectory : Bool
  opens : Bool
  /-- `WriteFile` returns nonzero, and how many bytes are then in the file. -/
  writes : Bool
  written : Nat
  moves : Bool
  /-- `DeleteFileW` of the stream succeeds, or finds none. -/
  deletesStream : Bool
  /-- `DeleteFileW` of the sidecar file succeeds, or finds none. -/
  deletesFile : Bool
  deriving DecidableEq, Repr

def useSidecarFor : Option StoreConfig → Bool
  | none => false
  | some config => !config.hasAds

section Stores

variable (host : StoreHost)

/-- The last part of both reads: the bytes as a record, and whether they are corrupt. -/
def parseRecord (content : List UInt8) : LayerMountMetadata × Bool :=
  if content.length = 0 then ({}, false)
  else if content.length > 0xFFFFFFFF then ({}, true)
  else
    match host.parse content with
    | none => ({}, true)
    | some j =>
      match jsonToMetadata j with
      | none => ({}, true)
      | some m => (m, false)

/-- `ReadAdsOnly`, and whether it found the stream corrupted. -/
def readAdsOnly (stores : MetadataStores) (filePath : WideString) : LayerMountMetadata × Bool :=
  match stores.stream filePath with
  | .absent => ({}, false)
  | .unreadable => ({}, true)
  | .bytes content => parseRecord host content

/-- The number of bytes a `DWORD` can ask for. -/
def asDword (n : Nat) : Nat := n % 2 ^ 32

/-- `WriteFile` of a whole text into a file that is open and empty. -/
def writeFile (answers : HostAnswers) (text : List UInt8) : Bool × List UInt8 :=
  (answers.writes && answers.written == asDword text.length,
    text.take (min answers.written (asDword text.length)))

/-- The text of a record. -/
def recordText (metadata : LayerMountMetadata) : List UInt8 := host.dump (metadataToJson metadata)

def writeAdsOnly (answers : HostAnswers) (stores : MetadataStores) (filePath : WideString)
    (metadata : LayerMountMetadata) : Bool × MetadataStores :=
  if !answers.opens then (false, stores)
  else
    let (ok, content) := writeFile answers (recordText host metadata)
    (ok, stores.setStream filePath (.bytes content))

def removeAdsOnly (answers : HostAnswers) (stores : MetadataStores) (filePath : WideString) :
    Bool × MetadataStores :=
  if answers.deletesStream then
    (true, stores.setStream filePath .absent)
  else (false, stores)

/-! ## The sidecar -/

def kMetaSuffix : WideString := encodeUtf16 ".meta.json".toList

def sidecarDirectory (upperRoot : WideString) : WideString :=
  upperRoot ++ encodeUtf16 "\\.overlay".toList

def sidecarBaseOf (upperRoot entryPath : WideString) : Option WideString :=
  (host.sha1Hex (wideToUtf8 (host.charLower entryPath))).map fun hash =>
    sidecarDirectory upperRoot ++ encodeUtf16 "\\".toList ++ hash

/-- `FileOf` with `kMetaSuffix`. -/
def sidecarFileOf (upperRoot entryPath : WideString) : Option WideString :=
  (sidecarBaseOf host upperRoot entryPath).map fun base => base ++ kMetaSuffix

/-- `SidecarMetadata::Read`. -/
def sidecarRead (stores : MetadataStores) (upperRoot filePath : WideString) : LayerMountMetadata :=
  match sidecarFileOf host upperRoot filePath with
  | none => {}
  | some path =>
    match stores.file path with
    | .absent => {}
    | .unreadable => {}
    | .bytes content => (parseRecord host content).1

/-- `SidecarMetadata::Write`: the move of the temporary file puts the whole text in place. -/
def sidecarWrite (answers : HostAnswers) (stores : MetadataStores)
    (upperRoot filePath : WideString) (metadata : LayerMountMetadata) : Bool × MetadataStores :=
  if !answers.createsDirectory then (false, stores)
  else
    match sidecarFileOf host upperRoot filePath with
    | none => (false, stores)
    | some path =>
      if !answers.opens then (false, stores)
      else
        let (ok, content) := writeFile answers (recordText host metadata)
        if !ok || !answers.moves then (false, stores)
        else (true, stores.setFile path (.bytes content))

/-- `SidecarMetadata::Remove`. -/
def sidecarRemove (answers : HostAnswers) (stores : MetadataStores)
    (upperRoot filePath : WideString) : Bool × MetadataStores :=
  match sidecarFileOf host upperRoot filePath with
  | none => (true, stores)
  | some path =>
    if answers.deletesFile then
      (true, stores.setFile path .absent)
    else (false, stores)

/-! ## The dispatcher -/

def readLayerMountMetadata (stores : MetadataStores) (filePath : WideString)
    (config : Option StoreConfig) : LayerMountMetadata :=
  let (fromAds, adsCorrupted) := readAdsOnly host stores filePath
  if adsCorrupted && !useSidecarFor config then fromAds
  else
    match config with
    | none => fromAds
    | some config =>
      if !isDefaultMetadata fromAds then fromAds
      else sidecarRead host stores config.upperPath filePath

def writeLayerMountMetadata (answers : HostAnswers) (stores : MetadataStores)
    (filePath : WideString) (metadata : LayerMountMetadata) (config : Option StoreConfig) :
    Bool × MetadataStores :=
  match config with
  | some config =>
    if !config.hasAds then sidecarWrite host answers stores config.upperPath filePath metadata
    else writeAdsOnly host answers stores filePath metadata
  | none => writeAdsOnly host answers stores filePath metadata

def removeLayerMountMetadata (answers : HostAnswers) (stores : MetadataStores)
    (filePath : WideString) (config : Option StoreConfig) : Bool × MetadataStores :=
  let (adsOk, stores) := removeAdsOnly answers stores filePath
  match config with
  | none => (adsOk, stores)
  | some config =>
    let (sidecarOk, stores) := sidecarRemove host answers stores config.upperPath filePath
    (adsOk && sidecarOk, stores)

end Stores

/-! ## A record through a store -/

theorem fileTimeToUint64_toNat (ft : FileTime) :
    (fileTimeToUint64 ft).toNat = ft.high.toNat * 4294967296 + ft.low.toNat := by
  have hlow := ft.low.toNat_lt
  have hhigh := ft.high.toNat_lt
  have hor := Nat.two_pow_add_eq_or_of_lt (i := 32) (b := ft.low.toNat) (by omega) ft.high.toNat
  unfold fileTimeToUint64
  rw [UInt64.toNat_or, UInt64.toNat_shiftLeft, UInt32.toNat_toUInt64, UInt32.toNat_toUInt64,
    Nat.shiftLeft_eq]
  simp only [UInt64.toNat_ofNat, Nat.reducePow, Nat.reduceMod] at hor ⊢
  rw [Nat.mod_eq_of_lt (by omega), Nat.mul_comm, ← hor, Nat.mul_comm]

theorem uint64ToFileTime_fileTimeToUint64 (ft : FileTime) :
    uint64ToFileTime (fileTimeToUint64 ft) = ft := by
  have hval := fileTimeToUint64_toNat ft
  have hlow := ft.low.toNat_lt
  have hhigh := ft.high.toNat_lt
  have hmask : (fileTimeToUint64 ft).toNat &&& 4294967295 = (fileTimeToUint64 ft).toNat % 2 ^ 32 :=
    Nat.and_two_pow_sub_one_eq_mod _ 32
  obtain ⟨low, high⟩ := ft
  unfold uint64ToFileTime
  congr 1
  · apply UInt32.toNat_inj.mp
    rw [UInt64.toNat_toUInt32, UInt64.toNat_and]
    simp only [UInt64.toNat_ofNat, Nat.reducePow, Nat.reduceMod] at hmask hlow hhigh hval ⊢
    rw [hmask, hval]
    omega
  · apply UInt32.toNat_inj.mp
    rw [UInt64.toNat_toUInt32, UInt64.toNat_shiftRight, Nat.shiftRight_eq_div_pow]
    simp only [UInt64.toNat_ofNat, Nat.reducePow, Nat.reduceMod] at hlow hhigh hval ⊢
    rw [hval]
    omega

/-- The texts of a record are well formed and can be counted in `int`. -/
structure LayerMountMetadata.TextsOk (m : LayerMountMetadata) : Prop where
  redirect : WellFormedUtf16 m.redirect
  originLayer : WellFormedUtf16 m.originLayer
  redirectFits : FitsInt m.redirect
  originLayerFits : FitsInt m.originLayer

theorem value_setField_self {α : Type} (read : Json → Option α) (key : Utf8String) (v : Json)
    (fields : List (Utf8String × Json)) (dflt : α) :
    (Json.object (Json.setField key v fields)).value read key dflt = read v := by
  simp [Json.value]

theorem value_setField_ne {α : Type} (read : Json → Option α) {key key' : Utf8String}
    (h : key' ≠ key) (v : Json) (fields : List (Utf8String × Json)) (dflt : α) :
    (Json.object (Json.setField key v fields)).value read key' dflt
      = (Json.object fields).value read key' dflt := by
  simp [Json.value, Json.find_setField_ne h]

theorem jsonKey_ne {a b : String} (h : a ≠ b) : jsonKey a ≠ jsonKey b := by
  intro heq
  exact h (String.toList_inj.mp (encodeUtf8_injective heq))

theorem jsonToMetadata_metadataToJson {m : LayerMountMetadata} (h : m.TextsOk) :
    jsonToMetadata (metadataToJson m) = some m := by
  unfold jsonToMetadata metadataToJson
  simp (disch := exact jsonKey_ne (by simp)) only [value_setField_self, value_setField_ne, Json.getBool,
    Json.getUInt64, Json.getString]
  simp [utf8ToWide_of_wellFormed h.redirect h.redirectFits,
    utf8ToWide_of_wellFormed h.originLayer h.originLayerFits, uint64ToFileTime_fileTimeToUint64]

theorem isDefaultMetadata_iff {m : LayerMountMetadata} : isDefaultMetadata m = true ↔ m = {} := by
  constructor
  · intro h
    simp only [isDefaultMetadata, Bool.and_eq_true, Bool.not_eq_true', decide_eq_true_eq,
      List.isEmpty_iff] at h
    obtain ⟨⟨⟨⟨⟨⟨⟨h1, h2⟩, h3⟩, h4⟩, h5⟩, h6⟩, h7⟩, h8⟩ := h
    obtain ⟨opaqueFlag, metacopy, redirect, ⟨low, high⟩, originLayer, hasStable, stable⟩ := m
    simp_all
  · rintro rfl
    rfl

variable {host : StoreHost} {answers : HostAnswers} {stores : MetadataStores}
  {filePath : WideString} {m : LayerMountMetadata}

/-- The JSON library gives back the record's document, and no document is empty. -/
structure StoreHost.Undoes (host : StoreHost) (m : LayerMountMetadata) : Prop where
  parse_dump : host.parse (recordText host m) = some (metadataToJson m)
  parse_nil : host.parse [] = none

/-- The text of the record has a length that a `DWORD` can hold. -/
def StoreHost.Holds (host : StoreHost) (m : LayerMountMetadata) : Prop :=
  (recordText host m).length ≤ 0xFFFFFFFF

theorem parseRecord_dump (hm : m.TextsOk) (hjson : host.Undoes m) (hsize : host.Holds m) :
    parseRecord host (recordText host m) = (m, false) := by
  have hne : ¬(recordText host m).length = 0 := by
    intro hlen
    have hparse := hjson.parse_dump
    rw [List.eq_nil_of_length_eq_zero hlen, hjson.parse_nil] at hparse
    cases hparse
  have hle : ¬(recordText host m).length > 0xFFFFFFFF := Nat.not_lt.mpr hsize
  simp only [parseRecord, if_neg hne, if_neg hle, hjson.parse_dump,
    jsonToMetadata_metadataToJson hm]

theorem writeFile_whole {text : List UInt8} (hsize : text.length ≤ 0xFFFFFFFF)
    (h : (writeFile answers text).1 = true) : (writeFile answers text).2 = text := by
  have hdword : asDword text.length = text.length := Nat.mod_eq_of_lt (by omega)
  simp only [writeFile, hdword, Bool.and_eq_true, beq_iff_eq] at h ⊢
  rw [h.2, Nat.min_self, List.take_length]

theorem writeAdsOnly_ok (hsize : host.Holds m)
    (h : (writeAdsOnly host answers stores filePath m).1 = true) :
    (writeAdsOnly host answers stores filePath m).2 =
      stores.setStream filePath (.bytes (recordText host m)) := by
  unfold writeAdsOnly at h ⊢
  split at h
  · cases h
  · rename_i hopen
    rw [if_neg hopen]
    simp only [writeFile_whole hsize h]

theorem sidecarWrite_ok {upperRoot : WideString} (hsize : host.Holds m)
    (h : (sidecarWrite host answers stores upperRoot filePath m).1 = true) :
    ∃ path, sidecarFileOf host upperRoot filePath = some path ∧
      (sidecarWrite host answers stores upperRoot filePath m).2 =
        stores.setFile path (.bytes (recordText host m)) := by
  unfold sidecarWrite at h ⊢
  split at h
  · cases h
  rename_i hdir
  rw [if_neg hdir]
  cases hfile : sidecarFileOf host upperRoot filePath with
  | none => rw [hfile] at h; cases h
  | some path =>
    rw [hfile] at h
    refine ⟨path, rfl, ?_⟩
    dsimp only at h ⊢
    split at h
    · cases h
    rename_i hopen
    rw [if_neg hopen]
    split at h
    · cases h
    rename_i hmove
    rw [if_neg hmove]
    have hok : (writeFile answers (recordText host m)).1 = true := by
      cases hw : (writeFile answers (recordText host m)).1 with
      | true => rfl
      | false => simp [hw] at hmove
    rw [writeFile_whole hsize hok]

/-! ## Reads after writes and removes -/

/-- The other store has no record that a read prefers to the one just written. -/
def WriteWins (host : StoreHost) (stores : MetadataStores) (filePath : WideString)
    (m : LayerMountMetadata) : Option StoreConfig → Prop
  | none => True
  | some config =>
    if config.hasAds then m ≠ {} ∨ sidecarRead host stores config.upperPath filePath = {}
    else (readAdsOnly host stores filePath).1 = {} ∨ (readAdsOnly host stores filePath).1 = m

theorem read_after_adsWrite (hm : m.TextsOk) (hjson : host.Undoes m) (hsize : host.Holds m)
    (config : Option StoreConfig) :
    readLayerMountMetadata host (stores.setStream filePath (.bytes (recordText host m)))
        filePath config
      = match config with
        | none => m
        | some config =>
          if m ≠ {} then m else sidecarRead host stores config.upperPath filePath := by
  have hads : readAdsOnly host (stores.setStream filePath (.bytes (recordText host m))) filePath
      = (m, false) := by
    simp only [readAdsOnly, MetadataStores.setStream, Function.update_self]
    exact parseRecord_dump hm hjson hsize
  unfold readLayerMountMetadata
  rw [hads]
  cases config with
  | none => rfl
  | some config =>
    simp only [Bool.false_and, Bool.false_eq_true, if_false]
    by_cases hdef : m = {}
    · have hd := isDefaultMetadata_iff.mpr hdef
      rw [hd]
      simp only [hdef, ne_eq, not_true_eq_false, if_false, Bool.not_true, Bool.false_eq_true]
      rfl
    · have hd : isDefaultMetadata m = false := by
        rw [← Bool.not_eq_true, isDefaultMetadata_iff]
        exact hdef
      rw [hd]
      simp only [hdef, ne_eq, not_false_eq_true, if_true, Bool.not_false]

theorem read_after_sidecarWrite (hm : m.TextsOk) (hjson : host.Undoes m) (hsize : host.Holds m)
    {config : StoreConfig} (hads : config.hasAds = false) {path : WideString}
    (hfile : sidecarFileOf host config.upperPath filePath = some path) :
    readLayerMountMetadata host (stores.setFile path (.bytes (recordText host m)))
        filePath (some config)
      = if (readAdsOnly host stores filePath).1 = {} then m
        else (readAdsOnly host stores filePath).1 := by
  have hsame : readAdsOnly host (stores.setFile path (.bytes (recordText host m))) filePath
      = readAdsOnly host stores filePath := rfl
  have hside : sidecarRead host (stores.setFile path (.bytes (recordText host m)))
      config.upperPath filePath = m := by
    simp only [sidecarRead, hfile, MetadataStores.setFile, Function.update_self,
      parseRecord_dump hm hjson hsize]
  unfold readLayerMountMetadata
  rw [hsame]
  simp only [useSidecarFor, hads, Bool.not_false, Bool.not_true, Bool.and_false,
    Bool.false_eq_true, if_false, hside]
  by_cases hdef : (readAdsOnly host stores filePath).1 = {}
  · rw [if_pos hdef, if_neg (by simp [isDefaultMetadata_iff.mpr hdef])]
  · rw [if_neg hdef, if_pos]
    rw [Bool.not_eq_true', ← Bool.not_eq_true, isDefaultMetadata_iff]
    exact hdef

theorem read_after_write (hm : m.TextsOk) (hjson : host.Undoes m) (hsize : host.Holds m)
    (config : Option StoreConfig)
    (h : (writeLayerMountMetadata host answers stores filePath m config).1 = true) :
    readLayerMountMetadata host (writeLayerMountMetadata host answers stores filePath m config).2
        filePath config = m ↔ WriteWins host stores filePath m config := by
  cases config with
  | none =>
    simp only [writeLayerMountMetadata] at h ⊢
    rw [writeAdsOnly_ok hsize h, read_after_adsWrite hm hjson hsize]
    simp [WriteWins]
  | some config =>
    cases hads : config.hasAds with
    | true =>
      simp only [writeLayerMountMetadata, hads, Bool.not_true, Bool.false_eq_true, if_false] at h ⊢
      rw [writeAdsOnly_ok hsize h, read_after_adsWrite hm hjson hsize]
      simp only [WriteWins, hads, if_true]
      by_cases hdef : m = {}
      · simp [hdef]
      · simp [hdef]
    | false =>
      simp only [writeLayerMountMetadata, hads, Bool.not_false, if_true] at h ⊢
      obtain ⟨path, hfile, hstores⟩ := sidecarWrite_ok hsize h
      rw [hstores, read_after_sidecarWrite hm hjson hsize hads hfile]
      simp only [WriteWins, hads, Bool.false_eq_true, if_false]
      by_cases hdef : (readAdsOnly host stores filePath).1 = {}
      · simp [hdef]
      · simp [hdef]

theorem read_after_remove (config : Option StoreConfig)
    (h : (removeLayerMountMetadata host answers stores filePath config).1 = true) :
    readLayerMountMetadata host (removeLayerMountMetadata host answers stores filePath config).2
      filePath config = {} := by
  have hstream : answers.deletesStream = true := by
    cases hd : answers.deletesStream with
    | true => rfl
    | false => cases config <;> simp [removeLayerMountMetadata, removeAdsOnly, hd] at h
  have hads : ∀ stores : MetadataStores, stores.stream filePath = .absent →
      readAdsOnly host stores filePath = ({}, false) := by
    intro stores habsent
    simp only [readAdsOnly, habsent]
  cases config with
  | none =>
    simp only [removeLayerMountMetadata, removeAdsOnly, hstream, if_true]
    rw [readLayerMountMetadata, hads _ (by simp [MetadataStores.setStream])]
    rfl
  | some config =>
    simp only [removeLayerMountMetadata, removeAdsOnly, hstream, if_true, Bool.true_and] at h ⊢
    have hdef : isDefaultMetadata {} = true := rfl
    unfold sidecarRemove at h ⊢
    cases hfile : sidecarFileOf host config.upperPath filePath with
    | none =>
      rw [readLayerMountMetadata, hads _ (by simp [MetadataStores.setStream])]
      simp [hdef, sidecarRead, hfile]
    | some path =>
      rw [hfile] at h
      cases hd : answers.deletesFile with
      | false => simp [hd] at h
      | true =>
        simp only [if_true]
        have habsent : ((stores.setStream filePath .absent).setFile path .absent).stream filePath
            = .absent := by
          simp [MetadataStores.setStream, MetadataStores.setFile]
        rw [readLayerMountMetadata, hads _ habsent]
        simp [hdef, sidecarRead, hfile, MetadataStores.setFile]

/-- A read gives the record of the last write that returned true exactly when the other
store has no record that goes first, and gives the default record after a remove that
returned true. -/
theorem read_after_write_or_remove (host : StoreHost) (answers : HostAnswers)
    (stores : MetadataStores) (filePath : WideString) (config : Option StoreConfig) :
    (∀ m : LayerMountMetadata, m.TextsOk → host.Undoes m → host.Holds m →
      (writeLayerMountMetadata host answers stores filePath m config).1 = true →
      (readLayerMountMetadata host
          (writeLayerMountMetadata host answers stores filePath m config).2 filePath config = m ↔
        WriteWins host stores filePath m config)) ∧
    ((removeLayerMountMetadata host answers stores filePath config).1 = true →
      readLayerMountMetadata host
        (removeLayerMountMetadata host answers stores filePath config).2 filePath config = {}) :=
  ⟨fun _ hm hjson hsize h => read_after_write hm hjson hsize config h,
    fun h => read_after_remove config h⟩

/-! ## A host that loses the ADS capability -/

/-- A shell's record, as it was in the stream while the host had streams. -/
def shellRecord : LayerMountMetadata := { metacopy := true }

/-- The record of the same file after its data came in. -/
def filledRecord : LayerMountMetadata := { hasStableIndexNumber := true }

def shellText : List UInt8 := encodeUtf8 <| String.toList <|
  "\x7b\"copyUpTimestamp\":0,\"hasStableIndexNumber\":false,\"metacopy\":true,\"opaque\":false," ++
    "\"originLayer\":\"\",\"redirect\":\"\",\"stableIndexNumber\":0\x7d"

def filledText : List UInt8 := encodeUtf8 <| String.toList <|
  "\x7b\"copyUpTimestamp\":0,\"hasStableIndexNumber\":true,\"metacopy\":false,\"opaque\":false," ++
    "\"originLayer\":\"\",\"redirect\":\"\",\"stableIndexNumber\":0\x7d"

theorem length_shellText : shellText.length = 134 := by decide +kernel

theorem length_filledText : filledText.length = 134 := by decide +kernel

theorem filledText_ne_shellText : filledText ≠ shellText := by decide +kernel

/-- A host on the texts of these two records. -/
def twoRecordHost : StoreHost where
  dump j := if (jsonToMetadata j) = some shellRecord then shellText else filledText
  parse text :=
    if text = shellText then some (metadataToJson shellRecord)
    else if text = filledText then some (metadataToJson filledRecord)
    else none
  charLower path := path
  sha1Hex _ := some (encodeUtf16 "da39".toList)

def everyCallSucceeds (written : Nat) : HostAnswers := ⟨true, true, true, written, true, true, true⟩

/-- The stream has the shell's record, and there is no sidecar. -/
def leftoverStream : MetadataStores where
  stream _ := .bytes shellText
  file _ := .absent

def withoutAds : StoreConfig := ⟨encodeUtf16 "c:\\upper".toList, false⟩

def fileA : WideString := encodeUtf16 "c:\\upper\\a".toList

theorem textsOk_of_empty {m : LayerMountMetadata} (hr : m.redirect = []) (ho : m.originLayer = []) :
    m.TextsOk := by
  constructor
  · rw [hr]
    rfl
  · rw [ho]
    rfl
  · rw [hr]
    exact Nat.zero_le _
  · rw [ho]
    exact Nat.zero_le _

theorem recordText_filled : recordText twoRecordHost filledRecord = filledText := by
  have hback := jsonToMetadata_metadataToJson (textsOk_of_empty (m := filledRecord) rfl rfl)
  have hne : (some filledRecord : Option LayerMountMetadata) ≠ some shellRecord := by decide
  simp only [recordText, twoRecordHost, hback, if_neg hne]

theorem undoes_filled : twoRecordHost.Undoes filledRecord where
  parse_dump := by
    rw [recordText_filled]
    simp only [twoRecordHost, if_neg filledText_ne_shellText, if_true]
  parse_nil := by
    have h1 : ([] : List UInt8) ≠ shellText := by
      intro hnil
      have hlength := length_shellText
      rw [← hnil, List.length_nil] at hlength
      omega
    have h2 : ([] : List UInt8) ≠ filledText := by
      intro hnil
      have hlength := length_filledText
      rw [← hnil, List.length_nil] at hlength
      omega
    simp only [twoRecordHost, if_neg h1, if_neg h2]

theorem holds_filled : twoRecordHost.Holds filledRecord := by
  unfold StoreHost.Holds
  rw [recordText_filled, length_filledText]
  decide

/-- A write of the text writes all of it. -/
theorem writeFile_filled :
    (writeFile (everyCallSucceeds filledText.length) filledText).1 = true := by
  simp only [writeFile, everyCallSucceeds, length_filledText]
  decide

theorem write_filled_ok : (writeLayerMountMetadata twoRecordHost
    (everyCallSucceeds filledText.length) leftoverStream fileA filledRecord (some withoutAds)).1
      = true := by
  have hfile : sidecarFileOf twoRecordHost withoutAds.upperPath fileA ≠ none := by
    simp [sidecarFileOf, sidecarBaseOf, twoRecordHost]
  obtain ⟨path, hpath⟩ := Option.ne_none_iff_exists'.mp hfile
  have hwrite : (writeFile (everyCallSucceeds filledText.length)
      (recordText twoRecordHost filledRecord)).1 = true := by
    rw [recordText_filled]
    exact writeFile_filled
  have hads : withoutAds.hasAds = false := rfl
  have hmoves : ∀ n, (everyCallSucceeds n).moves = true := fun _ => rfl
  have hdir : ∀ n, (everyCallSucceeds n).createsDirectory = true := fun _ => rfl
  have hopens : ∀ n, (everyCallSucceeds n).opens = true := fun _ => rfl
  simp only [writeLayerMountMetadata, sidecarWrite, hads, hpath, hwrite, hmoves, hdir, hopens,
    Bool.not_false, Bool.not_true, Bool.or_self, Bool.false_eq_true, if_true, if_false]

/-- The host lost the ADS capability, the write goes to the sidecar and returns true, and
the read still gives the shell's record from the stream. -/
theorem stale_stream_goes_first : filledRecord.TextsOk ∧
    (writeLayerMountMetadata twoRecordHost (everyCallSucceeds filledText.length) leftoverStream fileA
      filledRecord (some withoutAds)).1 = true ∧
    readLayerMountMetadata twoRecordHost
      (writeLayerMountMetadata twoRecordHost (everyCallSucceeds filledText.length) leftoverStream fileA
        filledRecord (some withoutAds)).2 fileA (some withoutAds) ≠ filledRecord := by
  have htexts := textsOk_of_empty (m := filledRecord) rfl rfl
  refine ⟨htexts, write_filled_ok, ?_⟩
  rw [ne_eq, read_after_write htexts undoes_filled holds_filled _ write_filled_ok]
  have hstream : (readAdsOnly twoRecordHost leftoverStream fileA).1 = shellRecord := by
    have hback := jsonToMetadata_metadataToJson (textsOk_of_empty (m := shellRecord) rfl rfl)
    have hparse : parseRecord twoRecordHost shellText = (shellRecord, false) := by
      have h1 : ¬shellText.length = 0 := by
        rw [length_shellText]
        decide
      have h2 : ¬shellText.length > 0xFFFFFFFF := by
        rw [length_shellText]
        decide
      simp only [parseRecord, if_neg h1, if_neg h2, twoRecordHost, if_true, hback]
    simp only [readAdsOnly, leftoverStream, hparse]
  simp only [WriteWins, withoutAds, Bool.false_eq_true, if_false, hstream]
  decide

def withAds : StoreConfig := ⟨encodeUtf16 "c:\\upper".toList, true⟩

/-- With streams, the record written over the shell's comes back, and after a remove the
default one. -/
theorem read_after_write_or_remove_withAds :
    readLayerMountMetadata twoRecordHost
      (writeLayerMountMetadata twoRecordHost (everyCallSucceeds filledText.length) leftoverStream fileA
        filledRecord (some withAds)).2 fileA (some withAds) = filledRecord ∧
    readLayerMountMetadata twoRecordHost
      (removeLayerMountMetadata twoRecordHost (everyCallSucceeds filledText.length) leftoverStream fileA
        (some withAds)).2 fileA (some withAds) = {} := by
  have hall := read_after_write_or_remove twoRecordHost (everyCallSucceeds filledText.length)
    leftoverStream fileA (some withAds)
  have hok : (writeLayerMountMetadata twoRecordHost (everyCallSucceeds filledText.length)
      leftoverStream fileA filledRecord (some withAds)).1 = true := by
    have hads : withAds.hasAds = true := rfl
    have hopens : ∀ n, (everyCallSucceeds n).opens = true := fun _ => rfl
    simp only [writeLayerMountMetadata, writeAdsOnly, hads, hopens, recordText_filled,
      Bool.not_true, Bool.false_eq_true, if_false]
    exact writeFile_filled
  refine ⟨?_, hall.2 rfl⟩
  apply (hall.1 filledRecord (textsOk_of_empty rfl rfl) undoes_filled holds_filled hok).mpr
  exact Or.inl (by decide)

end LayerMount
