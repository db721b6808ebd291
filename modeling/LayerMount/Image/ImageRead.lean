import Mathlib.Data.List.Nodup
import LayerMount.Image.LayerImageManager

/-!
# Reading a written image

`getImageInfo` and `extractImage` on the bytes that `writeImageFile` wrote, where Zstd and
the JSON library undo what they did (`Codec.Undoes`): the metadata comes back
(`getImageInfo_written`), and an unpack is an unpack of the archive, which has to be at most
4 GiB long (`extractImage_written`).
-/

namespace LayerMount

open Lib

namespace LayerImage

/-! ## The header -/

theorem LayerImageHeader.length_bytes {h : LayerImageHeader} (hmagic : h.magic.length = 8)
    (hsum : h.checksum.length = 32) (hreserved : h.reserved.length = 48) :
    h.bytes.length = kLayerImageHeaderSize := by
  simp [bytes, hmagic, hsum, hreserved, kLayerImageHeaderSize]

/-- A header reads back. -/
theorem LayerImageHeader.ofBytes_bytes {h : LayerImageHeader} (hmagic : h.magic.length = 8)
    (hsum : h.checksum.length = 32) (hreserved : h.reserved.length = 48) (rest : Data) :
    ofBytes (h.bytes ++ rest) = h := by
  obtain ⟨magic, version, flags, metadataOffset, metadataSize, dataOffset, dataSize, checksum,
    reserved⟩ := h
  simp only at hmagic hsum hreserved
  have hversion := field_leBytes magic rfl (show version.toNat < 256 ^ 4 from version.toNat_lt)
  have hflags := field_leBytes (magic ++ leBytes 4 version.toNat) rfl
    (show flags.toNat < 256 ^ 4 from flags.toNat_lt)
  have hmetaOffset := field_leBytes (magic ++ leBytes 4 version.toNat ++ leBytes 4 flags.toNat) rfl
    (show metadataOffset.toNat < 256 ^ 8 from metadataOffset.toNat_lt)
  have hmetaSize := field_leBytes (magic ++ leBytes 4 version.toNat ++ leBytes 4 flags.toNat ++
      leBytes 8 metadataOffset.toNat) rfl
    (show metadataSize.toNat < 256 ^ 8 from metadataSize.toNat_lt)
  have hdataOffset := field_leBytes (magic ++ leBytes 4 version.toNat ++ leBytes 4 flags.toNat ++
      leBytes 8 metadataOffset.toNat ++ leBytes 8 metadataSize.toNat) rfl
    (show dataOffset.toNat < 256 ^ 8 from dataOffset.toNat_lt)
  have hdataSize := field_leBytes (magic ++ leBytes 4 version.toNat ++ leBytes 4 flags.toNat ++
      leBytes 8 metadataOffset.toNat ++ leBytes 8 metadataSize.toNat ++
      leBytes 8 dataOffset.toNat) rfl
    (show dataSize.toNat < 256 ^ 8 from dataSize.toNat_lt)
  simp only [List.append_assoc, List.length_append, length_leBytes, hmagic, Nat.reduceAdd]
    at hversion hflags hmetaOffset hmetaSize hdataOffset hdataSize
  have hmagic' : ∀ tail : Data, (magic ++ tail).take 8 = magic := fun tail =>
    List.take_left' hmagic
  have hsplit : ∀ tail : Data, magic ++ (leBytes 4 version.toNat ++ (leBytes 4 flags.toNat ++
      (leBytes 8 metadataOffset.toNat ++ (leBytes 8 metadataSize.toNat ++
      (leBytes 8 dataOffset.toNat ++ (leBytes 8 dataSize.toNat ++ tail))))))
      = (magic ++ leBytes 4 version.toNat ++ leBytes 4 flags.toNat ++
      leBytes 8 metadataOffset.toNat ++ leBytes 8 metadataSize.toNat ++
      leBytes 8 dataOffset.toNat ++ leBytes 8 dataSize.toNat) ++ tail := by
    intro tail
    simp [List.append_assoc]
  have hchecksum : ∀ tail : Data, ((magic ++ (leBytes 4 version.toNat ++ (leBytes 4 flags.toNat ++
      (leBytes 8 metadataOffset.toNat ++ (leBytes 8 metadataSize.toNat ++
      (leBytes 8 dataOffset.toNat ++ (leBytes 8 dataSize.toNat ++
      (checksum ++ tail)))))))).drop 48).take 32 = checksum := by
    intro tail
    rw [hsplit, List.drop_left' (by simp [hmagic]), List.take_left' hsum]
  have hres : ∀ tail : Data, ((magic ++ (leBytes 4 version.toNat ++ (leBytes 4 flags.toNat ++
      (leBytes 8 metadataOffset.toNat ++ (leBytes 8 metadataSize.toNat ++
      (leBytes 8 dataOffset.toNat ++ (leBytes 8 dataSize.toNat ++
      (checksum ++ (reserved ++ tail))))))))).drop 80).take 48 = reserved := by
    intro tail
    rw [hsplit, ← List.append_assoc, List.drop_left' (by simp [hmagic, hsum]),
      List.take_left' hreserved]
  simp [ofBytes, bytes, List.append_assoc, hversion, hflags, hmetaOffset, hmetaSize, hdataOffset,
    hdataSize, hmagic', hchecksum, hres]

/-! ## The metadata -/

/-- What comes back of a text. -/
def readBack (text : WideString) : WideString := utf8ToWide (wideToUtf8 text)

/-- What comes back of the metadata. -/
def readBackMetadata (m : LayerMetadata) : LayerMetadata :=
  { m with
    id := readBack m.id
    parentId := if m.parentId.isEmpty then [] else readBack m.parentId
    createdAt := readBack m.createdAt
    author := readBack m.author
    description := readBack m.description
    tags := m.tags.map readBack
    whiteouts := m.whiteouts.map readBack
    labels := jsonToLabels (some (.object (labelsToJson m.labels))) }

@[simp] theorem fieldOf_setField_self (key : Utf8String) (v : Json)
    (fields : List (Utf8String × Json)) :
    fieldOf (.object (Json.setField key v fields)) key = some v := by
  simp [fieldOf]

theorem fieldOf_setField_ne {key key' : Utf8String} (h : key' ≠ key) (v : Json)
    (fields : List (Utf8String × Json)) :
    fieldOf (.object (Json.setField key v fields)) key' = fieldOf (.object fields) key' := by
  simp [fieldOf, Json.find_setField_ne h]

/-- The fields of a JSON object are set in the way of an ordered map. -/
theorem setField_eq_setKey (key : Utf8String) (v : Json) (fields : List (Utf8String × Json)) :
    Json.setField key v fields = setKey key v fields := by
  induction fields with
  | nil => rfl
  | cons f rest ih => simp only [Json.setField, setKey, ih]

theorem jsonToTexts_textsToJson (texts : List WideString) :
    jsonToTexts (some (textsToJson texts)) = texts.map readBack := by
  simp only [textsToJson, jsonToTexts, List.filterMap_map]
  rw [← List.filterMap_eq_map]
  rfl

theorem stringToCompressionType_toString (c : CompressionType) :
    stringToCompressionType (compressionTypeToString c) = c := by
  cases c with
  | none => exact if_neg (jsonKey_ne (by decide))
  | zstd => exact if_pos rfl

theorem jsonToMetadata_metadataToJson (m : LayerMetadata) :
    jsonToMetadata (metadataToJson m) = some (readBackMetadata m) := by
  unfold jsonToMetadata jsonToParentId metadataToJson
  simp (disch := (apply jsonKey_ne; decide)) only [value_setField_self, value_setField_ne,
    fieldOf_setField_self, fieldOf_setField_ne, Json.getUInt64, Json.getString,
    jsonToTexts_textsToJson, Option.bind_eq_bind, Option.bind_some, Option.pure_def]
  by_cases hparent : m.parentId.isEmpty = true
  · simp [hparent, readBackMetadata, readBack, stringToCompressionType_toString]
  · simp [hparent, readBackMetadata, readBack, stringToCompressionType_toString]

/-- The texts of the metadata are well formed and can be counted in `int`. -/
structure LayerMetadata.TextsOk (m : LayerMetadata) : Prop where
  id : WellFormedUtf16 m.id ∧ FitsInt m.id
  parentId : WellFormedUtf16 m.parentId ∧ FitsInt m.parentId
  createdAt : WellFormedUtf16 m.createdAt ∧ FitsInt m.createdAt
  author : WellFormedUtf16 m.author ∧ FitsInt m.author
  description : WellFormedUtf16 m.description ∧ FitsInt m.description
  tags : ∀ t ∈ m.tags, WellFormedUtf16 t ∧ FitsInt t
  whiteouts : ∀ w ∈ m.whiteouts, WellFormedUtf16 w ∧ FitsInt w
  labels : ∀ l ∈ m.labels.entries,
    (WellFormedUtf16 l.1 ∧ FitsInt l.1) ∧ WellFormedUtf16 l.2 ∧ FitsInt l.2

theorem readBack_eq {text : WideString} (h : WellFormedUtf16 text ∧ FitsInt text) :
    readBack text = text :=
  utf8ToWide_of_wellFormed h.1 h.2

theorem map_readBack {texts : List WideString} (h : ∀ t ∈ texts, WellFormedUtf16 t ∧ FitsInt t) :
    texts.map readBack = texts := by
  rw [List.map_congr_left (f := readBack) (g := id) fun t ht => readBack_eq (h t ht), List.map_id]

/-- A label as a field of the JSON object. -/
def labelField (l : WideString × WideString) : Utf8String × Json :=
  (wideToUtf8 l.1, .string (wideToUtf8 l.2))

theorem labelsToJson_eq_setAll (labels : SortedMap WideString WideString) :
    labelsToJson labels
      = (SortedMap.empty.setAll (labels.entries.map labelField)
          : SortedMap Utf8String Json).entries := by
  have hfold : ∀ (es : List (WideString × WideString)) (m : SortedMap Utf8String Json),
      es.foldl (fun fields l => Json.setField (wideToUtf8 l.1) (.string (wideToUtf8 l.2)) fields)
        m.entries = (m.setAll (es.map labelField)).entries := by
    intro es
    induction es with
    | nil => intro m; rfl
    | cons e es ih =>
      intro m
      rw [List.foldl_cons, setField_eq_setKey]
      exact ih (m.set (wideToUtf8 e.1) (.string (wideToUtf8 e.2)))
  exact hfold labels.entries SortedMap.empty

theorem labelsToJson_perm {labels : SortedMap WideString WideString}
    (h : (labels.entries.map fun l => wideToUtf8 l.1).Nodup) :
    (labelsToJson labels).Perm (labels.entries.map labelField) := by
  rw [labelsToJson_eq_setAll]
  apply SortedMap.setAll_perm (m := SortedMap.empty)
  rw [SortedMap.empty, List.nil_append, List.map_map]
  exact h

/-- A field of the JSON object as a label. -/
def fieldLabel (f : Utf8String × Json) : WideString × WideString :=
  (utf8ToWide f.1, utf8ToWide (f.2.getString.getD []))

theorem jsonToLabels_eq_setAll {fields : List (Utf8String × Json)}
    (h : ∀ f ∈ fields, ∃ l, f = labelField l) :
    jsonToLabels (some (.object fields)) = SortedMap.empty.setAll (fields.map fieldLabel) := by
  rw [jsonToLabels]
  generalize (SortedMap.empty : SortedMap WideString WideString) = m
  induction fields generalizing m with
  | nil => rfl
  | cons f rest ih =>
    obtain ⟨l, rfl⟩ := h f (by simp)
    rw [List.foldl_cons, List.map_cons]
    exact ih (fun g hg => h g (List.mem_cons_of_mem _ hg)) _

/-- The labels come back, though the two maps order their keys in different ways. -/
theorem jsonToLabels_labelsToJson {labels : SortedMap WideString WideString}
    (h : ∀ l ∈ labels.entries,
      (WellFormedUtf16 l.1 ∧ FitsInt l.1) ∧ WellFormedUtf16 l.2 ∧ FitsInt l.2) :
    jsonToLabels (some (.object (labelsToJson labels))) = labels := by
  have hback : (labels.entries.map labelField).map fieldLabel = labels.entries := by
    rw [List.map_map, List.map_congr_left (f := fieldLabel ∘ labelField) (g := id), List.map_id]
    intro l hl
    obtain ⟨hkey, hvalue⟩ := h l hl
    exact Prod.ext (readBack_eq hkey) (readBack_eq hvalue)
  have hkeys : (labels.entries.map fun l => wideToUtf8 l.1).Nodup := by
    have hmap : (labels.entries.map fun l => wideToUtf8 l.1).map utf8ToWide
        = labels.entries.map Prod.fst := by
      rw [List.map_map]
      apply List.map_congr_left
      intro l hl
      exact readBack_eq (h l hl).1
    apply List.Nodup.of_map utf8ToWide
    rw [hmap]
    exact labels.nodup_keys
  have hperm := labelsToJson_perm hkeys
  have hfields : ∀ f ∈ labelsToJson labels, ∃ l, f = labelField l := by
    intro f hf
    obtain ⟨l, _, rfl⟩ := List.mem_map.mp (hperm.mem_iff.mp hf)
    exact ⟨l, rfl⟩
  have hlabels : ((labelsToJson labels).map fieldLabel).Perm labels.entries := by
    have hmap := hperm.map fieldLabel
    rwa [hback] at hmap
  rw [jsonToLabels_eq_setAll hfields]
  apply SortedMap.eq_of_perm
  have hall := SortedMap.setAll_perm (m := SortedMap.empty) (l := (labelsToJson labels).map fieldLabel)
    ((hlabels.map Prod.fst).nodup_iff.mpr labels.nodup_keys)
  exact hall.trans hlabels

theorem readBackMetadata_eq {m : LayerMetadata} (h : m.TextsOk) : readBackMetadata m = m := by
  unfold readBackMetadata
  rw [readBack_eq h.id, readBack_eq h.createdAt, readBack_eq h.author, readBack_eq h.description,
    map_readBack h.tags, map_readBack h.whiteouts, jsonToLabels_labelsToJson h.labels]
  have hparent : (if m.parentId.isEmpty then [] else readBack m.parentId) = m.parentId := by
    split
    · rename_i hempty
      exact (List.isEmpty_iff.mp hempty).symm
    · exact readBack_eq h.parentId
  rw [hparent]

/-! ## The whole file -/

/-- Zstd gives back the archive and its length, and the JSON library the metadata. -/
structure Undoes (k : Codec) (level : Int) (archive : Data) (m : LayerMetadata) : Prop where
  size : ∀ c, k.compress level archive = some c →
    ∃ frameSize, k.frameContentSize c = some frameSize ∧ frameSize.toNat = archive.length
  zstd : ∀ c, k.compress level archive = some c → k.decompress c archive.length = some archive
  json : k.parse (k.dump (metadataToJson m)) = some (metadataToJson m)
  /-- The text of a document does not end in a NUL. -/
  text : (k.dump (metadataToJson m)).getLast? ≠ some 0

section Written

variable {k : Codec} {level : Int} {archive image : Data} {m m' : LayerMetadata}

theorem rdropWhile_nul {text : Utf8String} (h : text.getLast? ≠ some 0) :
    (text ++ [0]).rdropWhile (· = 0) = text := by
  rw [List.rdropWhile_concat_pos _ _ _ (by decide), List.rdropWhile_eq_self_iff]
  intro hne hlast
  rw [decide_eq_true_eq] at hlast
  apply h
  rw [List.getLast?_eq_getLast_of_ne_nil hne, hlast]

/-- The header of a written image, by the text of its metadata and its data section. -/
def writtenHeader (k : Codec) (metadataJson compressed : Data) : LayerImageHeader where
  flags := CompressionType.zstd.toUInt32
  metadataOffset := UInt64.ofNat kLayerImageHeaderSize
  metadataSize := UInt64.ofNat metadataJson.length
  dataOffset := UInt64.ofNat (kLayerImageHeaderSize + metadataJson.length)
  dataSize := UInt64.ofNat compressed.length
  checksum := k.sha256 compressed

theorem writeImageFile_ok (h : writeImageFile k level m archive = .ok (image, m')) :
    ∃ compressed, k.compress level archive = some compressed ∧
      m' = { m with
        compression := .zstd
        uncompressedSize := UInt64.ofNat archive.length
        compressedSize := UInt64.ofNat compressed.length } ∧
      image = (writtenHeader k (k.dump (metadataToJson m') ++ [0]) compressed).bytes ++
        ((k.dump (metadataToJson m') ++ [0]) ++ compressed) ∧
      image.length < 2 ^ 63 := by
  unfold writeImageFile at h
  split at h
  · cases h
  · rename_i compressed hcompress
    simp only at h
    split at h
    · rename_i hlength
      obtain ⟨rfl, rfl⟩ := Prod.mk.inj (Except.ok.inj h)
      exact ⟨compressed, hcompress, rfl, rfl, hlength⟩
    · cases h

/-- An image is written where its archive is compressed and the file is not too long. -/
theorem writeImageFile_of_compress {compressed : Data}
    (hcompress : k.compress level archive = some compressed) (m : LayerMetadata)
    (hlength : ∀ j, (k.dump j ++ [0]).length + compressed.length < 2 ^ 62) :
    ∃ image, writeImageFile k level m archive
      = .ok (image, { m with
        compression := .zstd
        uncompressedSize := UInt64.ofNat archive.length
        compressedSize := UInt64.ofNat compressed.length }) := by
  obtain ⟨m', hm'⟩ : ∃ m' : LayerMetadata, m' = { m with
      compression := .zstd
      uncompressedSize := UInt64.ofNat archive.length
      compressedSize := UInt64.ofNat compressed.length } := ⟨_, rfl⟩
  have hheader : (writtenHeader k (k.dump (metadataToJson m') ++ [0]) compressed).bytes.length = 128 :=
    LayerImageHeader.length_bytes rfl (k.length_sha256 compressed) rfl
  have hfile : ((writtenHeader k (k.dump (metadataToJson m') ++ [0]) compressed).bytes ++
      ((k.dump (metadataToJson m') ++ [0]) ++ compressed)).length < 2 ^ 63 := by
    have hjson := hlength (metadataToJson m')
    rw [List.length_append, List.length_append, hheader]
    omega
  unfold writeImageFile
  simp only [hcompress, ← hm']
  exact ⟨_, if_pos hfile⟩

theorem readSection_middle {before part after : Data} {offset size : UInt64}
    (hoffset : offset.toNat = before.length) (hsize : size.toNat = part.length)
    (hlength : before.length < 2 ^ 63) :
    readSection (before ++ (part ++ after)) offset size = .ok part := by
  unfold readSection
  rw [if_neg (by omega)]
  simp only [hoffset, List.drop_left, hsize, List.take_left, ne_eq, not_true_eq_false, if_false]

theorem toNat_ofNat_of_lt {n : Nat} (h : n < 2 ^ 63) : (UInt64.ofNat n).toNat = n := by
  rw [UInt64.toNat_ofNat']
  omega

/-- The reader finds the three parts of a written image. -/
theorem readHeaderAndMetadata_written (h : writeImageFile k level m archive = .ok (image, m'))
    (hu : Undoes k level archive m') :
    ∃ header compressed, k.compress level archive = some compressed ∧
      readHeaderAndMetadata k image = .ok (header, readBackMetadata m') ∧
      readSection image header.dataOffset header.dataSize = .ok compressed ∧
      k.sha256 compressed = header.checksum := by
  obtain ⟨compressed, hcompress, -, himage, hlength⟩ := writeImageFile_ok h
  obtain ⟨json, hjson⟩ : ∃ json, k.dump (metadataToJson m') ++ [0] = json := ⟨_, rfl⟩
  rw [hjson] at himage
  have hheader : (writtenHeader k json compressed).bytes.length = 128 :=
    LayerImageHeader.length_bytes rfl (k.length_sha256 compressed) rfl
  have hparts : image.length = 128 + (json.length + compressed.length) := by
    rw [himage, List.length_append, List.length_append, hheader]
  have hread : LayerImageHeader.ofBytes image = writtenHeader k json compressed := by
    rw [himage]
    exact LayerImageHeader.ofBytes_bytes rfl (k.length_sha256 compressed) rfl _
  have hmetaOffset : (writtenHeader k json compressed).metadataOffset.toNat = 128 := rfl
  have hmetaSize : (writtenHeader k json compressed).metadataSize.toNat = json.length :=
    toNat_ofNat_of_lt (by omega)
  have hdataOffset : (writtenHeader k json compressed).dataOffset.toNat = 128 + json.length :=
    toNat_ofNat_of_lt (by rw [kLayerImageHeaderSize]; omega)
  have hdataSize : (writtenHeader k json compressed).dataSize.toNat = compressed.length :=
    toNat_ofNat_of_lt (by omega)
  have hmetadata : readSection image (writtenHeader k json compressed).metadataOffset
      (writtenHeader k json compressed).metadataSize = .ok json := by
    rw [himage]
    exact readSection_middle (by rw [hmetaOffset, hheader]) hmetaSize (by omega)
  have hdata : readSection image (writtenHeader k json compressed).dataOffset
      (writtenHeader k json compressed).dataSize = .ok compressed := by
    have hsplit : image
        = ((writtenHeader k json compressed).bytes ++ json) ++ (compressed ++ []) := by
      rw [himage, List.append_nil, List.append_assoc]
    rw [hsplit]
    apply readSection_middle _ hdataSize
    · rw [List.length_append]
      omega
    · rw [hdataOffset, List.length_append, hheader]
  have hdeserialize : deserializeMetadata k (json.rdropWhile (· = 0)) = .ok (readBackMetadata m') := by
    rw [← hjson, rdropWhile_nul hu.text, deserializeMetadata, hu.json, Option.bind_some,
      jsonToMetadata_metadataToJson]
  refine ⟨writtenHeader k json compressed, compressed, hcompress, ?_, hdata, rfl⟩
  have hlong : ¬image.length < 128 := by omega
  have hafter : ¬(writtenHeader k json compressed).dataOffset
      < (writtenHeader k json compressed).metadataOffset +
        (writtenHeader k json compressed).metadataSize := by
    rw [UInt64.lt_iff_toNat_lt, UInt64.toNat_add, hdataOffset, hmetaOffset, hmetaSize]
    omega
  have hmetaWrap : ¬(writtenHeader k json compressed).metadataOffset +
        (writtenHeader k json compressed).metadataSize
      < (writtenHeader k json compressed).metadataOffset := by
    rw [UInt64.lt_iff_toNat_lt, UInt64.toNat_add, hmetaOffset, hmetaSize]
    omega
  have hdataWrap : ¬(writtenHeader k json compressed).dataOffset +
        (writtenHeader k json compressed).dataSize
      < (writtenHeader k json compressed).dataOffset := by
    rw [UInt64.lt_iff_toNat_lt, UInt64.toNat_add, hdataOffset, hdataSize]
    omega
  have hmagic : (writtenHeader k json compressed).magic = kLayerImageMagic := rfl
  have hversion : ¬(writtenHeader k json compressed).version > kLayerImageVersion :=
    show ¬kLayerImageVersion > kLayerImageVersion by decide
  unfold readHeaderAndMetadata
  simp only [hread, hlong, if_false, hmagic, ne_eq, not_true_eq_false, hversion, hmetaOffset,
    kLayerImageHeaderSize, Nat.lt_irrefl, hafter, hmetaWrap, hdataWrap, hmetadata]
  simp only [bind, Except.bind, hdeserialize, pure, Except.pure]

/-- The metadata of a written image comes back. -/
theorem getImageInfo_written (h : writeImageFile k level m archive = .ok (image, m'))
    (hu : Undoes k level archive m') :
    ∃ header, getImageInfo k image = .ok (header, readBackMetadata m') := by
  obtain ⟨header, _, _, hread, _⟩ := readHeaderAndMetadata_written h hu
  exact ⟨header, hread⟩

theorem decompressBuffer_compressed {compressed : Data} (hu : Undoes k level archive m')
    (hcompress : k.compress level archive = some compressed) :
    decompressBuffer k compressed
      = if archive.length > kMaxDecompressedBytes then .error .invalidData else .ok archive := by
  obtain ⟨frameSize, hframe, hsize⟩ := hu.size compressed hcompress
  simp only [decompressBuffer, hframe, hsize, hu.zstd compressed hcompress, ne_eq,
    not_true_eq_false, if_false]

variable {H : Host}

/-- What an unpack reads of an image: the archive, and the whiteouts of the metadata. -/
def imageContent (k : Codec) (image : Data) (verifyChecksum : Bool) :
    Except Win32Error (Data × List WideString) := do
  let (header, metadata) ← readHeaderAndMetadata k image
  if verifyChecksum then
    let hashed ← readSection image header.dataOffset header.dataSize
    if k.sha256 hashed ≠ header.checksum then throw .crc
  let compressed ← readSection image header.dataOffset header.dataSize
  let archive ← decompressBuffer k compressed
  pure (archive, metadata.whiteouts)

/-- The content of a written image, with or without a check of the checksum. -/
theorem imageContent_written (h : writeImageFile k level m archive = .ok (image, m'))
    (hu : Undoes k level archive m') (verifyChecksum : Bool) :
    imageContent k image verifyChecksum
      = if archive.length > kMaxDecompressedBytes then .error .invalidData
        else .ok (archive, (readBackMetadata m').whiteouts) := by
  obtain ⟨header, compressed, hcompress, hread, hdata, hsum⟩ := readHeaderAndMetadata_written h hu
  have hdecompress := decompressBuffer_compressed hu hcompress
  have hlast : (readSection image header.dataOffset header.dataSize >>= fun compressed =>
      decompressBuffer k compressed >>= fun archive => pure (archive, (readBackMetadata m').whiteouts))
      = if archive.length > kMaxDecompressedBytes then .error .invalidData
        else .ok (archive, (readBackMetadata m').whiteouts) := by
    simp only [hdata, bind, Except.bind, hdecompress]
    by_cases hlarge : archive.length > kMaxDecompressedBytes
    · simp only [hlarge, if_true]
    · simp only [hlarge, if_false, pure, Except.pure]
  unfold imageContent
  rw [← hlast, hread]
  cases verifyChecksum with
  | false => rfl
  | true =>
    simp only [bind, Except.bind, if_true, hdata, hsum, ne_eq, not_true_eq_false, if_false]

/-- An unpack reads the image and then writes its content. -/
theorem extractImage_eq (k : Codec) (image : Data) (target : HostDir H) (verifyChecksum : Bool) :
    extractImage k image target verifyChecksum
      = imageContent k image verifyChecksum >>= fun content =>
          extractArchive content.1 target >>= materializeMetadataWhiteouts content.2 := by
  unfold extractImage imageContent
  cases readHeaderAndMetadata k image with
  | error e => rfl
  | ok read =>
    simp only [bind, Except.bind]
    cases hdata : readSection image read.1.dataOffset read.1.dataSize with
    | error e => cases verifyChecksum <;> rfl
    | ok compressed =>
      -- The check of the checksum comes first, then the decompression.
      cases hdecompress : decompressBuffer k compressed with
      | error e =>
        cases verifyChecksum with
        | false => simp [hdecompress]
        | true =>
          by_cases hsum : k.sha256 compressed = read.1.checksum
          · simp [hsum, hdecompress]
          · simp [hsum, throw, throwThe, MonadExceptOf.throw]
      | ok archive =>
        cases verifyChecksum with
        | false => simp [hdecompress, pure, Except.pure]
        | true =>
          by_cases hsum : k.sha256 compressed = read.1.checksum
          · simp [hsum, hdecompress, pure, Except.pure]
          · simp [hsum, throw, throwThe, MonadExceptOf.throw]

/-- An unpack of a written image is an unpack of its archive. -/
theorem extractImage_written (h : writeImageFile k level m archive = .ok (image, m'))
    (hu : Undoes k level archive m') (target : HostDir H) (verifyChecksum : Bool) :
    extractImage k image target verifyChecksum
      = if archive.length > kMaxDecompressedBytes then .error .invalidData
        else extractArchive archive target >>= fun u =>
          materializeMetadataWhiteouts (readBackMetadata m').whiteouts u := by
  rw [extractImage_eq, imageContent_written h hu]
  split
  · rfl
  · rfl

end Written

end LayerImage

end LayerMount
