import LayerMount.Image.UnpackItems
import LayerMount.Image.ImageRead
import LayerMount.Image.OpenedPaths

/-!
# The documented image

The image format as `LAYER-IMAGE-FORMAT.md` gives it: the header with either value of
`flags`, the metadata block, and the archive stream of entries whose paths obey the path
rules.  `ImageParts` has the parts of an image, and `Documented` is what the document says
of them; neither mentions the reader.

The reader takes the parts back (`imageContent_documented`).  It fails where a path breaks a
rule (`extractArchive_of_unreadable`), and it reads the archive as a list of items where
every path is readable.
-/

namespace LayerMount

open Lib

variable {H : Host}

namespace LayerImage

/-! ## The format document -/

/-- One entry of the archive stream. -/
structure StoredEntry where
  text : List Char
  header : FileEntryHeader
  data : Data

namespace StoredEntry

def bytes (e : StoredEntry) : Data := entryBytes e.header (encodeUtf8 e.text) e.data

def isFile (e : StoredEntry) : Bool := e.header.isDirectory = 0

/-- The names of the path.  A slash at the end separates nothing. -/
def path (e : StoredEntry) : RelPath :=
  (if e.text.getLast? = some '/' then e.text.dropLast else e.text).splitOn '/'

/-- The entry header fits the path and the data after it. -/
structure Framed (e : StoredEntry) : Prop where
  ne_nil : e.text ≠ []
  length_le : (encodeUtf8 e.text).length ≤ 0xFFFE
  size : e.header.size.toNat = e.data.length
  directory : e.header.isDirectory = 0 ∨ (e.header.isDirectory = 1 ∧ e.data = [])
  whiteout : e.header.isWhiteout = 0 ∨
    (e.header.isWhiteout = 1 ∧ e.header.isDirectory = 0 ∧ e.data = [])
  /-- The attributes of a file are not the ones of a directory. -/
  attributes : e.header.isDirectory = 0 → e.header.attributes &&& kFileAttributeDirectory = 0

end StoredEntry

/-- What makes an unpack fail on a path: a slash at its start, a colon, or a `.` or `..`
component. -/
def BreaksPathRule (text : List Char) : Prop :=
  text.head? = some '/' ∨ ':' ∈ text ∨ ['.'] ∈ text.splitOn '/' ∨ ['.', '.'] ∈ text.splitOn '/'

/-- The path rules.  A path has forward slashes only. -/
def ObeysPathRules (text : List Char) : Prop := ¬BreaksPathRule text ∧ '\\' ∉ text

instance (text : List Char) : Decidable (BreaksPathRule text) :=
  inferInstanceAs (Decidable (_ ∨ _ ∨ _ ∨ _))

instance (text : List Char) : Decidable (ObeysPathRules text) :=
  inferInstanceAs (Decidable (_ ∧ _))

/-- The text of a JSON field. -/
def HasText (fields : List (Utf8String × Json)) (key : String) : Prop :=
  ∃ s, Json.find (jsonKey key) fields = some (.string s)

def HasNumber (fields : List (Utf8String × Json)) (key : String) : Prop :=
  ∃ n, Json.find (jsonKey key) fields = some (.number n)

/-- The fields of the metadata block, with the deleted paths of a differential image. -/
structure MetadataDocument (fields : List (Utf8String × Json)) (whiteouts : List RelPath) : Prop where
  layerId : HasText fields "layerId"
  parentLayerId : HasText fields "parentLayerId" ∨
    Json.find (jsonKey "parentLayerId") fields = some .null
  createdAt : HasText fields "createdAt"
  author : HasText fields "author"
  description : HasText fields "description"
  tags : ∃ tags : List Utf8String,
    Json.find (jsonKey "tags") fields = some (.array (tags.map .string))
  compressionType : ∃ c,
    Json.find (jsonKey "compressionType") fields = some (.string (compressionTypeToString c))
  fileCount : HasNumber fields "fileCount"
  uncompressedSize : HasNumber fields "uncompressedSize"
  compressedSize : HasNumber fields "compressedSize"
  whiteouts : Json.find (jsonKey "whiteouts") fields
    = some (.array (whiteouts.map fun w => .string (encodeUtf8 (joinPath w))))
  labels : ∃ labels : List (Utf8String × Utf8String),
    Json.find (jsonKey "labels") fields
      = some (.object (labels.map fun l => (l.1, .string l.2)))

/-- The parts of an image. -/
structure ImageParts where
  version : UInt32
  flags : CompressionType
  /-- What lies between the header and the metadata block. -/
  gap : Data
  text : Utf8String
  fields : List (Utf8String × Json)
  whiteouts : List RelPath
  /-- The data section. -/
  data : Data
  entries : List StoredEntry

namespace ImageParts

variable (k : Codec) (p : ImageParts)

def archive : Data :=
  p.entries.flatMap StoredEntry.bytes ++ ({ nameLength := kArchiveEndMarker } : FileEntryHeader).bytes

def header : LayerImageHeader where
  version := p.version
  flags := p.flags.toUInt32
  metadataOffset := UInt64.ofNat (kLayerImageHeaderSize + p.gap.length)
  metadataSize := UInt64.ofNat (p.text.length + 1)
  dataOffset := UInt64.ofNat (kLayerImageHeaderSize + p.gap.length + (p.text.length + 1))
  dataSize := UInt64.ofNat p.data.length
  checksum := k.sha256 p.data

def bytes : Data := (p.header k).bytes ++ (p.gap ++ ((p.text ++ [0]) ++ p.data))

/-- The data section holds the archive: as it is where `flags` is 0, else as Zstd data. -/
def HoldsArchive : Prop :=
  match p.flags with
  | .none => p.data = p.archive
  | .zstd => k.decompress p.data p.archive.length = some p.archive

/-- The parts are those of an image by the format document. -/
structure Documented : Prop where
  version : p.version ≤ kLayerImageVersion
  length_lt : (p.bytes k).length < 2 ^ 63
  parsed : k.parse p.text = some (.object p.fields)
  /-- The text of a JSON document does not end in a NUL. -/
  text : p.text.getLast? ≠ some 0
  metadata : MetadataDocument p.fields p.whiteouts
  holdsArchive : p.HoldsArchive k
  framed : ∀ e ∈ p.entries, e.Framed
  /-- A deleted path is recorded twice. -/
  twice : ∀ w ∈ p.whiteouts, (w ≠ [] ∧ ∀ n ∈ w, ArchiveName n) ∧
    ∃ e ∈ p.entries, e.header.isWhiteout = 1 ∧ e.text = joinPath (getWhiteoutFileName w)

end ImageParts

end LayerImage

/-! ## Zstd -/

def kZstdMagic : Data := [0x28, 0xB5, 0x2F, 0xFD]

/-- What the Zstd library says of its two functions. -/
structure Codec.ZstdContract (k : Codec) : Prop where
  /-- A frame starts with the magic number.  A skippable frame has another one and no
  content. -/
  magic : ∀ data size, k.frameContentSize data = some size → kZstdMagic <+: data ∨ size = 0
  /-- The content does not depend on the room for it. -/
  content : ∀ data n n' output output', k.decompress data n = some output →
    k.decompress data n' = some output' → output = output'

namespace LayerImage

/-! ## Reading the parts -/

section Parts

theorem value_of_hasText {fields : List (Utf8String × Json)} {key : String}
    (h : HasText fields key) (default : Utf8String) :
    ∃ s, (Json.object fields).value Json.getString (jsonKey key) default = some s := by
  obtain ⟨s, hs⟩ := h
  exact ⟨s, by simp only [Json.value, hs, Json.getString]⟩

theorem value_of_hasNumber {fields : List (Utf8String × Json)} {key : String}
    (h : HasNumber fields key) (default : UInt64) :
    ∃ n, (Json.object fields).value Json.getUInt64 (jsonKey key) default = some n := by
  obtain ⟨n, hn⟩ := h
  exact ⟨n, by simp only [Json.value, hn, Json.getUInt64]⟩

theorem jsonToTexts_paths {whiteouts : List RelPath}
    (h : ∀ w ∈ whiteouts, (encodeUtf8 (joinPath w)).length ≤ kIntMax) :
    jsonToTexts (some (.array (whiteouts.map fun w => .string (encodeUtf8 (joinPath w)))))
      = whiteouts.map relativeNameOf := by
  simp only [jsonToTexts]
  induction whiteouts with
  | nil => rfl
  | cons w whiteouts ih =>
    have hw := utf8ToWide_joinPath (h w (by simp))
    have hitem : (Json.string (encodeUtf8 (joinPath w))).getString.map utf8ToWide
        = some (relativeNameOf w) := congrArg some hw
    rw [List.map_cons,
      List.filterMap_cons_some (f := fun item : Json => item.getString.map utf8ToWide) hitem,
      List.map_cons, ih fun x hx => h x (List.mem_cons_of_mem _ hx)]

/-- The metadata block is read. -/
theorem jsonToMetadata_document {fields : List (Utf8String × Json)} {whiteouts : List RelPath}
    (h : MetadataDocument fields whiteouts)
    (hlength : ∀ w ∈ whiteouts, (encodeUtf8 (joinPath w)).length ≤ kIntMax) :
    ∃ m, jsonToMetadata (.object fields) = some m ∧ m.whiteouts = whiteouts.map relativeNameOf := by
  obtain ⟨id, hid⟩ := value_of_hasText h.layerId []
  obtain ⟨created, hcreated⟩ := value_of_hasText h.createdAt []
  obtain ⟨author, hauthor⟩ := value_of_hasText h.author []
  obtain ⟨description, hdescription⟩ := value_of_hasText h.description []
  obtain ⟨count, hcount⟩ := value_of_hasNumber h.fileCount 0
  obtain ⟨size, hsize⟩ := value_of_hasNumber h.uncompressedSize 0
  obtain ⟨packed, hpacked⟩ := value_of_hasNumber h.compressedSize 0
  obtain ⟨c, hc⟩ := h.compressionType
  obtain ⟨compression, hcompression⟩ := value_of_hasText ⟨_, hc⟩ (jsonKey "none")
  have hparent : ∃ parent, jsonToParentId (.object fields) = some parent := by
    unfold jsonToParentId fieldOf
    rcases h.parentLayerId with ⟨s, hs⟩ | hnull
    · exact ⟨utf8ToWide s, by simp [hs, Json.getString]⟩
    · exact ⟨[], by simp [hnull]⟩
  obtain ⟨parent, hparent⟩ := hparent
  unfold jsonToMetadata
  simp only [hid, hparent, hcreated, hauthor, hdescription, hcompression, hcount, hsize, hpacked,
    Option.bind_eq_bind, Option.bind_some, Option.pure_def, Option.some.injEq, exists_eq_left']
  rw [fieldOf, h.whiteouts, jsonToTexts_paths hlength]

variable {k : Codec} {p : ImageParts}

theorem joinPath_le_marker {w : RelPath} (hne : w ≠ []) :
    (encodeUtf8 (joinPath w)).length ≤ (encodeUtf8 (joinPath (getWhiteoutFileName w))).length := by
  obtain ⟨d, n, rfl⟩ := (List.eq_nil_or_concat w).resolve_left hne
  rw [List.concat_eq_append, getWhiteoutFileName_append, joinPath_snoc, joinPath_snoc, whiteoutName]
  simp only [encodeUtf8_append, List.length_append]
  omega

theorem length_whiteout (h : p.Documented k) :
    ∀ w ∈ p.whiteouts, (encodeUtf8 (joinPath w)).length ≤ 0xFFFE := by
  intro w hw
  obtain ⟨⟨hne, _⟩, e, he, _, htext⟩ := h.twice w hw
  have hmarker := (h.framed e he).length_le
  rw [htext] at hmarker
  exact (joinPath_le_marker hne).trans hmarker

/-- The reader finds the metadata block and the data section of a documented image. -/
theorem readHeaderAndMetadata_documented (h : p.Documented k) :
    ∃ m, readHeaderAndMetadata k (p.bytes k) = .ok (p.header k, m) ∧
      m.whiteouts = p.whiteouts.map relativeNameOf ∧
      readSection (p.bytes k) (p.header k).dataOffset (p.header k).dataSize = .ok p.data := by
  obtain ⟨m, hm, hwhiteouts⟩ := jsonToMetadata_document h.metadata fun w hw =>
    le_kIntMax (length_whiteout h w hw)
  have hheader : (p.header k).bytes.length = 128 :=
    LayerImageHeader.length_bytes rfl (k.length_sha256 p.data) rfl
  have hlength : (p.bytes k).length
      = 128 + (p.gap.length + (p.text.length + 1 + p.data.length)) := by
    simp only [ImageParts.bytes, List.length_append, hheader, List.length_singleton]
  have hlt := h.length_lt
  have hread : LayerImageHeader.ofBytes (p.bytes k) = p.header k :=
    LayerImageHeader.ofBytes_bytes rfl (k.length_sha256 p.data) rfl _
  have hmetaOffset : (p.header k).metadataOffset.toNat = 128 + p.gap.length :=
    toNat_ofNat_of_lt (by rw [kLayerImageHeaderSize]; omega)
  have hmetaSize : (p.header k).metadataSize.toNat = p.text.length + 1 :=
    toNat_ofNat_of_lt (by omega)
  have hdataOffset : (p.header k).dataOffset.toNat = 128 + p.gap.length + (p.text.length + 1) :=
    toNat_ofNat_of_lt (by rw [kLayerImageHeaderSize]; omega)
  have hdataSize : (p.header k).dataSize.toNat = p.data.length :=
    toNat_ofNat_of_lt (by omega)
  have hmetadata : readSection (p.bytes k) (p.header k).metadataOffset (p.header k).metadataSize
      = .ok (p.text ++ [0]) := by
    have hsplit : p.bytes k = ((p.header k).bytes ++ p.gap) ++ ((p.text ++ [0]) ++ p.data) := by
      simp [ImageParts.bytes, List.append_assoc]
    rw [hsplit]
    apply readSection_middle
    · rw [hmetaOffset, List.length_append, hheader]
    · rw [hmetaSize, List.length_append, List.length_singleton]
    · rw [List.length_append]
      omega
  have hdata : readSection (p.bytes k) (p.header k).dataOffset (p.header k).dataSize
      = .ok p.data := by
    have hsplit : p.bytes k = ((p.header k).bytes ++ p.gap ++ (p.text ++ [0])) ++ (p.data ++ []) := by
      simp [ImageParts.bytes, List.append_assoc]
    rw [hsplit]
    apply readSection_middle _ hdataSize
    · simp only [List.length_append, hheader, List.length_singleton]
      omega
    · simp only [hdataOffset, List.length_append, hheader, List.length_singleton]
  refine ⟨m, ?_, hwhiteouts, hdata⟩
  have hdeserialize : deserializeMetadata k ((p.text ++ [0]).rdropWhile (· = 0)) = .ok m := by
    rw [rdropWhile_nul h.text, deserializeMetadata, h.parsed, Option.bind_some, hm]
  have hlong : ¬(p.bytes k).length < 128 := by omega
  have hbefore : ¬128 + p.gap.length < 128 := by omega
  have hafter : ¬(p.header k).dataOffset < (p.header k).metadataOffset + (p.header k).metadataSize := by
    rw [UInt64.lt_iff_toNat_lt, UInt64.toNat_add, hdataOffset, hmetaOffset, hmetaSize]
    omega
  have hmetaWrap : ¬(p.header k).metadataOffset + (p.header k).metadataSize
      < (p.header k).metadataOffset := by
    rw [UInt64.lt_iff_toNat_lt, UInt64.toNat_add, hmetaOffset, hmetaSize]
    omega
  have hdataWrap : ¬(p.header k).dataOffset + (p.header k).dataSize < (p.header k).dataOffset := by
    rw [UInt64.lt_iff_toNat_lt, UInt64.toNat_add, hdataOffset, hdataSize]
    omega
  have hmagic : (p.header k).magic = kLayerImageMagic := rfl
  have hversion : ¬(p.header k).version > kLayerImageVersion := UInt32.not_lt.mpr h.version
  unfold readHeaderAndMetadata
  simp only [hread, kLayerImageHeaderSize, hlong, if_false, hmagic, ne_eq, not_true_eq_false,
    hversion, hmetaOffset, hbefore, hafter, hmetaWrap, hdataWrap, hmetadata]
  simp only [bind, Except.bind, hdeserialize, pure, Except.pure]

/-- An unpack of a documented image decompresses its data section, whatever `flags` says. -/
theorem imageContent_documented (h : p.Documented k) (verifyChecksum : Bool) :
    imageContent k (p.bytes k) verifyChecksum
      = (decompressBuffer k p.data).map fun archive => (archive, p.whiteouts.map relativeNameOf) := by
  obtain ⟨m, hread, hwhiteouts, hdata⟩ := readHeaderAndMetadata_documented h
  have hsum : k.sha256 p.data = (p.header k).checksum := rfl
  unfold imageContent
  rw [hread, ← hwhiteouts]
  cases verifyChecksum with
  | false =>
    simp only [bind, Except.bind, Bool.false_eq_true, if_false, hdata]
    rfl
  | true =>
    simp only [bind, Except.bind, if_true, hdata, hsum, ne_eq, not_true_eq_false, if_false]
    rfl

end Parts

/-! ## Reading a path -/

/-- The reader takes the text of a path that obeys the rules: no NUL in it, no empty
component. -/
def StoredEntry.Readable (e : StoredEntry) : Prop := '\x00' ∉ e.text ∧ [] ∉ e.text.splitOn '/'

instance (e : StoredEntry) : Decidable e.Readable := inferInstanceAs (Decidable (_ ∧ _))

section Paths

variable {text : List Char}

/-- A part without separators of the finer kind is a part of the finer split. -/
theorem mem_splitOnP_of_finer {α : Type} {p q : α → Bool} (hpq : ∀ x, p x = true → q x = true)
    (xs : List α) :
    (∀ part ∈ (xs.splitOnP p).tail, (∀ x ∈ part, q x = false) → part ∈ (xs.splitOnP q).tail) ∧
      ∀ part ∈ xs.splitOnP p, (∀ x ∈ part, q x = false) → part ∈ xs.splitOnP q := by
  have hcons : ∀ (r : α → Bool) (ys : List α),
      ys.splitOnP r = ys.takeWhile (fun x => !r x) :: (ys.splitOnP r).tail := by
    intro r ys
    cases hsplit : ys.splitOnP r with
    | nil => exact absurd hsplit (List.splitOnP_ne_nil r ys)
    | cons first rest =>
      have hhead := headD_splitOnP r ys
      rw [hsplit, List.headD_cons] at hhead
      rw [hhead, List.tail_cons]
  -- The first part is the same in both splits where the finer one does not cut it.
  have hfirst : ∀ ys : List α, (∀ x ∈ ys.takeWhile (fun x => !p x), q x = false) →
      ys.takeWhile (fun x => !q x) = ys.takeWhile fun x => !p x := by
    intro ys
    induction ys with
    | nil => intro _; rfl
    | cons y ys ih =>
      intro hfree
      cases hp : p y with
      | true => simp [hp, hpq y hp]
      | false =>
        have htake : (y :: ys).takeWhile (fun x => !p x) = y :: ys.takeWhile fun x => !p x := by
          simp [hp]
        rw [htake] at hfree ⊢
        have hq := hfree y (by simp)
        have hrest := ih fun x hx => hfree x (List.mem_cons_of_mem _ hx)
        simp [hq, hrest]
  have hwhole : ∀ ys : List α,
      (∀ part ∈ (ys.splitOnP p).tail, (∀ x ∈ part, q x = false) → part ∈ (ys.splitOnP q).tail) →
      ∀ part ∈ ys.splitOnP p, (∀ x ∈ part, q x = false) → part ∈ ys.splitOnP q := by
    intro ys htail part hpart hfree
    rw [hcons p, List.mem_cons] at hpart
    rw [hcons q, List.mem_cons]
    rcases hpart with rfl | hpart
    · exact Or.inl (hfirst ys hfree).symm
    · exact Or.inr (htail part hpart hfree)
  suffices htail : ∀ part ∈ (xs.splitOnP p).tail, (∀ x ∈ part, q x = false) →
      part ∈ (xs.splitOnP q).tail from ⟨htail, hwhole xs htail⟩
  induction xs with
  | nil => simp
  | cons y xs ih =>
    intro part hpart hfree
    rw [List.splitOnP_cons_eq_if_modifyHead] at hpart ⊢
    cases hp : p y with
    | true =>
      rw [if_pos hp] at hpart
      rw [if_pos (hpq y hp)]
      exact hwhole xs ih part hpart hfree
    | false =>
      rw [if_neg (by simp [hp]), List.tail_modifyHead] at hpart
      have hin := ih part hpart hfree
      split
      · exact List.mem_of_mem_tail hin
      · rwa [List.tail_modifyHead]

theorem splitOnP_isSeparator (h : '\\' ∉ text) : text.splitOnP isSeparator = text.splitOn '/' := by
  rw [List.splitOn_eq_splitOnP]
  induction text with
  | nil => rfl
  | cons c text ih =>
    rw [List.mem_cons, not_or] at h
    have hne : c ≠ '\\' := fun heq => h.1 heq.symm
    have hsame : isSeparator c = (c == '/') := by
      rw [isSeparator, decide_eq_false hne, Bool.or_false, beq_eq_decide]
    rw [List.splitOnP_cons_eq_if_modifyHead, List.splitOnP_cons_eq_if_modifyHead, hsame, ih h.2]

theorem isValidUtf8_iff : isValidUtf8 (encodeUtf8 text) = true ↔ '\x00' ∉ text := by
  constructor
  · intro h hmem
    apply not_mem_zero_of_isValidUtf8From h
    exact List.mem_flatMap.mpr ⟨'\x00', hmem, by decide⟩
  · intro h
    apply isValidUtf8_encodeUtf8
    intro c hc hzero
    have heq : c = '\x00' := by
      rw [← Char.toNat_inj, hzero]
      rfl
    exact h (heq ▸ hc)

/-- A path that breaks a rule is not valid. -/
theorem isValidArchivePath_of_breaks (h : BreaksPathRule text) :
    isValidArchivePath (encodeUtf8 text) = false := by
  rw [isValidArchivePath_encodeUtf8, validNames, List.all_eq_false]
  have hpart : ∀ n ∈ text.splitOn '/', (∀ c ∈ n, isSeparator c = false) →
      n ∈ text.splitOnP isSeparator := by
    intro n hn hfree
    rw [List.splitOn_eq_splitOnP] at hn
    refine (mem_splitOnP_of_finer (p := (· == '/')) ?_ text).2 n hn hfree
    intro c hc
    simp [isSeparator, eq_of_beq hc]
  rcases h with hslash | hcolon | hdot | hdots
  · obtain ⟨rest, rfl⟩ := List.head?_eq_some_iff.mp hslash
    refine ⟨[], ?_, by simp⟩
    rw [List.splitOnP_cons_eq_if_modifyHead, if_pos (by decide)]
    exact List.mem_cons_self
  · obtain ⟨n, hn, hc⟩ := (mem_splitOnP (p := isSeparator) (by decide) text).mp hcolon
    exact ⟨n, hn, by simp [hc]⟩
  · exact ⟨_, hpart _ hdot (by simp [isSeparator]), by decide⟩
  · exact ⟨_, hpart _ hdots (by simp [isSeparator]), by decide⟩

/-- A path that obeys the rules is valid exactly when none of its components is empty. -/
theorem isValidArchivePath_iff (h : ObeysPathRules text) :
    isValidArchivePath (encodeUtf8 text) = true ↔ [] ∉ text.splitOn '/' := by
  obtain ⟨hrules, hback⟩ := h
  rw [BreaksPathRule, not_or, not_or, not_or] at hrules
  obtain ⟨_, hcolon, hdot, hdots⟩ := hrules
  rw [isValidArchivePath_encodeUtf8, validNames, splitOnP_isSeparator hback, List.all_eq_true]
  constructor
  · intro hall hempty
    have hnil := hall [] hempty
    simp at hnil
  · intro hempty n hn
    have hne : n ≠ [] := fun hnil => hempty (hnil ▸ hn)
    have hndot : n ≠ ['.'] := fun heq => hdot (heq ▸ hn)
    have hndots : n ≠ ['.', '.'] := fun heq => hdots (heq ▸ hn)
    have hncolon : ':' ∉ n := by
      intro hmem
      rw [← splitOnP_isSeparator hback] at hn
      exact hcolon ((mem_splitOnP (by decide) text).mpr ⟨n, hn, hmem⟩)
    simp [hne, hndot, hndots, hncolon]

end Paths

/-! ## Reading the archive -/

section Archive

/-- An archive with an entry whose path the reader does not take is not unpacked. -/
theorem extractArchiveFrom_of_invalid {entries : List StoredEntry} (hframed : ∀ e ∈ entries, e.Framed)
    {e : StoredEntry} (he : e ∈ entries)
    (hinvalid : ¬(isValidUtf8 (encodeUtf8 e.text) = true ∧
      isValidArchivePath (encodeUtf8 e.text) = true)) (rest : Data) :
    ∀ (turns : Nat) (u : Unpacked H), ∃ err,
      extractArchiveFrom turns (entries.flatMap StoredEntry.bytes ++ rest) u = .error err := by
  induction entries with
  | nil => cases he
  | cons first entries ih =>
    intro turns u
    cases turns with
    | zero => exact ⟨_, rfl⟩
    | succ turns =>
      obtain ⟨hne, hlength, hsize, hdir, _, _⟩ := hframed first (by simp)
      have hname : encodeUtf8 first.text ≠ [] := fun hnil => hne (encodeUtf8_injective hnil)
      have hread := @readArchiveEntry_header first.header (encodeUtf8 first.text) first.data hlength
        hname (entries.flatMap StoredEntry.bytes ++ rest)
      rw [List.flatMap_cons, List.append_assoc, extractArchiveFrom, StoredEntry.bytes, hread]
      by_cases hutf8 : isValidUtf8 (encodeUtf8 first.text) = true
      · by_cases hpath : isValidArchivePath (encodeUtf8 first.text) = true
        · have hin : e ∈ entries := by
            rcases List.mem_cons.mp he with rfl | hin
            · exact absurd ⟨hutf8, hpath⟩ hinvalid
            · exact hin
          have hover : ¬first.header.size.toNat
              > (first.data ++ (entries.flatMap StoredEntry.bytes ++ rest)).length := by
            rw [List.length_append]
            omega
          have hafter : (if first.header.isDirectory = 0 then
              (first.data ++ (entries.flatMap StoredEntry.bytes ++ rest)).drop first.header.size.toNat
              else first.data ++ (entries.flatMap StoredEntry.bytes ++ rest))
              = entries.flatMap StoredEntry.bytes ++ rest := by
            rcases hdir with hfile | ⟨hdir, hnil⟩
            · rw [if_pos hfile, hsize, List.drop_left]
            · rw [if_neg (by rw [hdir]; decide), hnil, List.nil_append]
          simp only [hutf8, hpath, Bool.not_true, Bool.false_eq_true, if_false, hover, hafter]
          cases extractEntry u _ with
          | error err => exact ⟨err, rfl⟩
          | ok u' => exact ih (fun x hx => hframed x (List.mem_cons_of_mem _ hx)) hin turns u'
        · exact ⟨.badPathname, by simp [hutf8, hpath]⟩
      · exact ⟨.invalidData, by simp [hutf8]⟩

variable {k : Codec} {p : ImageParts}

/-- An entry as an item of the unpack. -/
def StoredEntry.item (e : StoredEntry) : ArchiveItem := ⟨e.path, e.header, e.data⟩

namespace StoredEntry

variable {e : StoredEntry}

theorem path_eq (h : e.Readable) : e.path = e.text.splitOn '/' := by
  rw [path, if_neg]
  intro hslash
  obtain ⟨front, hfront⟩ := List.getLast?_eq_some_iff.mp hslash
  apply h.2
  rw [hfront, List.splitOn_eq_splitOnP, List.splitOnP_append_cons _ _ (by decide)]
  simp

theorem joinPath_path (h : e.Readable) : joinPath e.path = e.text := by
  rw [path_eq h]
  exact List.intercalate_splitOn '/'

theorem bytes_item (h : e.Readable) : e.item.bytes = e.bytes := by
  have hjoin := joinPath_path h
  simp only [item, ArchiveItem.bytes, hjoin]
  rfl

/-- The names of a path that is readable and obeys the rules. -/
theorem archiveNames (h : e.Readable) (hrules : ObeysPathRules e.text) :
    e.path ≠ [] ∧ ∀ n ∈ e.path, ArchiveName n := by
  obtain ⟨hbreaks, hback⟩ := hrules
  rw [BreaksPathRule, not_or, not_or, not_or] at hbreaks
  obtain ⟨_, hcolon, hdot, hdots⟩ := hbreaks
  rw [path_eq h]
  constructor
  · rw [List.splitOn_eq_splitOnP]
    exact List.splitOnP_ne_nil _ _
  · intro n hn
    have hfree : ∀ c ∈ n, isSeparator c = false := by
      rw [← splitOnP_isSeparator hback] at hn
      exact not_of_mem_splitOnP hn
    have htext : ∀ c ∈ n, c ∈ e.text := by
      intro c hc
      rw [← splitOnP_isSeparator hback] at hn
      exact (mem_splitOnP (hfree c hc) e.text).mpr ⟨n, hn, hc⟩
    refine ⟨fun hnil => h.2 (hnil ▸ hn), fun heq => hdot (heq ▸ hn), fun heq => hdots (heq ▸ hn), ?_⟩
    intro c hc
    refine ⟨?_, fun heq => hcolon (heq ▸ htext c hc), hfree c hc⟩
    intro hzero
    have heq : c = '\x00' := by
      rw [← Char.toNat_inj, hzero]
      rfl
    exact h.1 (heq ▸ htext c hc)

theorem good_item (h : e.Readable) (hrules : ObeysPathRules e.text) (hframed : e.Framed) :
    e.item.Good where
  name := by
    obtain ⟨hne, hnames⟩ := archiveNames h hrules
    apply readableName_of_names hne hnames
    rw [joinPath_path h]
    exact hframed.length_le
  size := hframed.size
  directory := by
    intro hdir
    rcases hframed.directory with hfile | ⟨_, hnil⟩
    · exact absurd hfile hdir
    · exact hnil

end StoredEntry

/-- What the reader can do with the entries: take each path. -/
structure ReadableEntries (entries : List StoredEntry) : Prop where
  framed : ∀ e ∈ entries, e.Framed
  rules : ∀ e ∈ entries, ObeysPathRules e.text
  readable : ∀ e ∈ entries, e.Readable

theorem archive_eq (h : ReadableEntries p.entries) :
    p.archive = archiveOf (p.entries.map StoredEntry.item) := by
  have hflat : p.entries.flatMap StoredEntry.bytes
      = (p.entries.map StoredEntry.item).flatMap ArchiveItem.bytes := by
    rw [List.flatMap_map]
    apply List.flatMap_congr
    intro e he
    rw [StoredEntry.bytes_item (h.readable e he)]
  rw [ImageParts.archive, archiveOf, hflat]

theorem extractArchive_documented (h : ReadableEntries p.entries) (target : HostDir H) :
    extractArchive p.archive target
      = (placeItems (p.entries.map StoredEntry.item) target).map fun t =>
          ⟨t, (p.entries.map StoredEntry.item).flatMap (whiteoutsOf H)⟩ := by
  rw [archive_eq h, extractArchive_items, extractItems_eq]
  · simp
  · intro i hi
    obtain ⟨e, he, rfl⟩ := List.mem_map.mp hi
    exact StoredEntry.archiveNames (h.readable e he) (h.rules e he)
  · intro i hi
    obtain ⟨e, he, rfl⟩ := List.mem_map.mp hi
    exact StoredEntry.good_item (h.readable e he) (h.rules e he) (h.framed e he)

/-- A deleted path whose marker is an entry of the archive is done. -/
theorem materializeWhiteout_twice {w : RelPath} (hne : w ≠ []) (hnames : ∀ n ∈ w, ArchiveName n)
    (hlength : (encodeUtf8 (joinPath w)).length ≤ 0xFFFE) {items : List ArchiveItem} {i : ArchiveItem}
    (hi : i ∈ items) (hpath : i.path = getWhiteoutFileName w) (hwhiteout : i.header.isWhiteout = 1)
    (hfile : i.header.isDirectory = 0) (t : HostDir H) :
    materializeWhiteout ((items.flatMap (whiteoutsOf H)).map toLower) t (relativeNameOf w) = .ok t := by
  obtain ⟨d, n, rfl⟩ := (List.eq_nil_or_concat w).resolve_left hne
  rw [List.concat_eq_append] at hnames hlength hpath ⊢
  rw [getWhiteoutFileName_append] at hpath
  have hvalid : isValidArchivePath (wideToUtf8 (relativeNameOf (d ++ [n]))) = true := by
    rw [wideToUtf8_relativeNameOf (le_kIntMax hlength)]
    exact isValidArchivePath_of_names (by simp) hnames
  have hmarkers : ∀ m ∈ d ++ [whiteoutName n], ArchiveName m := by
    intro m hm
    rcases List.mem_append.mp hm with hm | hm
    · exact hnames m (List.mem_append_left _ hm)
    · rw [List.mem_singleton.mp hm]
      exact (hnames n (by simp)).whiteoutName
  have hskip := unpackSkipsEntry_relativeNameOf t (List.append_ne_nil_of_right_ne_nil d
    (List.cons_ne_nil (whiteoutName n) [])) hmarkers
  unfold materializeWhiteout
  simp only [hvalid, Bool.not_true, Bool.false_eq_true, if_false,
    makeWhiteoutMarkerPath_relativeNameOf hnames, hskip]
  -- The unpack skipped the marker's entry, or it has written the marker.
  by_cases hskipped : skipsPath H (d ++ [whiteoutName n]) = true
  · simp [hskipped]
  · have hmem : relativeNameOf (d ++ [whiteoutName n]) ∈ items.flatMap (whiteoutsOf H) := by
      refine List.mem_flatMap.mpr ⟨i, hi, ?_⟩
      simp [whiteoutsOf, hpath, hskipped, hfile, hwhiteout]
    have hlower := List.mem_map_of_mem (f := toLower) hmem
    rw [if_pos (List.contains_iff_mem.mpr hlower)]

theorem StoredEntry.path_of_text {e : StoredEntry} {q : RelPath} (h : e.Readable) (hne : q ≠ [])
    (hnames : ∀ n ∈ q, ArchiveName n) (htext : e.text = joinPath q) : e.path = q := by
  have hback : '\\' ∉ e.text := by
    intro hmem
    rw [htext] at hmem
    rcases mem_joinPath hmem with hslash | ⟨n, hn, hc⟩
    · exact absurd hslash (by decide)
    · exact absurd ((hnames n hn).chars _ hc).2.2 (by decide)
  rw [StoredEntry.path_eq h, ← splitOnP_isSeparator hback, htext]
  exact splitOnP_joinPath hne fun n hn c hc => ((hnames n hn).chars c hc).2.2

/-- The deleted paths change nothing more. -/
theorem materializeMetadataWhiteouts_documented (h : p.Documented k)
    (hreadable : ReadableEntries p.entries) (t : HostDir H) :
    materializeMetadataWhiteouts (p.whiteouts.map relativeNameOf)
      ⟨t, (p.entries.map StoredEntry.item).flatMap (whiteoutsOf H)⟩ = .ok t := by
  have htwice : ∀ w ∈ p.whiteouts, ∀ t : HostDir H, materializeWhiteout
      (((p.entries.map StoredEntry.item).flatMap (whiteoutsOf H)).map toLower) t (relativeNameOf w)
        = .ok t := by
    intro w hw t
    obtain ⟨⟨hne, hnames⟩, e, he, hwhiteout, htext⟩ := h.twice w hw
    have hfile : e.header.isDirectory = 0 := by
      rcases (h.framed e he).whiteout with hzero | ⟨_, hfile, _⟩
      · rw [hwhiteout] at hzero
        exact absurd hzero (by decide)
      · exact hfile
    obtain ⟨d, n, rfl⟩ := (List.eq_nil_or_concat w).resolve_left hne
    rw [List.concat_eq_append] at hnames htext hw ⊢
    have hmarkers : ∀ m ∈ getWhiteoutFileName (d ++ [n]), ArchiveName m := by
      rw [getWhiteoutFileName_append]
      intro m hm
      rcases List.mem_append.mp hm with hm | hm
      · exact hnames m (List.mem_append_left _ hm)
      · rw [List.mem_singleton.mp hm]
        exact (hnames n (by simp)).whiteoutName
    have hpath : e.path = getWhiteoutFileName (d ++ [n]) :=
      StoredEntry.path_of_text (hreadable.readable e he) (by simp [getWhiteoutFileName_append])
        hmarkers htext
    exact materializeWhiteout_twice (by simp) hnames (length_whiteout h _ hw)
      (List.mem_map_of_mem he) hpath hwhiteout hfile t
  unfold materializeMetadataWhiteouts
  generalize p.whiteouts = whiteouts at htwice
  induction whiteouts generalizing t with
  | nil => rfl
  | cons w whiteouts ih =>
    rw [List.map_cons, List.foldlM_cons, htwice w (by simp) t]
    exact ih t fun x hx => htwice x (List.mem_cons_of_mem _ hx)

/-- An unpack of a documented image whose data section the reader decompresses to the
archive, and whose paths it takes, is a run over the entries. -/
theorem extractImage_documented (h : p.Documented k) (hreadable : ReadableEntries p.entries)
    (hdecompress : decompressBuffer k p.data = .ok p.archive) (target : HostDir H)
    (verifyChecksum : Bool) :
    extractImage k (p.bytes k) target verifyChecksum
      = placeItems (p.entries.map StoredEntry.item) target := by
  rw [extractImage_eq, imageContent_documented h, hdecompress]
  change (extractArchive p.archive target >>= materializeMetadataWhiteouts _) = _
  rw [extractArchive_documented hreadable]
  cases placeItems (p.entries.map StoredEntry.item) target with
  | error e => rfl
  | ok t => exact materializeMetadataWhiteouts_documented h hreadable t

end Archive

end LayerImage

end LayerMount
