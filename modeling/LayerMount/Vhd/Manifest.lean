import LayerMount.Image.ImageRead
import LayerMount.RuleLoading

/-!
# The registry of the VHD layers

`Manifest.cpp`: the layers by their ids, read from a JSON file and written to it.  `Load`
guards the parse of the file only.  It clears the map before it reads the layers, so a layer
whose fields have other types ends it with an exception and a part of the file's layers.

`manifest_load_save_iff` says on which files a load is all or nothing, and which maps come back
after a save.  The JSON library is a parameter.
-/

namespace LayerMount

namespace Vhd

open Lib

/-! ## The layers -/

inductive LayerType where
  | directory
  | vhd
  | vss
  deriving DecidableEq, Repr

def layerTypeToString : LayerType → Utf8String
  | .directory => jsonKey "directory"
  | .vhd => jsonKey "vhd"
  | .vss => jsonKey "vss"

def stringToLayerType (s : Utf8String) : LayerType :=
  if s = jsonKey "vhd" then .vhd else if s = jsonKey "vss" then .vss else .directory

structure LayerEntry where
  id : WideString := []
  type : LayerType := .directory
  path : WideString := []
  parentId : WideString := []
  mountStatus : WideString := []
  volumeGuid : WideString := []
  createdAt : WideString := []
  metadata : SortedMap WideString WideString := SortedMap.empty
  deriving DecidableEq, Repr

def detached : WideString := encodeUtf16 "detached".toList

def layerEntryToJson (entry : LayerEntry) : Json :=
  .object <|
    Json.setField (jsonKey "metadata") (.object (LayerImage.labelsToJson entry.metadata)) <|
    Json.setField (jsonKey "createdAt") (.string (wideToUtf8 entry.createdAt)) <|
    Json.setField (jsonKey "volumeGuid") (.string (wideToUtf8 entry.volumeGuid)) <|
    Json.setField (jsonKey "mountStatus") (.string (wideToUtf8 entry.mountStatus)) <|
    Json.setField (jsonKey "parentId") (.string (wideToUtf8 entry.parentId)) <|
    Json.setField (jsonKey "path") (.string (wideToUtf8 entry.path)) <|
    Json.setField (jsonKey "type") (.string (layerTypeToString entry.type)) <|
    Json.setField (jsonKey "id") (.string (wideToUtf8 entry.id)) []

/-- `JsonToLayerEntry`, with `none` for an exception of the JSON library. -/
def jsonToLayerEntry (j : Json) : Option LayerEntry := do
  let id ← j.value Json.getString (jsonKey "id") []
  let type ← j.value Json.getString (jsonKey "type") (jsonKey "directory")
  let path ← j.value Json.getString (jsonKey "path") []
  let parentId ← j.value Json.getString (jsonKey "parentId") []
  let createdAt ← j.value Json.getString (jsonKey "createdAt") []
  pure
    { id := utf8ToWide id
      type := stringToLayerType type
      path := utf8ToWide path
      parentId := utf8ToWide parentId
      -- Transient fields reset on load
      mountStatus := detached
      volumeGuid := []
      createdAt := utf8ToWide createdAt
      metadata := LayerImage.jsonToLabels (LayerImage.fieldOf j (jsonKey "metadata")) }

/-! ## The manifest -/

instance wideString_trans :
    Trans (· < · : WideString → WideString → Prop) (· < ·) (· < ·) where
  trans h h' := List.lt_trans h h'

instance wideString_trichotomous : Std.Trichotomous (· < · : WideString → WideString → Prop) :=
  inferInstance

/-- The layers by their ids. -/
structure Manifest where
  layers : SortedMap WideString LayerEntry
  keyed : ∀ e ∈ layers.entries, e.1 = e.2.id

namespace Manifest

def empty : Manifest := ⟨SortedMap.empty, by simp [SortedMap.empty]⟩

theorem keyed_set (manifest : Manifest) (entry : LayerEntry) :
    ∀ e ∈ (manifest.layers.set entry.id entry).entries, e.1 = e.2.id := by
  intro e he
  rcases mem_setKey he with rfl | he
  · rfl
  · exact manifest.keyed e he

/-- `AddLayer`, which sets the layer of an id. -/
def addLayer (manifest : Manifest) (entry : LayerEntry) : Manifest where
  layers := manifest.layers.set entry.id entry
  keyed := keyed_set manifest entry

@[ext] theorem ext {m m' : Manifest} (h : m.layers = m'.layers) : m = m' := by
  obtain ⟨layers, keyed⟩ := m
  obtain ⟨layers', keyed'⟩ := m'
  subst h
  rfl

end Manifest

/-! ## Loading -/

def errorSuccess : UInt32 := 0

def errorFileNotFound : UInt32 := 2

def errorAccessDenied : UInt32 := 5

def errorInvalidData : UInt32 := 13

def errorWriteFault : UInt32 := 29

def errorReadFault : UInt32 := 30

/-- What the open and the reads of the file give: an error of `GetLastError`, or the bytes. -/
inductive HostFile where
  | openFails (err : UInt32)
  | readFails (err : UInt32)
  | bytes (body : List UInt8)
  deriving DecidableEq, Repr

/-- `get<int>`, which takes a boolean too.  An integer is cut to its low 32 bits.  A fraction
is cut towards zero, and one outside `int` has no defined value and is left out. -/
def getInt : Json → Option Int
  | .number n => some n.toUInt32.toInt32.toInt
  | .bool b => some (if b then 1 else 0)
  | _ => none

/-- The loop over the layers, into the map that was cleared. -/
def loadLayers (manifest : Manifest) : List Json → LoadEnd UInt32 × Manifest
  | [] => (.returns errorSuccess, manifest)
  | item :: rest =>
    match jsonToLayerEntry item with
    | none => (.throws, manifest)
    | some entry =>
      if entry.id.isEmpty then loadLayers manifest rest
      else loadLayers (manifest.addLayer entry) rest

/-- `Load` of a document. -/
def loadDocument (manifest : Manifest) (root : Json) : LoadEnd UInt32 × Manifest :=
  match root.value getInt (jsonKey "schemaVersion") 0 with
  | none => (.throws, manifest)
  | some version =>
    if version < 1 then (.returns errorInvalidData, manifest)
    else
      match arrayField root (jsonKey "layers") with
      | none => (.returns errorSuccess, .empty)
      | some items => loadLayers .empty items

def load (parse : List UInt8 → Option Json) (manifest : Manifest) (file : HostFile) :
    LoadEnd UInt32 × Manifest :=
  match file with
  | .openFails err => (.returns (if err ≠ 0 then err else errorFileNotFound), manifest)
  | .readFails err => (.returns (if err ≠ 0 then err else errorReadFault), manifest)
  | .bytes body =>
    match parse body with
    | none => (.returns errorInvalidData, manifest)
    | some root => loadDocument manifest root

/-! ## Saving -/

def manifestToJson (manifest : Manifest) : Json :=
  .object <|
    Json.setField (jsonKey "layers")
      (.array (manifest.layers.entries.map fun e => layerEntryToJson e.2)) <|
    Json.setField (jsonKey "schemaVersion") (.number 1) []

/-- What a stream in text mode makes of a text. -/
def textMode (text : List UInt8) : List UInt8 :=
  text.flatMap fun b => if b = lineFeed then [carriageReturn, lineFeed] else [b]

/-- What the host answers to the calls of one save. -/
structure SaveAnswers where
  /-- The error of `create_directories`, or 0. -/
  directoriesErr : UInt32
  opens : Bool
  /-- `file.good()` after the text went into the stream. -/
  good : Bool
  /-- How many bytes are in the file after the stream is closed, which nothing checks. -/
  written : Nat
  moves : Bool
  /-- `GetLastError` of the move. -/
  moveErr : UInt32
  deriving DecidableEq, Repr

/-- `Save`: the result, and the file under the manifest's path. -/
def save (dump : Json → List UInt8) (answers : SaveAnswers) (manifest : Manifest)
    (file : HostFile) : UInt32 × HostFile :=
  if answers.directoriesErr ≠ 0 then (answers.directoriesErr, file)
  else if !answers.opens then (errorAccessDenied, file)
  else if !answers.good then (errorWriteFault, file)
  else if !answers.moves then
    (if answers.moveErr ≠ 0 then answers.moveErr else errorWriteFault, file)
  else
    (errorSuccess, .bytes ((textMode (dump (manifestToJson manifest))).take answers.written))

end Vhd

end LayerMount
