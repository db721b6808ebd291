import LayerMount.WideText
import Mathlib.Data.List.DropRight

/-!
# Paths with a stream

`TryParseStreamPath` and `ParseStreamPath` of `LayerMount.cpp`: the splitter that every
path of a caller goes through.  `streamPath_grammar` says which texts it takes, that
host and suffix are the text, and that the parse in the caller's case is the parse of the
folded text.

The host folds the case of a text and compares two texts without case; what the last part
needs of that is `HostCase.Lawful`.
-/

namespace LayerMount.PathText

open Lib

def kBackslash : UInt16 := 0x5C

def kSlash : UInt16 := 0x2F

def kColon : UInt16 := 0x3A

def kDot : UInt16 := 0x2E

def kNul : UInt16 := 0

def kDotDot : WideString := [kDot, kDot]

/-- `kLayerMountADSStream` without its colon. -/
def kReservedStream : WideString := encodeUtf16 "overlay".toList

def kDataType : WideString := encodeUtf16 "$DATA".toList

/-- The folding of `CharLowerBuffW` and the compare of `CompareStringOrdinal` without
case. -/
structure HostCase extends CaseFold where
  ordinalEqual : WideString → WideString → Bool

/-! ## The source's functions -/

/-- `NormalizePathPreserveCase`. -/
def normalizePathPreserveCase (path : WideString) : WideString :=
  ((path.map fun u => if u = kSlash then kBackslash else u).dropWhile (· = kBackslash)).rdropWhile
    (· = kBackslash)

/-- `NormalizePath`. -/
def normalizePath (F : CaseFold) (path : WideString) : WideString :=
  F.fold (normalizePathPreserveCase path)

/-- The loop of `IsSafeRelativePath` over what is left of the path. -/
def noParentComponent (rest : WideString) : Bool :=
  match h : rest.idxOf? kBackslash with
  | none => rest ≠ kDotDot
  | some fin =>
    if rest.take fin = kDotDot then false else noParentComponent (rest.drop (fin + 1))
termination_by rest.length
decreasing_by
  have hne : rest ≠ [] := by
    intro hnil
    rw [hnil] at h
    exact absurd h (by simp)
  have hpos := List.length_pos_iff.mpr hne
  rw [List.length_drop]
  omega

def isSafeRelativePath (normalized : WideString) : Bool :=
  if normalized.isEmpty then false
  else if normalized.contains kColon then false
  else noParentComponent normalized

def streamNamesEqual (C : HostCase) (a b : WideString) : Bool :=
  a.length = b.length && a.length ≤ kIntMax && C.ordinalEqual a b

/-- `IsReservedStreamName`, of a bare name. -/
def isReservedStreamName (C : HostCase) (streamName : WideString) : Bool :=
  if streamName.length = kReservedStream.length then streamNamesEqual C streamName kReservedStream
  else
    kReservedStream.length < streamName.length &&
      streamName[kReservedStream.length]? = some kDot &&
      streamNamesEqual C (streamName.take kReservedStream.length) kReservedStream

/-- `IsUserAlternateStream`, of a name as a stream enumeration gives it. -/
def isUserAlternateStream (C : HostCase) (ntfsStreamName : WideString) : Bool :=
  match ntfsStreamName with
  | [] => false
  | u :: afterColon =>
    if u ≠ kColon then false
    else
      let name := afterColon.take ((afterColon.idxOf? kColon).getD afterColon.length)
      !name.isEmpty && !isReservedStreamName C name

/-- `_wcsicmp` of two texts is 0.  It reads each up to its NUL. -/
def wcsicmpEqual (a b : WideString) : Bool :=
  (a.takeWhile (· ≠ kNul)).map asciiLowerUnit = (b.takeWhile (· ≠ kNul)).map asciiLowerUnit

/-- The host and the stream suffix, in the case of the text. -/
def tryParseStreamPath (C : HostCase) (normalized : WideString) :
    Option (WideString × WideString) :=
  if normalized.isEmpty then none
  else
    match normalized.idxOf? kColon with
    | none => if isSafeRelativePath normalized then some (normalized, []) else none
    | some firstColon =>
      let host := normalized.take firstColon
      let rest := normalized.drop (firstColon + 1)
      let secondColon := rest.idxOf? kColon
      let streamName := rest.take (secondColon.getD rest.length)
      if !isSafeRelativePath host then none
      else if streamName.isEmpty then none
      else if streamName.contains kBackslash then none
      else if isReservedStreamName C streamName then none
      else
        match secondColon with
        | none => some (host, kColon :: streamName)
        | some second =>
          let streamType := rest.drop (second + 1)
          if streamType.isEmpty then none
          else if streamType.contains kColon then none
          else if !wcsicmpEqual streamType kDataType then none
          else some (host, kColon :: (streamName ++ kColon :: streamType))

structure StreamPath where
  hostNorm : WideString
  streamSuffix : WideString
  callerHost : WideString
  callerStreamSuffix : WideString
  deriving DecidableEq, Repr

def parseStreamPath (C : HostCase) (relativePath : WideString) : Option StreamPath :=
  match tryParseStreamPath C (normalizePathPreserveCase relativePath) with
  | none => none
  | some (callerHost, callerStreamSuffix) =>
    some
      { callerHost, callerStreamSuffix
        hostNorm := C.fold callerHost
        streamSuffix := C.fold callerStreamSuffix }

/-! ## What a normalized path has -/

theorem slash_not_mem_normalized (path : WideString) :
    kSlash ∉ normalizePathPreserveCase path := by
  intro h
  have hmap := (List.dropWhile_sublist _).subset ((List.rdropWhile_prefix _ _).subset h)
  obtain ⟨u, _, hu⟩ := List.mem_map.mp hmap
  split at hu
  · exact absurd hu (by decide)
  · next hne => exact hne hu

theorem getLast?_normalized (path : WideString) :
    (normalizePathPreserveCase path).getLast? ≠ some kBackslash := by
  intro h
  have hne : normalizePathPreserveCase path ≠ [] := by
    intro hnil
    rw [hnil] at h
    exact absurd h (by simp)
  have hlast := List.rdropWhile_last_not _ _ hne
  rw [List.getLast?_eq_some_getLast hne] at h
  injection h with h
  exact hlast (by simpa [normalizePathPreserveCase] using h)

theorem head?_normalized (path : WideString) :
    (normalizePathPreserveCase path).head? ≠ some kBackslash := by
  intro h
  obtain ⟨rest, hrest⟩ := List.rdropWhile_prefix (· = kBackslash)
    ((path.map fun u => if u = kSlash then kBackslash else u).dropWhile (· = kBackslash))
  change (normalizePathPreserveCase path) ++ rest = _ at hrest
  cases hpath : normalizePathPreserveCase path with
  | nil =>
    rw [hpath] at h
    exact absurd h (by simp)
  | cons u more =>
    rw [hpath] at h hrest
    obtain rfl : u = kBackslash := by simpa using h
    have hdrop : ((path.map fun u => if u = kSlash then kBackslash else u).dropWhile
        (· = kBackslash)).takeWhile (· = kBackslash) = [] := by
      rw [List.takeWhile_eq_nil_iff]
      intro hlt
      exact List.dropWhile_get_zero_not (· = kBackslash) _ hlt
    rw [← hrest, List.cons_append, List.takeWhile_cons_of_pos (by simp)] at hdrop
    exact absurd hdrop (List.cons_ne_nil _ _)

/-! ## The grammar -/

structure HostPart (host : WideString) : Prop where
  ne_nil : host ≠ []
  noColon : kColon ∉ host
  noParent : kDotDot ∉ host.splitOn kBackslash

/-- The names are the same without case. -/
def SameName (C : HostCase) (a b : WideString) : Prop := a.length = b.length ∧ C.ordinalEqual a b

structure StreamName (C : HostCase) (name : WideString) : Prop where
  ne_nil : name ≠ []
  noBackslash : kBackslash ∉ name
  noColon : kColon ∉ name
  notReserved : ¬ SameName C name kReservedStream
  notUnderReserved : ∀ start rest, name = start ++ kDot :: rest → ¬ SameName C start kReservedStream

/-- `$DATA` without case. -/
def DataType (streamType : WideString) : Prop :=
  streamType.map asciiLowerUnit = kDataType.map asciiLowerUnit

inductive StreamGrammar (C : HostCase) : WideString → WideString → WideString → Prop where
  | plain {host : WideString} (hhost : HostPart host) : StreamGrammar C host host []
  | stream {host name : WideString} (hhost : HostPart host) (hname : StreamName C name) :
    StreamGrammar C (host ++ kColon :: name) host (kColon :: name)
  | typed {host name streamType : WideString} (hhost : HostPart host) (hname : StreamName C name)
      (htype : DataType streamType) :
    StreamGrammar C (host ++ kColon :: (name ++ kColon :: streamType)) host
      (kColon :: (name ++ kColon :: streamType))

/-! ## What the functions check -/

theorem noParentComponent_plain {rest : WideString} (h : kBackslash ∉ rest) :
    noParentComponent rest = decide (rest ≠ kDotDot) := by
  unfold noParentComponent
  split
  · rfl
  · next fin hfin =>
    rw [List.idxOf?_eq_none_iff.mpr h] at hfin
    exact absurd hfin (by simp)

theorem noParentComponent_cons {component : WideString} (h : kBackslash ∉ component)
    (rest : WideString) : noParentComponent (component ++ kBackslash :: rest)
      = (decide (component ≠ kDotDot) && noParentComponent rest) := by
  rw [noParentComponent]
  split
  · next hnone =>
    rw [idxOf?_append_cons h] at hnone
    exact absurd hnone (by simp)
  · next fin hfin =>
    rw [idxOf?_append_cons h] at hfin
    injection hfin with hfin
    rw [← hfin, List.take_left', drop_append_cons]
    · split
      · next hparent => simp [hparent]
      · next hparent => simp [hparent]
    · rfl

/-- The loop looks at every component.  The induction is on the length of what is left. -/
theorem noParentComponent_iff (rest : WideString) :
    noParentComponent rest = true ↔ kDotDot ∉ rest.splitOn kBackslash := by
  induction hlength : rest.length using Nat.strong_induction_on generalizing rest with
  | _ n ih =>
    by_cases hmem : kBackslash ∈ rest
    · obtain ⟨component, tail, rfl, hcomponent⟩ := List.eq_append_cons_of_mem hmem
      have htail := ih tail.length (by simp at hlength; omega) tail rfl
      rw [noParentComponent_cons hcomponent, List.splitOn_append_cons_self_of_not_mem hcomponent,
        Bool.and_eq_true, decide_eq_true_eq, htail, List.mem_cons, not_or]
      exact and_congr_left' ne_comm
    · rw [noParentComponent_plain hmem, List.splitOn_eq_singleton hmem, decide_eq_true_eq,
        List.mem_singleton]
      exact ne_comm

theorem isSafeRelativePath_iff (host : WideString) :
    isSafeRelativePath host = true ↔ HostPart host := by
  unfold isSafeRelativePath
  constructor
  · intro h
    split at h
    · exact absurd h (by simp)
    · next hne =>
      split at h
      · exact absurd h (by simp)
      · next hcolon =>
        exact ⟨by simpa using hne, by simpa using hcolon, (noParentComponent_iff host).mp h⟩
  · intro h
    rw [if_neg (by simpa using h.ne_nil), if_neg (by simpa using h.noColon)]
    exact (noParentComponent_iff host).mpr h.noParent

theorem streamNamesEqual_reserved (C : HostCase) (name : WideString) :
    streamNamesEqual C name kReservedStream = true ↔ SameName C name kReservedStream := by
  unfold streamNamesEqual SameName
  have hsmall : kReservedStream.length ≤ kIntMax := by decide
  simp only [Bool.and_eq_true, decide_eq_true_eq]
  constructor
  · exact fun h => ⟨h.1.1, h.2⟩
  · exact fun h => ⟨⟨h.1, h.1 ▸ hsmall⟩, h.2⟩

/-- The character behind the reserved name is looked up by its place. -/
theorem isReservedStreamName_iff (C : HostCase) (name : WideString) :
    isReservedStreamName C name = true ↔ SameName C name kReservedStream ∨
      ∃ start rest, name = start ++ kDot :: rest ∧ SameName C start kReservedStream := by
  unfold isReservedStreamName
  split
  · next hlength =>
    rw [streamNamesEqual_reserved]
    constructor
    · exact .inl
    · rintro (h | ⟨start, rest, rfl, hstart⟩)
      · exact h
      · have hstart := hstart.1
        rw [List.length_append, List.length_cons] at hlength
        omega
  · next hlength =>
    rw [Bool.and_eq_true, Bool.and_eq_true, decide_eq_true_eq, decide_eq_true_eq,
      streamNamesEqual_reserved]
    constructor
    · rintro ⟨⟨hlonger, hdot⟩, hsame⟩
      refine .inr ⟨name.take kReservedStream.length, name.drop (kReservedStream.length + 1), ?_,
        hsame⟩
      rw [List.getElem?_eq_getElem hlonger, Option.some.injEq] at hdot
      rw [← hdot, ← List.drop_eq_getElem_cons hlonger, List.take_append_drop]
    · rintro (h | ⟨start, rest, rfl, hstart⟩)
      · exact absurd h.1 hlength
      · have hplace := hstart.1
        rw [← hplace, List.take_left']
        · refine ⟨⟨?_, ?_⟩, hstart⟩
          · rw [List.length_append, List.length_cons]
            omega
          · rw [List.getElem?_append_right (Nat.le_refl _), Nat.sub_self]
            rfl
        · rfl

/-- What the parser asks of a bare name. -/
def streamNameOk (C : HostCase) (name : WideString) : Bool :=
  !name.isEmpty && !name.contains kBackslash && !isReservedStreamName C name

theorem streamNameOk_iff (C : HostCase) {name : WideString} (hcolon : kColon ∉ name) :
    streamNameOk C name = true ↔ StreamName C name := by
  unfold streamNameOk
  simp only [Bool.and_eq_true, Bool.not_eq_true', List.isEmpty_eq_false_iff,
    List.contains_eq_mem, decide_eq_false_iff_not]
  rw [Bool.eq_false_iff, ne_eq (isReservedStreamName C name), isReservedStreamName_iff, not_or]
  constructor
  · rintro ⟨⟨hne, hslash⟩, hreserved, hunder⟩
    exact ⟨hne, hslash, hcolon, hreserved, fun start rest heq hsame =>
      hunder ⟨start, rest, heq, hsame⟩⟩
  · intro h
    exact ⟨⟨h.ne_nil, h.noBackslash⟩, h.notReserved, fun ⟨start, rest, heq, hsame⟩ =>
      h.notUnderReserved start rest heq hsame⟩

/-! ## The splitter on each shape -/

theorem tryParseStreamPath_plain (C : HostCase) {s : WideString} (hcolon : kColon ∉ s) :
    tryParseStreamPath C s = if isSafeRelativePath s then some (s, []) else none := by
  unfold tryParseStreamPath
  rw [List.idxOf?_eq_none_iff.mpr hcolon]
  split
  · next hnil =>
    rw [isSafeRelativePath, if_pos hnil]
    rfl
  · rfl

theorem tryParseStreamPath_stream (C : HostCase) {host name : WideString} (hhost : kColon ∉ host)
    (hname : kColon ∉ name) : tryParseStreamPath C (host ++ kColon :: name) =
      if isSafeRelativePath host && streamNameOk C name then some (host, kColon :: name)
      else none := by
  unfold tryParseStreamPath streamNameOk
  rw [idxOf?_append_cons hhost, if_neg (by simp)]
  simp only [List.take_left', drop_append_cons, List.idxOf?_eq_none_iff.mpr hname,
    Option.getD_none, List.take_length]
  grind

theorem tryParseStreamPath_typed (C : HostCase) {host name : WideString} (hhost : kColon ∉ host)
    (hname : kColon ∉ name) (streamType : WideString) :
    tryParseStreamPath C (host ++ kColon :: (name ++ kColon :: streamType)) =
      if isSafeRelativePath host && streamNameOk C name && !streamType.isEmpty &&
          !streamType.contains kColon && wcsicmpEqual streamType kDataType then
        some (host, kColon :: (name ++ kColon :: streamType))
      else none := by
  unfold tryParseStreamPath streamNameOk
  rw [idxOf?_append_cons hhost, if_neg (by simp)]
  simp only [List.take_left', drop_append_cons, idxOf?_append_cons hname, Option.getD_some]
  grind

/-- Every text has one of the three shapes. -/
theorem colon_cases (s : WideString) : kColon ∉ s ∨
    (∃ host name, kColon ∉ host ∧ kColon ∉ name ∧ s = host ++ kColon :: name) ∨
    ∃ host name streamType, kColon ∉ host ∧ kColon ∉ name ∧
      s = host ++ kColon :: (name ++ kColon :: streamType) := by
  by_cases hcolon : kColon ∈ s
  · obtain ⟨host, rest, rfl, hhost⟩ := List.eq_append_cons_of_mem hcolon
    by_cases hrest : kColon ∈ rest
    · obtain ⟨name, streamType, rfl, hname⟩ := List.eq_append_cons_of_mem hrest
      exact .inr (.inr ⟨host, name, streamType, hhost, hname, rfl⟩)
    · exact .inr (.inl ⟨host, rest, hhost, hrest, rfl⟩)
  · exact .inl hcolon

theorem wcsicmpEqual_iff {streamType : WideString} (hnul : kNul ∉ streamType) :
    wcsicmpEqual streamType kDataType = true ↔ DataType streamType := by
  have hwhole : streamType.takeWhile (· ≠ kNul) = streamType := by
    rw [List.takeWhile_eq_self_iff]
    intro u hu
    exact decide_eq_true fun heq => hnul (heq ▸ hu)
  unfold wcsicmpEqual DataType
  rw [hwhole]
  exact decide_eq_true_iff

/-- A type that is `$DATA` without case has its length and no colon. -/
theorem DataType.plain {streamType : WideString} (h : DataType streamType) :
    streamType ≠ [] ∧ kColon ∉ streamType := by
  constructor
  · rintro rfl
    exact absurd (congrArg List.length h) (by decide)
  · intro hcolon
    have hmem : asciiLowerUnit kColon ∈ kDataType.map asciiLowerUnit :=
      h ▸ List.mem_map_of_mem hcolon
    exact absurd hmem (by decide)

/-- The parser takes the grammar, and splits as the grammar does. -/
theorem tryParseStreamPath_iff (C : HostCase) {s : WideString} (hnul : kNul ∉ s)
    (host suffix : WideString) :
    tryParseStreamPath C s = some (host, suffix) ↔ StreamGrammar C s host suffix := by
  constructor
  · intro h
    obtain hcolon | ⟨a, n, ha, hn, rfl⟩ | ⟨a, n, t, ha, hn, rfl⟩ := colon_cases s
    · rw [tryParseStreamPath_plain C hcolon] at h
      split at h
      · next hsafe =>
        cases h
        exact .plain ((isSafeRelativePath_iff _).mp hsafe)
      · cases h
    · rw [tryParseStreamPath_stream C ha hn] at h
      split at h
      · next hok =>
        rw [Bool.and_eq_true] at hok
        cases h
        exact .stream ((isSafeRelativePath_iff _).mp hok.1) ((streamNameOk_iff C hn).mp hok.2)
      · cases h
    · rw [tryParseStreamPath_typed C ha hn] at h
      split at h
      · next hok =>
        simp only [Bool.and_eq_true] at hok
        have hplain : kNul ∉ t := fun hmem => hnul (by simp [hmem])
        cases h
        exact .typed ((isSafeRelativePath_iff _).mp hok.1.1.1.1)
          ((streamNameOk_iff C hn).mp hok.1.1.1.2) ((wcsicmpEqual_iff hplain).mp hok.2)
      · cases h
  · intro h
    cases h with
    | plain hhost =>
      rw [tryParseStreamPath_plain C hhost.noColon, if_pos ((isSafeRelativePath_iff _).mpr hhost)]
    | stream hhost hname =>
      rw [tryParseStreamPath_stream C hhost.noColon hname.noColon,
        (isSafeRelativePath_iff _).mpr hhost, (streamNameOk_iff C hname.noColon).mpr hname]
      rfl
    | @typed host name streamType hhost hname htype =>
      have hplain : kNul ∉ streamType := fun hmem => hnul (by simp [hmem])
      rw [tryParseStreamPath_typed C hhost.noColon hname.noColon,
        (isSafeRelativePath_iff _).mpr hhost, (streamNameOk_iff C hname.noColon).mpr hname,
        (wcsicmpEqual_iff hplain).mpr htype]
      simp [htype.plain.1, htype.plain.2]

theorem StreamGrammar.append_eq {C : HostCase} {s host suffix : WideString}
    (h : StreamGrammar C s host suffix) : host ++ suffix = s := by
  cases h with
  | plain => exact List.append_nil _
  | stream => rfl
  | typed => rfl

/-- The suffix of a parse is a user's stream in a stream enumeration. -/
theorem StreamGrammar.isUserAlternateStream {C : HostCase} {s host suffix : WideString}
    (h : StreamGrammar C s host suffix) (hne : suffix ≠ []) :
    isUserAlternateStream C suffix = true := by
  have hname : ∀ {name : WideString}, StreamName C name →
      (!name.isEmpty && !isReservedStreamName C name) = true := by
    intro name hname
    have hok := (streamNameOk_iff C hname.noColon).mpr hname
    unfold streamNameOk at hok
    grind
  unfold PathText.isUserAlternateStream
  cases h with
  | plain => exact absurd rfl hne
  | stream _ hok =>
    simp only [List.idxOf?_eq_none_iff.mpr hok.noColon, Option.getD_none, List.take_length]
    exact hname hok
  | typed _ hok =>
    simp only [idxOf?_append_cons hok.noColon, Option.getD_some, List.take_left']
    exact hname hok

/-! ## Joined components -/

theorem intercalate_cons_cons (c d : WideString) (rest : List WideString) :
    [kBackslash].intercalate (c :: d :: rest)
      = c ++ kBackslash :: [kBackslash].intercalate (d :: rest) := by
  simp [List.intercalate, List.intersperse]

theorem mem_intercalate {components : List WideString} {u : UInt16}
    (h : u ∈ [kBackslash].intercalate components) : u = kBackslash ∨ ∃ c ∈ components, u ∈ c := by
  match components with
  | [] => exact absurd h (by simp [List.intercalate])
  | [c] => exact .inr ⟨c, List.mem_cons_self, by simpa [List.intercalate] using h⟩
  | c :: d :: rest =>
    rw [intercalate_cons_cons, List.mem_append, List.mem_cons] at h
    rcases h with hc | hmark | hrest
    · exact .inr ⟨c, List.mem_cons_self, hc⟩
    · exact .inl hmark
    · rcases mem_intercalate hrest with hmark | ⟨e, he, hu⟩
      · exact .inl hmark
      · exact .inr ⟨e, List.mem_cons_of_mem _ he, hu⟩

/-- A joined path starts with its first component. -/
theorem joined_cons (c : WideString) (rest : List WideString) :
    ∃ back, [kBackslash].intercalate (c :: rest) = c ++ back := by
  cases rest with
  | nil => exact ⟨[], by rw [List.intercalate_singleton, List.append_nil]⟩
  | cons d rest => exact ⟨_, intercalate_cons_cons c d rest⟩

theorem joined_ne_nil {c : WideString} {rest : List WideString} (hne : c ≠ []) :
    [kBackslash].intercalate (c :: rest) ≠ [] := by
  obtain ⟨back, hback⟩ := joined_cons c rest
  rw [hback]
  exact List.append_ne_nil_of_left_ne_nil hne _

/-- A joined path ends as its last component does. -/
theorem getLast?_joined {components : List WideString}
    (h : ∀ c ∈ components, c ≠ [] ∧ kBackslash ∉ c) :
    ([kBackslash].intercalate components).getLast? ≠ some kBackslash := by
  induction components with
  | nil => simp [List.intercalate]
  | cons c rest ih =>
    cases rest with
    | nil =>
      rw [List.intercalate_singleton]
      intro hlast
      exact (h c List.mem_cons_self).2 (List.mem_of_mem_getLast? hlast)
    | cons d rest =>
      have hrest := (List.forall_mem_cons.mp h).2
      have hne := @joined_ne_nil d rest (hrest d List.mem_cons_self).1
      rw [intercalate_cons_cons, List.getLast?_append_of_ne_nil _ (List.cons_ne_nil _ _),
        List.getLast?_cons_of_ne_nil hne]
      exact ih hrest

/-! ## The case -/

/-- The characters that the parser looks for, and the end of a C text. -/
def pathMarks : List UInt16 := [kColon, kBackslash, kDot, kNul]

/-- What the host's folding does.  It is in place: a mark stays where it is, and no other
character becomes one.  The two texts that are compared without case are the same before
and after. -/
structure HostCase.Lawful (C : HostCase) : Prop where
  fold_mark : ∀ m ∈ pathMarks, ∀ a b, C.fold (a ++ m :: b) = C.fold a ++ m :: C.fold b
  mark_of_fold : ∀ m ∈ pathMarks, ∀ (a : WideString) (i : Nat),
    (C.fold a)[i]? = some m → a[i]? = some m
  same_reserved : ∀ a, C.ordinalEqual (C.fold a) kReservedStream = C.ordinalEqual a kReservedStream
  same_dataType : ∀ a, DataType (C.fold a) ↔ DataType a

namespace HostCase.Lawful

variable {C : HostCase} (hC : C.Lawful)

include hC

theorem mem_fold {m : UInt16} (hm : m ∈ pathMarks) (a : WideString) : m ∈ C.fold a ↔ m ∈ a := by
  constructor
  · intro h
    obtain ⟨i, hi⟩ := List.mem_iff_getElem?.mp h
    exact List.mem_iff_getElem?.mpr ⟨i, hC.mark_of_fold m hm a i hi⟩
  · intro h
    obtain ⟨start, rest, rfl⟩ := List.append_of_mem h
    rw [hC.fold_mark m hm]
    simp

omit hC in
theorem isEmpty_fold (a : WideString) : (C.fold a).isEmpty = a.isEmpty := by
  rw [Bool.eq_iff_iff, List.isEmpty_iff, List.isEmpty_iff, ← List.length_eq_zero_iff,
    C.length_fold, List.length_eq_zero_iff]

theorem contains_fold {m : UInt16} (hm : m ∈ pathMarks) (a : WideString) :
    (C.fold a).contains m = a.contains m := by
  rw [Bool.eq_iff_iff, List.contains_iff_mem, List.contains_iff_mem]
  exact hC.mem_fold hm a

/-- A mark in front stays in front. -/
theorem fold_cons {m : UInt16} (hm : m ∈ pathMarks) (a : WideString) :
    C.fold (m :: a) = m :: C.fold a := by
  have h := hC.fold_mark m hm [] a
  rwa [C.fold_nil] at h

theorem fold_eq_dotDot (a : WideString) : C.fold a = kDotDot ↔ a = kDotDot := by
  have hdot : kDot ∈ pathMarks := by decide
  constructor
  · intro h
    have hlength : a.length = 2 := by
      rw [← C.length_fold, h]
      rfl
    have hfirst := hC.mark_of_fold kDot hdot a 0 (by rw [h]; rfl)
    have hsecond := hC.mark_of_fold kDot hdot a 1 (by rw [h]; rfl)
    apply List.ext_getElem?
    intro i
    match i with
    | 0 => exact hfirst
    | 1 => exact hsecond
    | i + 2 => rw [List.getElem?_eq_none (by omega), List.getElem?_eq_none (by simp [kDotDot])]
  · rintro rfl
    show C.fold (kDot :: kDot :: []) = kDotDot
    rw [hC.fold_cons hdot, hC.fold_cons hdot, C.fold_nil]
    rfl

/-- The components of the folded text are the folded components. -/
theorem splitOn_fold (a : WideString) :
    (C.fold a).splitOn kBackslash = (a.splitOn kBackslash).map C.fold := by
  have hslash : kBackslash ∈ pathMarks := by decide
  induction hlength : a.length using Nat.strong_induction_on generalizing a with
  | _ n ih =>
    by_cases hmem : kBackslash ∈ a
    · obtain ⟨component, rest, rfl, hcomponent⟩ := List.eq_append_cons_of_mem hmem
      have hrest := ih rest.length (by simp at hlength; omega) rest rfl
      have hfolded : kBackslash ∉ C.fold component := fun h =>
        hcomponent ((hC.mem_fold hslash component).mp h)
      rw [hC.fold_mark kBackslash hslash, List.splitOn_append_cons_self_of_not_mem hfolded,
        List.splitOn_append_cons_self_of_not_mem hcomponent, hrest, List.map_cons]
    · have hfolded : kBackslash ∉ C.fold a := fun h => hmem ((hC.mem_fold hslash a).mp h)
      rw [List.splitOn_eq_singleton hfolded, List.splitOn_eq_singleton hmem]
      rfl

theorem isSafeRelativePath_fold (a : WideString) :
    isSafeRelativePath (C.fold a) = isSafeRelativePath a := by
  have hparents : noParentComponent (C.fold a) = noParentComponent a := by
    rw [Bool.eq_iff_iff, noParentComponent_iff, noParentComponent_iff, hC.splitOn_fold,
      List.mem_map]
    apply not_congr
    constructor
    · rintro ⟨component, hmem, hfold⟩
      exact (hC.fold_eq_dotDot component).mp hfold ▸ hmem
    · intro hmem
      exact ⟨kDotDot, hmem, (hC.fold_eq_dotDot kDotDot).mpr rfl⟩
  unfold isSafeRelativePath
  rw [isEmpty_fold, hC.contains_fold (by decide), hparents]

theorem sameName_fold (a : WideString) :
    SameName C (C.fold a) kReservedStream ↔ SameName C a kReservedStream := by
  unfold SameName
  rw [C.length_fold, hC.same_reserved]

theorem isReservedStreamName_fold (a : WideString) :
    isReservedStreamName C (C.fold a) = isReservedStreamName C a := by
  have hdot : kDot ∈ pathMarks := by decide
  rw [Bool.eq_iff_iff, isReservedStreamName_iff, isReservedStreamName_iff, hC.sameName_fold]
  apply or_congr_right
  constructor
  · rintro ⟨start, rest, heq, hstart⟩
    -- The dot of the folded name is a dot of the name, at the same place.
    have hplace : (C.fold a)[start.length]? = some kDot := by
      rw [heq, List.getElem?_append_right (Nat.le_refl _), Nat.sub_self]
      rfl
    obtain ⟨hlt, hat⟩ := List.getElem?_eq_some_iff.mp
      (hC.mark_of_fold kDot hdot a start.length hplace)
    have hsplit : a = a.take start.length ++ kDot :: a.drop (start.length + 1) := by
      rw [← hat, ← List.drop_eq_getElem_cons hlt, List.take_append_drop]
    refine ⟨a.take start.length, a.drop (start.length + 1), hsplit, ?_⟩
    rw [hsplit, hC.fold_mark kDot hdot] at heq
    have hfirst := (List.append_inj heq (by
      rw [C.length_fold, List.length_take]
      omega)).1
    rw [← hC.sameName_fold, hfirst]
    exact hstart
  · rintro ⟨start, rest, rfl, hstart⟩
    exact ⟨C.fold start, C.fold rest, hC.fold_mark kDot hdot start rest,
      (hC.sameName_fold start).mpr hstart⟩

theorem streamNameOk_fold (a : WideString) : streamNameOk C (C.fold a) = streamNameOk C a := by
  unfold streamNameOk
  rw [isEmpty_fold, hC.contains_fold (by decide), hC.isReservedStreamName_fold]

theorem wcsicmpEqual_fold {a : WideString} (hnul : kNul ∉ a) :
    wcsicmpEqual (C.fold a) kDataType = wcsicmpEqual a kDataType := by
  have hfolded : kNul ∉ C.fold a := fun h => hnul ((hC.mem_fold (by decide) a).mp h)
  rw [Bool.eq_iff_iff, wcsicmpEqual_iff hfolded, wcsicmpEqual_iff hnul]
  exact hC.same_dataType a

/-- The parse of a folded text is the folded parse. -/
theorem tryParseStreamPath_fold {s : WideString} (hnul : kNul ∉ s) :
    tryParseStreamPath C (C.fold s)
      = (tryParseStreamPath C s).map fun parts => (C.fold parts.1, C.fold parts.2) := by
  have hcolon : kColon ∈ pathMarks := by decide
  have hkeeps : ∀ {a : WideString}, kColon ∉ a → kColon ∉ C.fold a := fun h hmem =>
    h ((hC.mem_fold hcolon _).mp hmem)
  obtain hplain | ⟨host, name, hhost, hname, rfl⟩ | ⟨host, name, streamType, hhost, hname, rfl⟩ :=
    colon_cases s
  · rw [tryParseStreamPath_plain C (hkeeps hplain), tryParseStreamPath_plain C hplain,
      hC.isSafeRelativePath_fold]
    split
    · simp [C.fold_nil]
    · rfl
  · rw [hC.fold_mark kColon hcolon, tryParseStreamPath_stream C (hkeeps hhost) (hkeeps hname),
      tryParseStreamPath_stream C hhost hname, hC.isSafeRelativePath_fold, hC.streamNameOk_fold]
    split
    · simp [hC.fold_cons hcolon]
    · rfl
  · have htype : kNul ∉ streamType := fun hmem => hnul (by simp [hmem])
    rw [hC.fold_mark kColon hcolon, hC.fold_mark kColon hcolon,
      tryParseStreamPath_typed C (hkeeps hhost) (hkeeps hname),
      tryParseStreamPath_typed C hhost hname, hC.isSafeRelativePath_fold, hC.streamNameOk_fold,
      isEmpty_fold, hC.contains_fold hcolon, hC.wcsicmpEqual_fold htype]
    split
    · simp [hC.fold_cons hcolon, hC.fold_mark kColon hcolon]
    · rfl

end HostCase.Lawful

/-- A change of separators and their removal at the ends make no NUL. -/
theorem not_mem_normalizePathPreserveCase {p : WideString} (hnul : kNul ∉ p) :
    kNul ∉ normalizePathPreserveCase p := by
  intro h
  have hmap := (List.dropWhile_sublist _).subset ((List.rdropWhile_prefix _ _).subset h)
  obtain ⟨u, hu, heq⟩ := List.mem_map.mp hmap
  split at heq
  · exact absurd heq (by decide)
  · exact hnul (heq ▸ hu)

/-- Of the texts without NUL the parser takes those of the grammar, host and suffix are the
text, and a caller's path parses as its folded form does. -/
theorem streamPath_grammar (C : HostCase) :
    (∀ s, kNul ∉ s → ∀ host suffix,
      tryParseStreamPath C s = some (host, suffix) ↔ StreamGrammar C s host suffix) ∧
    (∀ s, kNul ∉ s → ∀ host suffix,
      tryParseStreamPath C s = some (host, suffix) → host ++ suffix = s) ∧
    (C.Lawful → ∀ p, kNul ∉ p →
      (parseStreamPath C p).map (fun path => (path.hostNorm, path.streamSuffix))
        = tryParseStreamPath C (normalizePath C.toCaseFold p)) := by
  refine ⟨fun s hnul => tryParseStreamPath_iff C hnul, ?_, ?_⟩
  · intro s hnul host suffix h
    exact ((tryParseStreamPath_iff C hnul host suffix).mp h).append_eq
  · intro hC p hnul
    unfold normalizePath parseStreamPath
    rw [hC.tryParseStreamPath_fold (not_mem_normalizePathPreserveCase hnul)]
    cases tryParseStreamPath C (normalizePathPreserveCase p) with
    | none => rfl
    | some parts => rfl

/-- ASCII case alone. -/
def asciiCase : HostCase where
  toCaseFold := asciiLower
  ordinalEqual a b := a.map asciiLowerUnit = b.map asciiLowerUnit

theorem map_asciiLowerUnit_fold (a : WideString) :
    (asciiLower.fold a).map asciiLowerUnit = a.map asciiLowerUnit := by
  show (a.map asciiLowerUnit).map asciiLowerUnit = a.map asciiLowerUnit
  rw [List.map_map]
  exact List.map_congr_left fun u _ => asciiLowerUnit_lower u

theorem asciiCase_lawful : asciiCase.Lawful where
  fold_mark := by
    intro m hm a b
    have hmark : asciiLowerUnit m = m := by
      have hall : pathMarks.all (fun m => asciiLowerUnit m = m) = true := by decide
      exact of_decide_eq_true (List.all_eq_true.mp hall m hm)
    show (a ++ m :: b).map asciiLowerUnit = a.map asciiLowerUnit ++ m :: b.map asciiLowerUnit
    rw [List.map_append, List.map_cons, hmark]
  mark_of_fold := by
    intro m hm a i h
    change (a.map asciiLowerUnit)[i]? = some m at h
    rw [List.getElem?_map, Option.map_eq_some_iff] at h
    obtain ⟨u, hu, hfold⟩ := h
    have hlow : pathMarks.all (fun m => m.toNat < 0x61) = true := by decide
    have hsame := eq_of_asciiLowerUnit hfold (of_decide_eq_true (List.all_eq_true.mp hlow m hm))
    rw [hu, hsame]
  same_reserved := by
    intro a
    exact decide_eq_decide.mpr (Eq.congr_left (map_asciiLowerUnit_fold a))
  same_dataType := by
    intro a
    unfold DataType
    rw [show asciiCase.fold a = asciiLower.fold a from rfl, map_asciiLowerUnit_fold]

def notesStream : WideString := encodeUtf16 "\\Docs/A.txt:Notes:$data".toList

theorem streamPath_grammar_notes :
    (tryParseStreamPath asciiCase (encodeUtf16 "docs\\a.txt:notes".toList)
        = some (encodeUtf16 "docs\\a.txt".toList, encodeUtf16 ":notes".toList) ↔
      StreamGrammar asciiCase (encodeUtf16 "docs\\a.txt:notes".toList)
        (encodeUtf16 "docs\\a.txt".toList) (encodeUtf16 ":notes".toList)) ∧
      (parseStreamPath asciiCase notesStream).map (fun path => (path.hostNorm, path.streamSuffix))
        = tryParseStreamPath asciiCase (normalizePath asciiLower notesStream) :=
  ⟨(streamPath_grammar asciiCase).1 _ (by decide) _ _,
    (streamPath_grammar asciiCase).2.2 asciiCase_lawful notesStream (by decide)⟩

end LayerMount.PathText
