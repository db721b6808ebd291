import LayerMount.CachePaths

/-!
# Host paths

The texts of `HostPath.cpp` and `LayerPath.cpp` that name a directory of the machine: the
extended form that Windows opens, and the form that two directories are compared in.

Windows takes an extended path as it is written.  Every other path goes through
`GetFullPathNameW`, which also drops the spaces and periods that a path ends in.  A full
path that needs only the prefix keeps its names (`withExtendedPrefix_join`), and the comparable
form of a final path is the folded path where `GetFullPathNameW` leaves it as it is
(`comparablePath_final`).
-/

namespace LayerMount.WorkDir

open Lib PathText

/-- A place of the host: the names from the volume down.  A share is below the name
`UNC`. -/
abbrev Location := List WideString

def kExtended : WideString := encodeUtf16 "\\\\?\\".toList

def kExtendedUnc : WideString := encodeUtf16 "\\\\?\\UNC\\".toList

def kDevice : WideString := encodeUtf16 "\\\\.\\".toList

def kUnc : WideString := encodeUtf16 "\\\\".toList

def kUncName : WideString := encodeUtf16 "UNC".toList

/-! ## The source's functions -/

def dirWithSeparator (dirPath : WideString) : WideString :=
  if dirPath.getLast? = some kBackslash then dirPath else dirPath ++ [kBackslash]

def joinDirPath (dirPath relativePath : WideString) : WideString :=
  dirWithSeparator dirPath ++ relativePath

/-- Where the components of a full path start. -/
def fullPathStart (path : WideString) : Option Nat :=
  if path.length ≥ 3 && path[1]? = some kColon && path[2]? = some kBackslash then some 3
  else if kUnc.isPrefixOf path && path.length > kUnc.length &&
      path[kUnc.length]? ≠ some kBackslash then some kUnc.length
  else none

def isFullPathAsWritten (path : WideString) : Bool :=
  match fullPathStart path with
  | none => false
  | some start =>
    !path.contains kSlash && ((path.drop start).splitOn kBackslash).all fun component =>
      !(component.isEmpty || component = [kDot] || component = kDotDot)

def withoutExtendedPrefix (path : WideString) : WideString :=
  if kExtendedUnc.isPrefixOf path then kUnc ++ path.drop kExtendedUnc.length
  else if kExtended.isPrefixOf path && path.length ≥ kExtended.length + 2 &&
      path[kExtended.length + 1]? = some kColon then path.drop kExtended.length
  else path

section

variable (fullPathName : WideString → Option WideString)

def withExtendedPrefix (path : WideString) : WideString :=
  if kExtended.isPrefixOf path || kDevice.isPrefixOf path then path
  else
    match if isFullPathAsWritten path then some path else fullPathName path with
    | none => path
    | some full =>
      if kUnc.isPrefixOf full then kExtendedUnc ++ full.drop kUnc.length else kExtended ++ full

def comparablePath (F : CaseFold) (path : WideString) : WideString :=
  let plain := withoutExtendedPrefix (path.map fun u => if u = kSlash then kBackslash else u)
  F.fold (((fullPathName plain).getD plain).rdropWhile (· = kBackslash))

end

/-- The names of a path in extended form.  An open takes one separator at its end. -/
def extendedNames (path : WideString) : Location :=
  let body := path.drop kExtended.length
  if body.isEmpty then []
  else (if body.getLast? = some kBackslash then body.dropLast else body).splitOn kBackslash

/-- A name that a directory can hold. -/
def isEntryName (name : WideString) : Bool :=
  !name.isEmpty && !name.contains kBackslash && !name.contains kSlash && name ≠ [kDot] &&
    name ≠ kDotDot

/-- The folding goes on over a separator. -/
def KeepsSeparators (F : CaseFold) : Prop :=
  ∀ a b, F.fold (a ++ kBackslash :: b) = F.fold a ++ kBackslash :: F.fold b

theorem keepsSeparators_asciiLower : KeepsSeparators asciiLower :=
  asciiCase_lawful.fold_mark kBackslash (by decide)

/-! ## Names below a path -/

structure EntryName (name : WideString) : Prop where
  ne_nil : name ≠ []
  noBackslash : kBackslash ∉ name
  noSlash : kSlash ∉ name
  ne_dot : name ≠ [kDot]
  ne_dotdot : name ≠ kDotDot

theorem isEntryName_iff (name : WideString) : isEntryName name = true ↔ EntryName name := by
  unfold isEntryName
  simp only [Bool.and_eq_true, Bool.not_eq_true', List.isEmpty_eq_false_iff,
    List.contains_eq_mem, decide_eq_false_iff_not, decide_eq_true_eq]
  constructor
  · intro h
    exact ⟨h.1.1.1.1, h.1.1.1.2, h.1.1.2, h.1.2, h.2⟩
  · intro h
    exact ⟨⟨⟨⟨h.ne_nil, h.noBackslash⟩, h.noSlash⟩, h.ne_dot⟩, h.ne_dotdot⟩

theorem EntryName.getLast?_ne {name : WideString} (h : EntryName name) :
    name.getLast? ≠ some kBackslash := fun hlast => h.noBackslash (List.mem_of_getLast? hlast)

variable {path name : WideString}

theorem extendedNames_body {body : WideString} (hne : body ≠ []) :
    extendedNames (kExtended ++ body) =
      (if body.getLast? = some kBackslash then body.dropLast else body).splitOn kBackslash := by
  unfold extendedNames
  dsimp only
  rw [List.drop_left, List.isEmpty_eq_false_iff.mpr hne, if_neg Bool.false_ne_true]

theorem extendedNames_concat (hname : EntryName name) (front : WideString) :
    extendedNames (kExtended ++ (front ++ kBackslash :: name)) =
      front.splitOn kBackslash ++ [name] := by
  have hlast : (front ++ kBackslash :: name).getLast? = name.getLast? := by
    rw [List.append_cons, List.getLast?_append_of_ne_nil _ hname.ne_nil]
  rw [extendedNames_body (by simp), hlast, if_neg hname.getLast?_ne,
    List.splitOn_append_cons_self, List.splitOn_eq_singleton hname.noBackslash]

/-- The names of an extended path, with one more. -/
theorem extendedNames_join (hpath : kExtended <+: path) (hname : EntryName name) :
    extendedNames (joinDirPath path name) = extendedNames path ++ [name] := by
  obtain ⟨body, rfl⟩ := hpath
  by_cases hbody : body = []
  · subst hbody
    show extendedNames (kExtended ++ name) = [name]
    rw [extendedNames_body hname.ne_nil, if_neg hname.getLast?_ne,
      List.splitOn_eq_singleton hname.noBackslash]
  · have hlast : (kExtended ++ body).getLast? = body.getLast? :=
      List.getLast?_append_of_ne_nil _ hbody
    unfold joinDirPath dirWithSeparator
    rw [hlast, extendedNames_body hbody]
    by_cases hsep : body.getLast? = some kBackslash
    · have hsplit : body.dropLast ++ [kBackslash] = body := List.dropLast_append_getLast? _ hsep
      have hjoined : kExtended ++ body ++ name
          = kExtended ++ (body.dropLast ++ kBackslash :: name) := by
        rw [List.append_assoc, List.append_cons body.dropLast, hsplit]
      rw [if_pos hsep, if_pos hsep, hjoined, extendedNames_concat hname]
    · rw [if_neg hsep, if_neg hsep, List.append_assoc, List.append_assoc, List.singleton_append,
        extendedNames_concat hname]

/-! ## Full paths as written -/

theorem fullPathStart_le {start : Nat} (h : fullPathStart path = some start) :
    start ≤ path.length := by
  unfold fullPathStart at h
  split at h
  · next hdrive =>
    cases h
    simp only [Bool.and_eq_true, decide_eq_true_eq] at hdrive
    omega
  · split at h
    · next hshare =>
      cases h
      simp only [Bool.and_eq_true, decide_eq_true_eq] at hshare
      omega
    · exact absurd h nofun

/-- What starts a full path starts it with a name below it. -/
theorem fullPathStart_append {start : Nat} (h : fullPathStart path = some start)
    (rest : WideString) : fullPathStart (path ++ rest) = some start := by
  have hget : ∀ (i : Nat) (u : UInt16), path[i]? = some u → (path ++ rest)[i]? = some u := by
    intro i u hu
    obtain ⟨hi, -⟩ := List.getElem?_eq_some_iff.mp hu
    rw [List.getElem?_append_left hi, hu]
  unfold fullPathStart at h ⊢
  rw [List.length_append]
  split at h
  · next hdrive =>
    simp only [Bool.and_eq_true, decide_eq_true_eq] at hdrive
    rw [if_pos]
    · exact h
    · simp only [Bool.and_eq_true, decide_eq_true_eq]
      exact ⟨⟨by omega, hget _ _ hdrive.1.2⟩, hget _ _ hdrive.2⟩
  · next hdrive =>
    split at h
    · next hshare =>
      simp only [Bool.and_eq_true, decide_eq_true_eq, List.isPrefixOf_iff_prefix] at hshare
      obtain ⟨⟨hunc, hlonger⟩, hmark⟩ := hshare
      have hsecond : path[1]? = some kBackslash := by
        obtain ⟨tail, rfl⟩ := hunc
        rfl
      rw [if_neg, if_pos]
      · exact h
      · simp only [Bool.and_eq_true, decide_eq_true_eq, List.isPrefixOf_iff_prefix]
        refine ⟨⟨hunc.trans (List.prefix_append _ _), by omega⟩, ?_⟩
        rw [List.getElem?_append_left hlonger]
        exact hmark
      · simp only [Bool.and_eq_true, decide_eq_true_eq]
        intro hcolon
        rw [hget _ _ hsecond] at hcolon
        exact absurd hcolon.1.2 (by decide)
    · exact absurd h nofun

theorem isFullPathAsWritten_iff (path : WideString) :
    isFullPathAsWritten path = true ↔ ∃ start, fullPathStart path = some start ∧ kSlash ∉ path ∧
      ∀ c ∈ (path.drop start).splitOn kBackslash, c ≠ [] ∧ c ≠ [kDot] ∧ c ≠ kDotDot := by
  unfold isFullPathAsWritten
  cases hstart : fullPathStart path with
  | none => simp
  | some start =>
    simp only [Option.some.injEq, exists_eq_left', Bool.and_eq_true, Bool.not_eq_true',
      List.contains_eq_mem, decide_eq_false_iff_not, List.all_eq_true, Bool.or_eq_false_iff,
      List.isEmpty_eq_false_iff]
    apply and_congr_right
    intro _
    exact forall₂_congr fun c _ => and_assoc

/-- A full path as written ends in no separator. -/
theorem getLast?_of_asWritten (h : isFullPathAsWritten path = true) :
    path.getLast? ≠ some kBackslash := by
  obtain ⟨start, -, -, hnames⟩ := (isFullPathAsWritten_iff path).mp h
  intro hlast
  have hrest : path.drop start ≠ [] := by
    intro hnil
    rw [hnil] at hnames
    exact (hnames [] (by simp)).1 rfl
  have hends : (path.drop start).getLast? = some kBackslash := by
    rw [← List.take_append_drop start path, List.getLast?_append_of_ne_nil _ hrest] at hlast
    exact hlast
  have hsplit := List.dropLast_append_getLast? _ hends
  rw [← hsplit, List.splitOn_append_cons_self] at hnames
  exact (hnames [] (by simp)).1 rfl

theorem joinDirPath_of_asWritten (h : isFullPathAsWritten path = true) :
    joinDirPath path name = path ++ kBackslash :: name := by
  unfold joinDirPath dirWithSeparator
  rw [if_neg (getLast?_of_asWritten h), List.append_assoc, List.singleton_append]

theorem isFullPathAsWritten_join (h : isFullPathAsWritten path = true) (hname : EntryName name) :
    isFullPathAsWritten (joinDirPath path name) = true := by
  rw [joinDirPath_of_asWritten h]
  obtain ⟨start, hstart, hslash, hnames⟩ := (isFullPathAsWritten_iff path).mp h
  refine (isFullPathAsWritten_iff _).mpr ⟨start, fullPathStart_append hstart _, ?_, ?_⟩
  · rw [List.mem_append, List.mem_cons]
    intro hmem
    obtain hmem | hmem | hmem := hmem
    · exact hslash hmem
    · exact absurd hmem (by decide)
    · exact hname.noSlash hmem
  · intro c hc
    rw [List.drop_append_of_le_length (fullPathStart_le hstart), List.splitOn_append_cons_self,
      List.splitOn_eq_singleton hname.noBackslash, List.mem_append, List.mem_singleton] at hc
    obtain hc | rfl := hc
    · exact hnames c hc
    · exact ⟨hname.ne_nil, hname.ne_dot, hname.ne_dotdot⟩

section

variable {fullPathName : WideString → Option WideString}

theorem withExtendedPrefix_of_extended (h : kExtended <+: path) :
    withExtendedPrefix fullPathName path = path := by
  unfold withExtendedPrefix
  rw [if_pos]
  rw [List.isPrefixOf_iff_prefix.mpr h, Bool.true_or]

/-- What `WithExtendedPrefix` puts before a full path. -/
theorem withExtendedPrefix_of_asWritten (h : isFullPathAsWritten path = true)
    (hextended : ¬ kExtended <+: path) (hdevice : ¬ kDevice <+: path) :
    withExtendedPrefix fullPathName path =
      if kUnc.isPrefixOf path then kExtendedUnc ++ path.drop kUnc.length
      else kExtended ++ path := by
  unfold withExtendedPrefix
  rw [if_neg, if_pos h]
  rw [Bool.or_eq_true, List.isPrefixOf_iff_prefix, List.isPrefixOf_iff_prefix]
  exact fun hor => hor.elim hextended hdevice

theorem joinDirPath_append (front : WideString) {back : WideString} (hne : back ≠ []) :
    joinDirPath (front ++ back) name = front ++ joinDirPath back name := by
  unfold joinDirPath dirWithSeparator
  rw [List.getLast?_append_of_ne_nil _ hne]
  split
  · exact List.append_assoc _ _ _
  · rw [List.append_assoc, List.append_assoc, List.append_assoc]

theorem prefix_append_iff {front rest : WideString} (h : front.length ≤ path.length) :
    front <+: path ++ rest ↔ front <+: path :=
  ⟨fun hfront => List.prefix_of_prefix_length_le hfront (List.prefix_append _ _) h,
    fun hfront => hfront.trans (List.prefix_append _ _)⟩

/-- The extended form of a full path that is longer than a prefix keeps a name below it. -/
theorem withExtendedPrefix_join (hlength : kExtended.length ≤ path.length)
    (hpath : kExtended <+: path ∨ isFullPathAsWritten path = true ∧ ¬ kDevice <+: path)
    (hname : EntryName name) :
    withExtendedPrefix fullPathName (joinDirPath path name)
      = joinDirPath (withExtendedPrefix fullPathName path) name := by
  by_cases hextended : kExtended <+: path
  · have hjoined : kExtended <+: joinDirPath path name := by
      unfold joinDirPath dirWithSeparator
      split
      · exact hextended.trans (List.prefix_append _ _)
      · exact (hextended.trans (List.prefix_append _ _)).trans (List.prefix_append _ _)
    rw [withExtendedPrefix_of_extended hextended, withExtendedPrefix_of_extended hjoined]
  · obtain ⟨hfull, hdevice⟩ := hpath.resolve_left hextended
    have hkept : kDevice.length = kExtended.length := by decide
    have hunc : kUnc.length + 2 = kExtended.length := by decide
    rw [withExtendedPrefix_of_asWritten hfull hextended hdevice,
      withExtendedPrefix_of_asWritten (isFullPathAsWritten_join hfull hname)]
    · have hjoined := @joinDirPath_of_asWritten path name hfull
      have hsame : kUnc.isPrefixOf (joinDirPath path name) = kUnc.isPrefixOf path := by
        rw [Bool.eq_iff_iff, List.isPrefixOf_iff_prefix, List.isPrefixOf_iff_prefix, hjoined,
          prefix_append_iff (by omega)]
      rw [hsame]
      split
      · have hrest : path.drop kUnc.length ≠ [] := by
          rw [ne_eq, List.drop_eq_nil_iff]
          omega
        have hback : joinDirPath (path.drop kUnc.length) name
            = path.drop kUnc.length ++ kBackslash :: name := by
          unfold joinDirPath dirWithSeparator
          rw [if_neg, List.append_assoc, List.singleton_append]
          rw [← List.getLast?_append_of_ne_nil (path.take kUnc.length) hrest,
            List.take_append_drop]
          exact getLast?_of_asWritten hfull
        rw [joinDirPath_append _ hrest, hjoined, hback,
          List.drop_append_of_le_length (by omega)]
      · have hne : path ≠ [] := by
          rw [ne_eq, ← List.length_eq_zero_iff]
          omega
        rw [joinDirPath_append _ hne]
    · rw [joinDirPath_of_asWritten hfull, prefix_append_iff hlength]
      exact hextended
    · rw [joinDirPath_of_asWritten hfull, prefix_append_iff (by omega)]
      exact hdevice

end

/-! ## Final paths -/

/-- The form of the places that `GetFinalPathNameByHandleW` names: below a drive or a
share. -/
structure FinalForm (loc : Location) : Prop where
  names : ∀ c ∈ loc, EntryName c
  root : (∃ letter rest, loc = [letter, kColon] :: rest) ∨
    ∃ server share rest, loc = kUncName :: server :: share :: rest

/-- `text` is the final path of the place.  A volume's root has a separator at its end. -/
structure IsFinalPath (text : WideString) (loc : Location) : Prop extends FinalForm loc where
  text_eq : text = kExtended ++ [kBackslash].intercalate loc ∨
    text = kExtended ++ [kBackslash].intercalate loc ++ [kBackslash]

/-- `GetFullPathNameW` fails on a final path without its prefix, or gives it back. -/
def KeepsFinalPath (fullPathName : WideString → Option WideString) (text : WideString) : Prop :=
  fullPathName (withoutExtendedPrefix text) = none ∨
    fullPathName (withoutExtendedPrefix text) = some (withoutExtendedPrefix text)

instance (fullPathName : WideString → Option WideString) (text : WideString) :
    Decidable (KeepsFinalPath fullPathName text) := inferInstanceAs (Decidable (_ ∨ _))

/-- A place without the name that stands for the prefix. -/
def plainPath (loc : Location) : WideString :=
  if loc.head? = some kUncName then kUnc ++ [kBackslash].intercalate loc.tail
  else [kBackslash].intercalate loc

variable {loc : Location}

theorem FinalForm.ne_nil (h : FinalForm loc) : loc ≠ [] := by
  obtain ⟨letter, rest, rfl⟩ | ⟨server, share, rest, rfl⟩ := h.root
  · exact List.cons_ne_nil _ _
  · exact List.cons_ne_nil _ _

/-- The prefix of a share goes on where that of a drive has its colon. -/
theorem withoutExtendedPrefix_drive (letter : UInt16) (rest : WideString) :
    withoutExtendedPrefix (kExtended ++ letter :: kColon :: rest) = letter :: kColon :: rest := by
  have hcolon : (kExtended ++ letter :: kColon :: rest)[kExtended.length + 1]? = some kColon := by
    rw [List.getElem?_append_right (Nat.le_succ _)]
    simp
  have hunc : ¬ kExtendedUnc <+: kExtended ++ letter :: kColon :: rest := by
    intro h
    obtain ⟨tail, htail⟩ := h
    rw [← htail, List.getElem?_append_left (by decide)] at hcolon
    exact absurd hcolon (by decide)
  unfold withoutExtendedPrefix
  rw [if_neg (by rw [List.isPrefixOf_iff_prefix]; exact hunc), if_pos, List.drop_left]
  rw [Bool.and_eq_true, Bool.and_eq_true, List.isPrefixOf_iff_prefix, decide_eq_true_eq,
    decide_eq_true_eq]
  refine ⟨⟨List.prefix_append _ _, ?_⟩, hcolon⟩
  rw [List.length_append, List.length_cons, List.length_cons]
  omega

theorem withoutExtendedPrefix_share (rest : WideString) :
    withoutExtendedPrefix (kExtendedUnc ++ rest) = kUnc ++ rest := by
  unfold withoutExtendedPrefix
  rw [if_pos (List.isPrefixOf_iff_prefix.mpr (List.prefix_append _ _)), List.drop_left]

theorem plainPath_drive (letter : UInt16) (rest : Location) :
    plainPath ([letter, kColon] :: rest) = [kBackslash].intercalate ([letter, kColon] :: rest) := by
  unfold plainPath
  rw [if_neg]
  intro hhead
  have hlength : 2 = kUncName.length := congrArg List.length (Option.some.inj hhead)
  exact absurd hlength (by decide)

theorem plainPath_share (rest : Location) :
    plainPath (kUncName :: rest) = kUnc ++ [kBackslash].intercalate rest := if_pos rfl

theorem withoutExtendedPrefix_final (h : FinalForm loc) (sep : WideString) :
    withoutExtendedPrefix (kExtended ++ [kBackslash].intercalate loc ++ sep)
      = plainPath loc ++ sep := by
  obtain ⟨letter, rest, rfl⟩ | ⟨server, share, rest, rfl⟩ := h.root
  · obtain ⟨back, hback⟩ := joined_cons [letter, kColon] rest
    rw [plainPath_drive, hback, List.append_assoc]
    exact withoutExtendedPrefix_drive letter (back ++ sep)
  · have hprefix : kExtended ++ (kUncName ++ [kBackslash]) = kExtendedUnc := by decide
    rw [plainPath_share, intercalate_cons_cons, List.append_cons kUncName, ← List.append_assoc,
      hprefix, List.append_assoc, withoutExtendedPrefix_share, List.append_assoc]

theorem getLast?_plainPath (h : FinalForm loc) : (plainPath loc).getLast? ≠ some kBackslash := by
  have hnames : ∀ c ∈ loc, c ≠ [] ∧ kBackslash ∉ c := fun c hc =>
    ⟨(h.names c hc).ne_nil, (h.names c hc).noBackslash⟩
  obtain ⟨letter, rest, rfl⟩ | ⟨server, share, rest, rfl⟩ := h.root
  · rw [plainPath_drive]
    exact getLast?_joined hnames
  · have hbelow := (List.forall_mem_cons.mp hnames).2
    have hne := @joined_ne_nil server (share :: rest) (hbelow server List.mem_cons_self).1
    rw [plainPath_share, List.getLast?_append_of_ne_nil _ hne]
    exact getLast?_joined hbelow

/-- The folded form of a final path that `GetFullPathNameW` keeps. -/
theorem comparablePath_final {fullPathName : WideString → Option WideString} (F : CaseFold)
    {text : WideString} (h : IsFinalPath text loc) (hkept : KeepsFinalPath fullPathName text) :
    comparablePath fullPathName F text = F.fold (plainPath loc) := by
  obtain ⟨sep, hsep, htext⟩ : ∃ sep, (sep = [] ∨ sep = [kBackslash]) ∧
      text = kExtended ++ [kBackslash].intercalate loc ++ sep := by
    obtain heq | heq := h.text_eq
    · exact ⟨[], .inl rfl, by rw [heq, List.append_nil]⟩
    · exact ⟨[kBackslash], .inr rfl, heq⟩
  have hslash : ∀ u ∈ text, (if u = kSlash then kBackslash else u) = u := by
    intro u hu
    apply if_neg
    rintro rfl
    rw [htext, List.append_assoc, List.mem_append, List.mem_append] at hu
    obtain hu | hu | hu := hu
    · exact absurd hu (by decide)
    · obtain hmark | ⟨c, hc, hmem⟩ := mem_intercalate hu
      · exact absurd hmark (by decide)
      · exact (h.names c hc).noSlash hmem
    · obtain rfl | rfl := hsep
      · exact List.not_mem_nil hu
      · exact absurd hu (by decide)
  have hplain : (fullPathName (withoutExtendedPrefix text)).getD (withoutExtendedPrefix text)
      = withoutExtendedPrefix text := by
    obtain hnone | hsome := hkept
    · rw [hnone, Option.getD_none]
    · rw [hsome, Option.getD_some]
  have hlast := getLast?_plainPath h.toFinalForm
  have hstrip : (plainPath loc ++ sep).rdropWhile (· = kBackslash) = plainPath loc := by
    have hkeeps : (plainPath loc).rdropWhile (· = kBackslash) = plainPath loc := by
      rw [List.rdropWhile_eq_self_iff]
      intro hne hends
      rw [List.getLast?_eq_some_getLast hne] at hlast
      exact hlast (congrArg some (of_decide_eq_true hends))
    obtain rfl | rfl := hsep
    · rw [List.append_nil, hkeeps]
    · rw [List.rdropWhile_concat, decide_eq_true rfl, if_pos rfl, hkeeps]
  unfold comparablePath
  rw [(List.map_congr_left hslash).trans (List.map_id' _)]
  dsimp only
  rw [hplain, htext, withoutExtendedPrefix_final h.toFinalForm, hstrip]

/-- Below a place are the paths that go on with a separator. -/
theorem plainPath_append {rest : Location} (h : FinalForm loc) (hne : rest ≠ []) :
    plainPath (loc ++ rest) = plainPath loc ++ kBackslash :: [kBackslash].intercalate rest := by
  obtain ⟨letter, names, rfl⟩ | ⟨server, share, names, rfl⟩ := h.root
  · rw [List.cons_append, plainPath_drive, plainPath_drive, ← List.cons_append,
      joined_append (List.cons_ne_nil _ _) hne]
  · rw [List.cons_append, plainPath_share, plainPath_share,
      joined_append (List.cons_ne_nil _ _) hne, List.append_assoc]

end LayerMount.WorkDir
