import LayerMount.StreamPath

/-!
# The paths of the cache

What `Cache.cpp` takes from a path as text: `IsInsideDirectory`, and the walk up that
`InvalidateWithAncestors` makes with `std::filesystem::path`.

A key is a path of components.  `below_iff` says when one is at or below another, as
texts; `mem_ancestors_iff` says where the walk gives the proper ancestors.  It reads two
characters at the start as a drive.
-/

namespace LayerMount.PathText

open Lib

/-! ## The source's functions -/

def isInsideDirectory (pathNorm dirNorm : WideString) : Bool :=
  pathNorm.length > dirNorm.length && pathNorm.take dirNorm.length = dirNorm &&
    pathNorm[dirNorm.length]? = some kBackslash

/-- A separator of `std::filesystem::path`. -/
def isSlash (u : UInt16) : Bool := u = kBackslash || u = kSlash

/-- A letter of either case and a colon. -/
def hasDrivePrefix : WideString → Bool
  | letter :: colon :: _ => 0x41 ≤ letter &&& 0xFFDF && letter &&& 0xFFDF ≤ 0x5A && colon = kColon
  | _ => false

/-- Where the relative path of a `path` starts: behind the root name and the separators
that follow it.  A text that starts with no separator has no root name but a drive. -/
def relativeStart (path : WideString) : Nat :=
  let root := if hasDrivePrefix path then 2 else 0
  root + ((path.drop root).takeWhile isSlash).length

/-- A relative path without its last name and the separators before that. -/
def parentName (relative : WideString) : WideString :=
  (relative.rdropWhile fun u => !isSlash u).rdropWhile isSlash

/-- `path::parent_path`. -/
def parentPath (path : WideString) : WideString :=
  path.take (relativeStart path) ++ parentName (path.drop (relativeStart path))

theorem parentName_isPrefixOf (relative : WideString) : parentName relative <+: relative :=
  (List.rdropWhile_prefix _ _).trans (List.rdropWhile_prefix _ _)

theorem parentPath_isPrefixOf (path : WideString) : parentPath path <+: path := by
  have h := (List.prefix_append_right_inj (path.take (relativeStart path))).mpr
    (parentName_isPrefixOf (path.drop (relativeStart path)))
  rw [List.take_append_drop] at h
  exact h

/-- The loop of `InvalidateWithAncestors`: the path, and what is above it. -/
def ancestorsFrom (ancestor : WideString) : List WideString :=
  if ancestor.isEmpty then []
  else if parentPath ancestor = ancestor then [ancestor]
  else ancestor :: ancestorsFrom (parentPath ancestor)
termination_by ancestor.length
decreasing_by
  have hle := (parentPath_isPrefixOf ancestor).length_le
  have hne : (parentPath ancestor).length ≠ ancestor.length := fun heq =>
    absurd ((parentPath_isPrefixOf ancestor).eq_of_length heq) (by assumption)
  omega

def ancestors (key : WideString) : List WideString := ancestorsFrom (parentPath key)

/-! ## Paths of components -/

/-- The components of a path in `NormalizePath` form; the root has none. -/
def keyComponents (key : WideString) : List WideString :=
  if key = [] then [] else key.splitOn kBackslash

/-- `key` is `dir` or an entry below it. -/
def Below (key dir : WideString) : Prop := keyComponents dir <+: keyComponents key

instance (key dir : WideString) : Decidable (Below key dir) :=
  inferInstanceAs (Decidable (_ <+: _))

/-- A text that no separator starts or ends, and that has none but `\`. -/
structure NormalKey (key : WideString) : Prop where
  head : key.head? ≠ some kBackslash
  last : key.getLast? ≠ some kBackslash
  noSlash : kSlash ∉ key

theorem below_root (key : WideString) : Below key [] := List.nil_prefix

theorem joined_append {front back : List WideString} (hfront : front ≠ []) (hback : back ≠ []) :
    [kBackslash].intercalate (front ++ back)
      = [kBackslash].intercalate front ++ kBackslash :: [kBackslash].intercalate back := by
  induction front with
  | nil => exact absurd rfl hfront
  | cons c front ih =>
    cases front with
    | nil =>
      rw [List.singleton_append, List.intercalate_cons_of_ne_nil hback, List.intercalate_singleton,
        List.append_assoc, List.singleton_append]
    | cons d front =>
      have hrest := ih (List.cons_ne_nil _ _)
      rw [List.cons_append] at hrest ⊢
      rw [List.cons_append, List.intercalate_cons_cons, List.intercalate_cons_cons,
        ← List.cons_append, List.cons_append, hrest]
      simp only [List.append_assoc]

theorem keyComponents_inj {a b : WideString} (h : keyComponents a = keyComponents b) : a = b := by
  unfold keyComponents at h
  split at h
  · next ha =>
    split at h
    · next hb => rw [ha, hb]
    · exact absurd h.symm (List.splitOn_ne_nil _ _)
  · split at h
    · exact absurd h (List.splitOn_ne_nil _ _)
    · calc
        a = [kBackslash].intercalate (a.splitOn kBackslash) := (List.intercalate_splitOn _).symm
        _ = [kBackslash].intercalate (b.splitOn kBackslash) := by rw [h]
        _ = b := List.intercalate_splitOn _

/-- Below a path that is not the root are the texts that go on with a separator. -/
theorem below_iff {key dir : WideString} (hdir : dir ≠ []) :
    Below key dir ↔ key = dir ∨ ∃ rest, key = dir ++ kBackslash :: rest := by
  unfold Below
  constructor
  · intro h
    obtain ⟨more, hmore⟩ := h
    cases more with
    | nil =>
      rw [List.append_nil] at hmore
      exact .inl (keyComponents_inj hmore).symm
    | cons c more =>
      have hkey : key ≠ [] := by
        intro hnil
        rw [hnil] at hmore
        exact absurd hmore (by simp [keyComponents])
      unfold keyComponents at hmore
      rw [if_neg hdir, if_neg hkey] at hmore
      have hjoined : [kBackslash].intercalate (key.splitOn kBackslash) = key :=
        List.intercalate_splitOn _
      rw [← hmore] at hjoined
      refine .inr ⟨[kBackslash].intercalate (c :: more), ?_⟩
      rw [← hjoined, joined_append (List.splitOn_ne_nil _ _) (List.cons_ne_nil _ _),
        List.intercalate_splitOn]
  · intro h
    obtain rfl | ⟨rest, rfl⟩ := h
    · exact List.prefix_rfl
    · unfold keyComponents
      rw [if_neg hdir, if_neg (by simp), List.splitOn_append_cons_self]
      exact List.prefix_append _ _

theorem isInsideDirectory_iff (key dir : WideString) :
    isInsideDirectory key dir = true ↔ ∃ rest, key = dir ++ kBackslash :: rest := by
  unfold isInsideDirectory
  rw [Bool.and_eq_true, Bool.and_eq_true, decide_eq_true_eq, decide_eq_true_eq, decide_eq_true_eq]
  constructor
  · intro h
    obtain ⟨⟨hlonger, htake⟩, hmark⟩ := h
    refine ⟨key.drop (dir.length + 1), ?_⟩
    rw [List.getElem?_eq_getElem hlonger, Option.some.injEq] at hmark
    rw [← hmark, ← List.drop_eq_getElem_cons hlonger]
    calc
      key = key.take dir.length ++ key.drop dir.length := (List.take_append_drop _ _).symm
      _ = dir ++ key.drop dir.length := by rw [htake]
  · intro h
    obtain ⟨rest, rfl⟩ := h
    simp

/-! ## The walk up -/

/-- `dir` is a path above `path`, up to one of its separators. -/
structure UpTo (dir path : WideString) : Prop where
  ne_nil : dir ≠ []
  last : dir.getLast? ≠ some kBackslash
  goesOn : ∃ rest, path = dir ++ kBackslash :: rest

section

variable {path : WideString}

theorem isSlash_iff {u : UInt16} (hslash : kSlash ∉ path) (hu : u ∈ path) :
    isSlash u = true ↔ u = kBackslash := by
  have hne : u ≠ kSlash := fun heq => hslash (heq ▸ hu)
  simp [isSlash, hne]

/-- What `parentName` takes off: the last name, and separators that only a root has none of. -/
theorem parentName_split (path : WideString) : ∃ slashes name,
    path = parentName path ++ (slashes ++ name) ∧ (∀ u ∈ slashes, isSlash u = true) ∧
      (∀ u ∈ name, isSlash u = false) ∧ (parentName path ≠ [] → slashes ≠ []) := by
  refine ⟨(path.rdropWhile fun u => !isSlash u).rtakeWhile isSlash,
    path.rtakeWhile fun u => !isSlash u, ?_, fun u hu => List.mem_rtakeWhile_imp hu, ?_, ?_⟩
  · unfold parentName
    rw [← List.append_assoc, List.rdropWhile_append_rtakeWhile, List.rdropWhile_append_rtakeWhile]
  · intro u hu
    have h := List.mem_rtakeWhile_imp hu
    simpa using h
  · intro hne hnil
    -- Without a separator behind it, the parent would end in the name's last separator.
    have hsame := List.rdropWhile_append_rtakeWhile (p := isSlash)
      (l := path.rdropWhile fun u => !isSlash u)
    rw [hnil, List.append_nil] at hsame
    have hends := List.rdropWhile_last_not isSlash (path.rdropWhile fun u => !isSlash u) hne
    have hfull : path.rdropWhile (fun u => !isSlash u) ≠ [] := by
      rw [← hsame]
      exact hne
    have hmark := List.rdropWhile_last_not (fun u => !isSlash u) path hfull
    rw [Bool.not_eq_true', Bool.not_eq_false] at hmark
    apply hends
    simpa only [hsame] using hmark

theorem getLast_parentName (hne : parentName path ≠ []) :
    isSlash ((parentName path).getLast hne) = false := by
  rw [← Bool.not_eq_true]
  exact List.rdropWhile_last_not isSlash _ hne

/-- One step up. -/
theorem upTo_iff {dir : WideString} (hslash : kSlash ∉ path) :
    UpTo dir path ↔
      parentName path ≠ [] ∧ (dir = parentName path ∨ UpTo dir (parentName path)) := by
  obtain ⟨slashes, name, hpath, hslashes, hname, hboth⟩ := parentName_split path
  have hmarks : ∀ u ∈ slashes, u = kBackslash := by
    intro u hu
    have hmem : u ∈ path := by
      rw [hpath]
      exact List.mem_append_right _ (List.mem_append_left _ hu)
    exact (isSlash_iff hslash hmem).mp (hslashes u hu)
  constructor
  · intro h
    obtain ⟨rest, hrest⟩ := h.goesOn
    rw [hpath, List.append_eq_append_iff] at hrest
    obtain ⟨more, hdir, hmore⟩ | ⟨more, hparent, hmore⟩ := hrest
    · cases more with
      | nil =>
        rw [List.append_nil] at hdir
        exact ⟨hdir ▸ h.ne_nil, .inl hdir⟩
      | cons u more =>
        -- The separator behind `dir` is not in the name, so `dir` ends in one.
        exfalso
        obtain ⟨excess, _, hexcess⟩ | ⟨excess, hexcess, _⟩ := List.append_eq_append_iff.mp hmore
        · have hin : kBackslash ∈ name := by
            rw [hexcess]
            simp
          exact absurd (hname kBackslash hin) (by decide)
        · have hends : (u :: more).getLast (List.cons_ne_nil _ _) ∈ slashes := by
            rw [hexcess]
            exact List.mem_append_left _ (List.getLast_mem _)
          apply h.last
          rw [hdir, List.getLast?_append_of_ne_nil _ (List.cons_ne_nil _ _),
            List.getLast?_eq_getLast_of_ne_nil (List.cons_ne_nil _ _), hmarks _ hends]
    · cases more with
      | nil =>
        rw [List.append_nil] at hparent
        exact ⟨hparent ▸ h.ne_nil, .inl hparent.symm⟩
      | cons u more =>
        injection hmore with hu _
        subst hu
        exact ⟨by rw [hparent]; simp, .inr ⟨h.ne_nil, h.last, more, hparent⟩⟩
  · intro h
    obtain ⟨hne, hdir | h⟩ := h
    · have hlast : (parentName path).getLast? ≠ some kBackslash := by
        rw [List.getLast?_eq_getLast_of_ne_nil hne]
        intro heq
        injection heq with heq
        have hmark := getLast_parentName hne
        rw [heq] at hmark
        exact absurd hmark (by decide)
      obtain ⟨u, slashes', hcons⟩ := List.exists_cons_of_ne_nil (hboth hne)
      have hu := hmarks u (by rw [hcons]; exact List.mem_cons_self)
      rw [hdir]
      refine ⟨hne, hlast, slashes' ++ name, ?_⟩
      rw [hcons, hu] at hpath
      exact hpath
    · obtain ⟨rest, hrest⟩ := h.goesOn
      refine ⟨h.ne_nil, h.last, rest ++ (slashes ++ name), ?_⟩
      rw [hrest] at hpath
      rw [hpath, List.append_assoc, List.cons_append]

theorem parentName_eq_self : parentName path = path ↔ path = [] := by
  constructor
  · intro h
    by_contra hne
    obtain ⟨slashes, name, hpath, _, _, hboth⟩ := parentName_split path
    have hlength := congrArg List.length hpath
    have hsome := List.length_pos_of_ne_nil (hboth (by rwa [h]))
    rw [h, List.length_append, List.length_append] at hlength
    omega
  · intro h
    rw [h]
    rfl

/-- The walk from a path whose relative path is `path`: what is above that, below the head,
and the head. -/
theorem mem_ancestorsFrom_iff {head a : WideString}
    (hstart : ∀ d, d <+: path → relativeStart (head ++ d) = head.length) (hslash : kSlash ∉ path) :
    a ∈ ancestors (head ++ path) ↔ (∃ d, a = head ++ d ∧ UpTo d path) ∨ (a = head ∧ head ≠ []) := by
  have hparent : ∀ d, d <+: path → parentPath (head ++ d) = head ++ parentName d := by
    intro d hd
    rw [parentPath, hstart d hd, List.take_left', List.drop_left']
    · rfl
    · rfl
  induction hlength : path.length using Nat.strong_induction_on generalizing path with
  | _ n ih =>
    have hupper := parentName_isPrefixOf path
    rw [ancestors, hparent path List.prefix_rfl, ancestorsFrom]
    by_cases hnil : parentName path = []
    · -- Nothing is above the path but the head, whose parent is itself.
      have hnone : ∀ d, ¬UpTo d path := fun d hd => ((upTo_iff hslash).mp hd).1 hnil
      have hself : parentPath head = head := by
        have h := hparent [] List.nil_prefix
        rwa [parentName_eq_self.mpr rfl, List.append_nil] at h
      rw [hnil, List.append_nil, hself, if_pos rfl]
      simp only [hnone, and_false, exists_false, false_or]
      split
      · next h => simp [List.isEmpty_iff.mp h]
      · next h =>
        rw [List.mem_singleton]
        exact (and_iff_left (by simpa using h)).symm
    · have hne : ¬(head ++ parentName path).isEmpty = true := by simp [hnil]
      have hmoves : ¬parentPath (head ++ parentName path) = head ++ parentName path := by
        rw [hparent _ hupper]
        intro h
        exact hnil (parentName_eq_self.mp (List.append_cancel_left h))
      have hshort : (parentName path).length < n := by
        rw [← hlength]
        apply Nat.lt_of_le_of_ne hupper.length_le
        intro heq
        have hsame := hupper.eq_of_length heq
        exact hnil (hsame.trans (parentName_eq_self.mp hsame))
      have hrest : a ∈ ancestors (head ++ parentName path) ↔ _ :=
        ih _ hshort (fun d hd => hstart d (hd.trans hupper))
          (fun h => hslash (hupper.subset h)) (fun d hd => hparent d (hd.trans hupper)) rfl
      rw [if_neg hne, if_neg hmoves, List.mem_cons]
      show _ ∨ a ∈ ancestors (head ++ parentName path) ↔ _
      rw [hrest]
      simp only [fun d => @upTo_iff path d hslash, hnil, ne_eq, not_false_eq_true, true_and]
      constructor
      · intro h
        obtain h | ⟨d, h, hd⟩ | h := h
        · exact .inl ⟨_, h, .inl rfl⟩
        · exact .inl ⟨d, h, .inr hd⟩
        · exact .inr h
      · intro h
        obtain ⟨d, h, rfl | hd⟩ | h := h
        · exact .inl h
        · exact .inr (.inl ⟨d, h, hd⟩)
        · exact .inr (.inr h)

end

section

variable {key a : WideString}

theorem not_isSlash_head {d : WideString} (hd : d <+: key) (hkey : NormalKey key) :
    d.takeWhile isSlash = [] := by
  cases d with
  | nil => rfl
  | cons u d =>
    obtain ⟨rest, hrest⟩ := hd
    have hu : isSlash u = false := by
      rw [← Bool.not_eq_true, isSlash_iff hkey.noSlash (by rw [← hrest]; simp)]
      intro heq
      apply hkey.head
      rw [← hrest, heq]
      rfl
    exact List.takeWhile_cons_of_neg (by simp [hu])

theorem hasDrivePrefix_mono {d : WideString} (hd : d <+: key) (h : hasDrivePrefix d = true) :
    hasDrivePrefix key = true := by
  obtain ⟨rest, rfl⟩ := hd
  match d, h with
  | _ :: _ :: _, h => exact h

/-- Without a drive the walk gives what is above the path. -/
theorem mem_ancestors_plain (hkey : NormalKey key) (hdrive : hasDrivePrefix key = false) :
    a ∈ ancestors key ↔ UpTo a key := by
  have hstart : ∀ d, d <+: key → relativeStart ([] ++ d) = ([] : WideString).length := by
    intro d hd
    have hplain : ¬hasDrivePrefix d = true := by
      intro h
      rw [hasDrivePrefix_mono hd h] at hdrive
      exact absurd hdrive (by decide)
    unfold relativeStart
    rw [List.nil_append, if_neg hplain]
    show 0 + (d.takeWhile isSlash).length = 0
    rw [not_isSlash_head hd hkey]
    rfl
  have h := mem_ancestorsFrom_iff (a := a) hstart hkey.noSlash
  simpa using h

/-- With a drive the walk gives what is above the path behind the drive and its separators,
and these. -/
theorem mem_ancestors_drive {letter : UInt16} {slashes tail : WideString}
    (hdrive : hasDrivePrefix (letter :: kColon :: (slashes ++ tail)) = true)
    (hslashes : ∀ u ∈ slashes, isSlash u = true) (htail : tail.takeWhile isSlash = [])
    (hslash : kSlash ∉ tail) :
    a ∈ ancestors (letter :: kColon :: (slashes ++ tail)) ↔
      (∃ d, a = letter :: kColon :: (slashes ++ d) ∧ UpTo d tail) ∨
        a = letter :: kColon :: slashes := by
  have hstart : ∀ d, d <+: tail →
      relativeStart (letter :: kColon :: slashes ++ d) = (letter :: kColon :: slashes).length := by
    intro d hd
    have hplain : d.takeWhile isSlash = [] := by
      cases d with
      | nil => rfl
      | cons u d =>
        obtain ⟨rest, rfl⟩ := hd
        by_contra hne
        by_cases hu : isSlash u = true
        · rw [List.cons_append, List.takeWhile_cons_of_pos hu] at htail
          exact absurd htail (List.cons_ne_nil _ _)
        · exact hne (List.takeWhile_cons_of_neg hu)
    have hletter : hasDrivePrefix (letter :: kColon :: slashes ++ d) = true := hdrive
    unfold relativeStart
    rw [if_pos hletter]
    show 2 + ((slashes ++ d).takeWhile isSlash).length = slashes.length + 2
    rw [List.takeWhile_append_of_pos hslashes, hplain, List.append_nil]
    omega
  have h := mem_ancestorsFrom_iff (a := a) hstart hslash
  simpa using h

theorem nil_not_mem_ancestorsFrom (ancestor : WideString) : [] ∉ ancestorsFrom ancestor := by
  fun_induction ancestorsFrom ancestor with
  | case1 => simp
  | case2 ancestor hne =>
    intro h
    exact hne (by rw [← List.mem_singleton.mp h]; rfl)
  | case3 ancestor hne _ ih =>
    rw [List.mem_cons, not_or]
    exact ⟨fun h => hne (by rw [← h]; rfl), ih⟩

theorem slashes_split (rest : WideString) : ∃ slashes tail, rest = slashes ++ tail ∧
    (∀ u ∈ slashes, isSlash u = true) ∧ tail.takeWhile isSlash = [] := by
  refine ⟨rest.takeWhile isSlash, rest.dropWhile isSlash, ?_, ?_, ?_⟩
  · exact List.takeWhile_append_dropWhile.symm
  · exact fun u hu => List.mem_takeWhile_imp hu
  · rw [List.takeWhile_eq_nil_iff]
    intro hlt
    exact List.dropWhile_get_zero_not isSlash rest hlt

/-- A path is a drive, and the rest of it. -/
theorem exists_drive (hdrive : hasDrivePrefix key = true) :
    ∃ letter rest, key = letter :: kColon :: rest := by
  match key, hdrive with
  | letter :: colon :: rest, hdrive =>
    unfold hasDrivePrefix at hdrive
    simp only [Bool.and_eq_true, decide_eq_true_eq] at hdrive
    exact ⟨letter, rest, by rw [hdrive.2]⟩

/-- The drive itself is above the path where a separator follows it. -/
theorem upTo_drive {letter : UInt16} {slashes tail : WideString}
    (hslashes : ∀ u ∈ slashes, u = kBackslash) (htail : tail.takeWhile isSlash = []) :
    UpTo [letter, kColon] (letter :: kColon :: (slashes ++ tail)) ↔ slashes ≠ [] := by
  constructor
  · intro h hnil
    obtain ⟨rest, hrest⟩ := h.goesOn
    have htext : tail = kBackslash :: rest := by simpa [hnil] using hrest
    rw [htext] at htail
    exact absurd htail (by simp [isSlash])
  · intro hne
    obtain ⟨u, more, hmore⟩ := List.exists_cons_of_ne_nil hne
    have hu := hslashes u (by rw [hmore]; exact List.mem_cons_self)
    refine ⟨by simp, by simp [kColon, kBackslash], more ++ tail, ?_⟩
    rw [hmore, hu]
    rfl

/-- What is above a path with a drive, the drive itself apart, is above the path behind the
drive and its separators. -/
theorem upTo_behind_drive {letter : UInt16} {slashes tail : WideString}
    (hslashes : ∀ u ∈ slashes, u = kBackslash)
    (ha : a ≠ [letter, kColon]) :
    UpTo a (letter :: kColon :: (slashes ++ tail)) ↔
      ∃ d, a = letter :: kColon :: (slashes ++ d) ∧ UpTo d tail := by
  constructor
  · intro h
    obtain ⟨rest, hrest⟩ := h.goesOn
    match a, h.ne_nil, ha with
    | [_], _, _ =>
      injection hrest with _ hrest
      injection hrest with hmark _
      exact absurd hmark (by decide)
    | _ :: _ :: more, _, ha =>
      injection hrest with hfirst hrest
      injection hrest with hsecond hrest
      subst hfirst hsecond
      have hmore : more ≠ [] := fun hnil => ha (by rw [hnil])
      have hlast : more.getLast? ≠ some kBackslash := by
        have hends := h.last
        rwa [List.getLast?_cons_of_ne_nil (List.cons_ne_nil _ _),
          List.getLast?_cons_of_ne_nil hmore] at hends
      -- The path above does not end in the separators behind the drive.
      obtain ⟨d, hd, htail⟩ | ⟨excess, hexcess, _⟩ := List.append_eq_append_iff.mp hrest
      · by_cases hnil : d = []
        · exfalso
          rw [hnil, List.append_nil] at hd
          apply hlast
          rw [hd, List.getLast?_eq_getLast_of_ne_nil (hd ▸ hmore)]
          exact congrArg some (hslashes _ (List.getLast_mem _))
        · refine ⟨d, by rw [hd], hnil, ?_, rest, htail⟩
          rwa [hd, List.getLast?_append_of_ne_nil _ hnil] at hlast
      · exfalso
        apply hlast
        rw [List.getLast?_eq_getLast_of_ne_nil hmore]
        exact congrArg some (hslashes _ (hexcess ▸ List.mem_append_left _ (List.getLast_mem _)))
  · intro h
    obtain ⟨d, rfl, hd⟩ := h
    obtain ⟨rest, hrest⟩ := hd.goesOn
    refine ⟨List.cons_ne_nil _ _, ?_, rest, by simp [hrest]⟩
    have hne : slashes ++ d ≠ [] := by simp [hd.ne_nil]
    rw [List.getLast?_cons_of_ne_nil (List.cons_ne_nil _ _), List.getLast?_cons_of_ne_nil hne,
      List.getLast?_append_of_ne_nil _ hd.ne_nil]
    exact hd.last

/-- The walk misses the root, and the drive that a path starts with: it gives a drive that
goes on without a separator, and not one that goes on with one. -/
theorem mem_ancestors_iff_below (hkey : NormalKey key) (ha : NormalKey a) (hne : a ≠ key) :
    (a ∈ ancestors key ↔ Below key a) ↔
      a ≠ [] ∧ ¬(hasDrivePrefix key = true ∧ a = key.take 2) := by
  by_cases hroot : a = []
  · have hnone : [] ∉ ancestors key := nil_not_mem_ancestorsFrom _
    simp [hroot, hnone, below_root]
  have hbelow : Below key a ↔ UpTo a key := by
    rw [below_iff hroot]
    constructor
    · intro h
      exact ⟨hroot, ha.last, h.resolve_left (Ne.symm hne)⟩
    · exact fun h => .inr h.goesOn
  rw [hbelow]
  by_cases hdrive : hasDrivePrefix key = true
  · obtain ⟨letter, rest, rfl⟩ := exists_drive hdrive
    obtain ⟨slashes, tail, rfl, hslashes, htail⟩ := slashes_split rest
    have hkeySlash := hkey.noSlash
    simp only [List.mem_cons, List.mem_append, not_or] at hkeySlash
    have hmarks : ∀ u ∈ slashes, u = kBackslash := fun u hu =>
      (isSlash_iff hkeySlash.2.2.1 hu).mp (hslashes u hu)
    rw [mem_ancestors_drive hdrive hslashes htail hkeySlash.2.2.2]
    show _ ↔ a ≠ [] ∧ ¬(_ ∧ a = [letter, kColon])
    by_cases hdev : a = [letter, kColon]
    · -- The walk gives the drive where no separator follows it, and it is above where one does.
      have hwalk : ((∃ d, [letter, kColon] = letter :: kColon :: (slashes ++ d) ∧ UpTo d tail) ∨
          [letter, kColon] = letter :: kColon :: slashes) ↔ slashes = [] := by
        constructor
        · intro h
          obtain ⟨d, heq, hd⟩ | heq := h
          · simp only [List.cons.injEq, true_and] at heq
            exact absurd (List.append_eq_nil_iff.mp heq.symm).2 hd.ne_nil
          · simp only [List.cons.injEq, true_and] at heq
            exact heq.symm
        · exact fun heq => .inr (by rw [heq])
      rw [hdev, upTo_drive hmarks htail, hwalk]
      simp only [hdrive, true_and, not_true_eq_false, and_false, iff_false]
      exact fun h => iff_not_self h
    · have hends : a ≠ letter :: kColon :: slashes := by
        intro heq
        by_cases hnil : slashes = []
        · exact hdev (by rw [heq, hnil])
        · apply ha.last
          rw [heq, List.getLast?_cons_of_ne_nil (List.cons_ne_nil _ _),
            List.getLast?_cons_of_ne_nil hnil, List.getLast?_eq_getLast_of_ne_nil hnil]
          exact congrArg some (hmarks _ (List.getLast_mem _))
      rw [upTo_behind_drive hmarks hdev]
      simp [hroot, hdev, hends]
  · rw [mem_ancestors_plain hkey (by simpa using hdrive)]
    simp [hroot, hdrive]

end

end LayerMount.PathText
