import LayerMount.Image.RoundTrip

/-!
# What an unpack has placed

`Placed items t` says what a tree is after an unpack of the items into an empty directory:
every file of it is one of the items, every directory is an item or is above one, and every
file among the items is there.  Each turn of the unpack keeps it (`Placed.snoc`).

The entries of a tree, or some of them, are always placed (`placeItems_some`).  The markers
of deleted entries are placed exactly when each finds room (`MarkersFit`).
-/

namespace LayerMount

open Lib

variable {H : Host}

namespace ArchiveItem

def isFile (i : ArchiveItem) : Bool := i.header.isDirectory = 0

end ArchiveItem

/-- The entry is what an unpack makes of the item, or a directory above it. -/
inductive FromItem (H : Host) (x : HostEntry) (i : ArchiveItem) : Prop where
  | file (hfile : i.isFile = true) (hpath : H.foldPath x.path = H.foldPath i.path)
      (hcontent : x.content = some i.data)
      (hattr : x.attributes = storedAttributes i.header.attributes)
  | directory (hdir : x.isDirectory = true) (hpath : H.foldPath x.path <+: H.foldPath i.path)
      (hproper : i.isFile = true → H.foldPath x.path ≠ H.foldPath i.path)

/-- The entry comes from one of the items. -/
def Sourced (H : Host) (items : List ArchiveItem) (x : HostEntry) : Prop :=
  ∃ i ∈ items, skipsPath H i.path = false ∧ FromItem H x i

structure Placed (items : List ArchiveItem) (t : HostDir H) : Prop where
  sourced : ∀ x ∈ t.entries, Sourced H items x
  files : ∀ i ∈ items, skipsPath H i.path = false → i.isFile = true →
    ∃ x, t.find i.path = some x ∧ x.isDirectory = false

theorem placed_nil : Placed [] (HostDir.empty : HostDir H) where
  sourced := by
    intro x hx
    cases hx
  files := by
    intro i hi
    cases hi

theorem Sourced.mono {items more : List ArchiveItem} {x : HostEntry} (h : Sourced H items x)
    (hsub : ∀ i ∈ items, i ∈ more) : Sourced H more x := by
  obtain ⟨i, hi, hskip, hfrom⟩ := h
  exact ⟨i, hsub i hi, hskip, hfrom⟩

namespace HostDir

variable {t t' : HostDir H}

theorem mem_iff_find {x : HostEntry} : x ∈ t.entries ↔ t.find x.path = some x :=
  ⟨find_of_mem, fun h => (find_eq_some.mp h).1⟩

/-- Every entry is still there, a file as a file and a directory as a directory. -/
def Keeps (t t' : HostDir H) : Prop :=
  ∀ p x, t.find p = some x → ∃ x', t'.find p = some x' ∧ x'.isDirectory = x.isDirectory

theorem Keeps.refl (t : HostDir H) : Keeps t t := fun _ x hx => ⟨x, hx, rfl⟩

theorem Keeps.trans {t'' : HostDir H} (h : Keeps t t') (h' : Keeps t' t'') : Keeps t t'' := by
  intro p x hx
  obtain ⟨x', hx', hkind⟩ := h p x hx
  obtain ⟨x'', hx'', hkind'⟩ := h' p x' hx'
  exact ⟨x'', hx'', hkind'.trans hkind⟩

theorem keeps_createDirectories (t : HostDir H) (d : RelPath) : Keeps t (t.createDirectories d) :=
  fun _ x hx => ⟨x, find_createDirectories_of_some hx, rfl⟩

theorem Wrote.keeps {d : RelPath} {n : Name} {attributes : UInt32} {modified : UInt64} {data : Data}
    (h : Wrote t t' d n attributes modified data) : Keeps t t' := by
  intro p x hx
  by_cases hp : H.foldPath p = H.foldPath (d ++ [n])
  · obtain ⟨x', hx', hcontent, _⟩ := h.file
    rw [t.find_congr hp] at hx
    refine ⟨x', by rw [t'.find_congr hp, hx'], ?_⟩
    rw [(h.writable x hx).1, HostEntry.isDirectory, hcontent]
    rfl
  · exact ⟨x, by rw [h.others p hp, hx], rfl⟩

theorem Keeps.hasDir (h : Keeps t t') {p : RelPath} (hp : t.HasDir p) : t'.HasDir p := by
  rcases hp with hroot | ⟨x, hx, hdir⟩
  · exact Or.inl hroot
  · obtain ⟨x', hx', hkind⟩ := h p x hx
    exact Or.inr ⟨x', hx', hkind.trans hdir⟩

end HostDir

section Step

variable {items : List ArchiveItem} {t t' : HostDir H} {i : ArchiveItem}

theorem sourced_createDirectories (h : ∀ x ∈ t.entries, Sourced H items x) (hi : i ∈ items)
    (hskip : skipsPath H i.path = false) {d : RelPath} (hd : d <+: i.path)
    (hproper : i.isFile = true → d ≠ i.path) :
    ∀ x ∈ (t.createDirectories d).entries, Sourced H items x := by
  intro x hx
  rcases HostDir.find_createDirectories_new (HostDir.find_of_mem hx) with hold | ⟨hpre, hdir⟩
  · exact h x (HostDir.mem_iff_find.mpr hold)
  · have hfold : H.foldPath d <+: H.foldPath i.path := hd.map H.foldName
    refine ⟨i, hi, hskip, .directory hdir (hpre.trans hfold) ?_⟩
    intro hfile heq
    apply hproper hfile
    rw [heq] at hpre
    have hlength := hpre.length_le
    rw [H.length_foldPath, H.length_foldPath] at hlength
    exact hd.eq_of_length_le hlength

/-- A file that is written comes from its item, and the others stay. -/
theorem sourced_wrote {d : RelPath} {n : Name} (hpath : i.path = d ++ [n])
    (hwrote : HostDir.Wrote t t' d n i.header.attributes i.header.modified i.data)
    (h : ∀ x ∈ t.entries, Sourced H items x) (hi : i ∈ items)
    (hskip : skipsPath H i.path = false) (hfile : i.isFile = true) :
    ∀ x ∈ t'.entries, Sourced H items x := by
  intro x hx
  have hfind := HostDir.find_of_mem hx
  by_cases hp : H.foldPath x.path = H.foldPath (d ++ [n])
  · obtain ⟨y, hy, hcontent, hattr, _⟩ := hwrote.file
    rw [t'.find_congr hp, hy] at hfind
    have hxy : y = x := Option.some.inj hfind
    rw [hxy] at hcontent hattr
    exact ⟨i, hi, hskip, .file hfile (by rw [hpath, hp]) hcontent hattr⟩
  · rw [hwrote.others _ hp] at hfind
    exact h x (HostDir.mem_iff_find.mpr hfind)

/-- One turn on a file that is not skipped, as two changes of the tree. -/
theorem placeItem_file {d : RelPath} {n : Name} (hpath : i.path = d ++ [n])
    (hskip : skipsPath H i.path = false) (hfile : i.isFile = true) :
    placeItem t i
      = (t.createDirectories d).writeFile d n i.header.attributes i.header.modified i.data := by
  have hisfile : ¬i.header.isDirectory ≠ 0 := by simpa [ArchiveItem.isFile] using hfile
  have hlast : i.path.getLastD [] = n := by simp [hpath]
  rw [placeItem, hskip, if_neg Bool.false_ne_true, if_neg hisfile, writeExtractedFile, hlast, hpath,
    List.dropLast_concat]

theorem placeItem_directory (hskip : skipsPath H i.path = false) (hdir : i.isFile = false) :
    placeItem t i = .ok (t.createDirectories i.path) := by
  have hisdir : i.header.isDirectory ≠ 0 := by simpa [ArchiveItem.isFile] using hdir
  rw [placeItem, hskip, if_neg Bool.false_ne_true, if_pos hisdir]

theorem placeItem_keeps (hne : i.path ≠ []) (h : placeItem t i = .ok t') : t.Keeps t' := by
  cases hskip : skipsPath H i.path with
  | true =>
    rw [placeItem, hskip, if_pos rfl] at h
    rw [← Except.ok.inj h]
    exact HostDir.Keeps.refl t
  | false =>
    cases hfile : i.isFile with
    | false =>
      rw [placeItem_directory hskip hfile] at h
      rw [← Except.ok.inj h]
      exact HostDir.keeps_createDirectories t i.path
    | true =>
      obtain ⟨d, n, hpath⟩ := (List.eq_nil_or_concat i.path).resolve_left hne
      rw [List.concat_eq_append] at hpath
      rw [placeItem_file hpath hskip hfile] at h
      exact (HostDir.keeps_createDirectories t d).trans (HostDir.wrote_of_writeFile h).keeps

/-- One turn of the unpack. -/
theorem Placed.snoc (h : Placed items t) (hne : i.path ≠ []) (hplace : placeItem t i = .ok t') :
    Placed (items ++ [i]) t' := by
  have hkeeps := placeItem_keeps hne hplace
  have hsub : ∀ j ∈ items, j ∈ items ++ [i] := fun j hj => List.mem_append_left _ hj
  have hi : i ∈ items ++ [i] := by simp
  have hmore : ∀ x ∈ t.entries, Sourced H (items ++ [i]) x := fun x hx => (h.sourced x hx).mono hsub
  have hfiles : ∀ j ∈ items, skipsPath H j.path = false → j.isFile = true →
      ∃ x, t'.find j.path = some x ∧ x.isDirectory = false := by
    intro j hj hjskip hjfile
    obtain ⟨x, hx, hxfile⟩ := h.files j hj hjskip hjfile
    obtain ⟨x', hx', hkind⟩ := hkeeps _ x hx
    exact ⟨x', hx', hkind.trans hxfile⟩
  cases hskip : skipsPath H i.path with
  | true =>
    rw [placeItem, hskip, if_pos rfl] at hplace
    rw [← Except.ok.inj hplace] at hfiles ⊢
    refine ⟨hmore, ?_⟩
    intro j hj hjskip hjfile
    rcases List.mem_append.mp hj with hj | hj
    · exact hfiles j hj hjskip hjfile
    · rw [List.mem_singleton.mp hj, hskip] at hjskip
      cases hjskip
  | false =>
    cases hfile : i.isFile with
    | false =>
      rw [placeItem_directory hskip hfile] at hplace
      rw [← Except.ok.inj hplace] at hfiles ⊢
      refine ⟨sourced_createDirectories hmore hi hskip List.prefix_rfl ?_, ?_⟩
      · intro htrue
        rw [hfile] at htrue
        cases htrue
      · intro j hj hjskip hjfile
        rcases List.mem_append.mp hj with hj | hj
        · exact hfiles j hj hjskip hjfile
        · rw [List.mem_singleton.mp hj, hfile] at hjfile
          cases hjfile
    | true =>
      obtain ⟨d, n, hpath⟩ := (List.eq_nil_or_concat i.path).resolve_left hne
      rw [List.concat_eq_append] at hpath
      rw [placeItem_file hpath hskip hfile] at hplace
      have hwrote := HostDir.wrote_of_writeFile hplace
      have hd : d <+: i.path := hpath ▸ List.prefix_append d [n]
      have hdirs := sourced_createDirectories hmore hi hskip hd fun _ heq => by
        rw [hpath] at heq
        simp at heq
      refine ⟨sourced_wrote hpath hwrote hdirs hi hskip hfile, ?_⟩
      intro j hj hjskip hjfile
      rcases List.mem_append.mp hj with hj | hj
      · exact hfiles j hj hjskip hjfile
      · obtain ⟨x, hx, hcontent, _⟩ := hwrote.file
        rw [List.mem_singleton.mp hj]
        refine ⟨x, by rw [hpath, hx], ?_⟩
        rw [HostEntry.isDirectory, hcontent]
        rfl

/-- A run of the unpack. -/
theorem Placed.run {rest : List ArchiveItem} (h : Placed items t) (hne : ∀ i ∈ rest, i.path ≠ [])
    (hrun : placeItems rest t = .ok t') : Placed (items ++ rest) t' ∧ t.Keeps t' := by
  induction rest generalizing items t with
  | nil =>
    rw [← Except.ok.inj hrun, List.append_nil]
    exact ⟨h, HostDir.Keeps.refl t⟩
  | cons i rest ih =>
    rw [placeItems, List.foldlM_cons] at hrun
    cases hplace : placeItem t i with
    | error e =>
      rw [hplace] at hrun
      cases hrun
    | ok t₁ =>
      rw [hplace] at hrun
      have hi := hne i (by simp)
      have hstep := ih (h.snoc hi hplace) (fun j hj => hne j (List.mem_cons_of_mem _ hj)) hrun
      rw [List.append_assoc, List.singleton_append] at hstep
      exact ⟨hstep.1, (placeItem_keeps hi hplace).trans hstep.2⟩

end Step

/-! ## Some of the entries of a tree -/

@[simp] theorem isFile_itemOf (e : HostEntry) : (itemOf e).isFile = !e.isDirectory := by
  cases hdir : e.isDirectory <;> simp [ArchiveItem.isFile, itemOf, fillFileEntry, hdir]

/-- What is above an entry is a directory, whatever the case of its path. -/
theorem HostDir.hasDir_of_above {t : HostDir H} {e : HostEntry} (he : e ∈ t.entries) {p : RelPath}
    (hpre : H.foldPath p <+: H.foldPath e.path) (hne : H.foldPath p ≠ H.foldPath e.path) :
    t.HasDir p := by
  have hlength := hpre.length_le
  rw [H.length_foldPath, H.length_foldPath] at hlength
  have hfold : H.foldPath (e.path.take p.length) = H.foldPath p := by
    have htake := List.prefix_iff_eq_take.mp hpre
    rw [H.length_foldPath] at htake
    rw [htake]
    exact List.map_take
  have hrest : e.path.drop p.length ≠ [] := by
    intro hnil
    apply hne
    rw [← hfold, ← List.take_append_drop p.length e.path, hnil, List.append_nil, List.take_take,
      Nat.min_self]
  have hfind : t.find (e.path.take p.length ++ e.path.drop p.length) = some e := by
    rw [List.take_append_drop]
    exact HostDir.find_of_mem he
  exact (HostDir.hasDir_of_find hfind hrest).congr hfold

theorem HostDir.eq_of_foldPath {t : HostDir H} {e e' : HostEntry} (he : e ∈ t.entries)
    (he' : e' ∈ t.entries) (h : H.foldPath e'.path = H.foldPath e.path) : e' = e := by
  have hfind := HostDir.find_of_mem he
  rw [← t.find_congr h, HostDir.find_of_mem he'] at hfind
  exact Option.some.inj hfind

section Entries

variable {source t : HostDir H} {done : List HostEntry} {e : HostEntry}

/-- No file is in the way of an entry of the tree. -/
theorem isDirectory_above (hdone : ∀ x ∈ done, x ∈ source.entries)
    (h : Placed (done.map itemOf) t) (he : e ∈ source.entries) {q : RelPath} (hq : q <+: e.path)
    (hdir : q ≠ e.path ∨ e.isDirectory = true) {x : HostEntry} (hx : t.find q = some x) :
    x.isDirectory = true := by
  obtain ⟨hmem, hxq⟩ := HostDir.find_eq_some.mp hx
  obtain ⟨i, hi, hskip, hfrom⟩ := h.sourced x hmem
  obtain ⟨e', he', rfl⟩ := List.mem_map.mp hi
  cases hfrom with
  | directory hxdir _ _ => exact hxdir
  | file hfile hpath _ _ =>
    have hfind : source.find q = some e' :=
      HostDir.find_eq_some.mpr ⟨hdone e' he', hpath.symm.trans hxq⟩
    have hsource : source.HasDir q := by
      by_cases hqe : q = e.path
      · refine Or.inr ⟨e, ?_, hdir.resolve_left fun hne => hne hqe⟩
        rw [hqe]
        exact HostDir.find_of_mem he
      · apply HostDir.hasDir_of_above he (hq.map H.foldName)
        intro heq
        apply hqe
        apply hq.eq_of_length
        have hlength := congrArg List.length heq
        rwa [H.length_foldPath, H.length_foldPath] at hlength
    rcases hsource with rfl | ⟨y, hy, hydir⟩
    · rw [HostDir.find_nil] at hfind
      cases hfind
    · rw [hfind] at hy
      rw [isFile_itemOf, Option.some.inj hy, hydir] at hfile
      cases hfile

/-- A file of the tree is not there before its turn. -/
theorem find_none_of_file (hdone : ∀ x ∈ done, x ∈ source.entries)
    (h : Placed (done.map itemOf) t) (he : e ∈ source.entries) (hnew : e ∉ done)
    (hfile : e.isDirectory = false) : t.find e.path = none := by
  cases hfind : t.find e.path with
  | none => rfl
  | some x =>
    obtain ⟨hmem, hxe⟩ := HostDir.find_eq_some.mp hfind
    obtain ⟨i, hi, hskip, hfrom⟩ := h.sourced x hmem
    obtain ⟨e', he', rfl⟩ := List.mem_map.mp hi
    have hpre : H.foldPath e.path <+: H.foldPath e'.path := by
      cases hfrom with
      | file _ hpath _ _ => exact (hxe.symm.trans hpath) ▸ List.prefix_rfl
      | directory _ hpath _ => exact hxe ▸ hpath
    by_cases heq : H.foldPath e.path = H.foldPath e'.path
    · have hsame := HostDir.eq_of_foldPath he (hdone e' he') heq.symm
      exact absurd (hsame ▸ he') hnew
    · rcases HostDir.hasDir_of_above (hdone e' he') hpre heq with hnil | ⟨y, hy, hydir⟩
      · exact absurd hnil (source.ok e he).ne_nil
      · rw [HostDir.find_of_mem he] at hy
        rw [Option.some.inj hy, hydir] at hfile
        cases hfile

/-- One entry of the tree is placed. -/
theorem placeItem_some (hdone : ∀ x ∈ done, x ∈ source.entries)
    (h : Placed (done.map itemOf) t) (he : e ∈ source.entries) (hnew : e ∉ done) :
    ∃ t', placeItem t (itemOf e) = .ok t' ∧
      (skipsPath H e.path = false → e.isDirectory = true → t'.HasDir e.path) := by
  have hok := source.ok e he
  cases hskip : skipsPath H e.path with
  | true =>
    refine ⟨t, ?_, ?_⟩
    · rw [placeItem]
      exact if_pos hskip
    · intro hfalse
      cases hfalse
  | false =>
    cases hdir : e.isDirectory with
    | true =>
      have hitem : (itemOf e).isFile = false := by simp [hdir]
      refine ⟨_, placeItem_directory hskip hitem, fun _ _ => ?_⟩
      apply HostDir.createDirectories_makes hok.names
      intro q x hq hx
      exact isDirectory_above hdone h he hq (Or.inr hdir) hx
    | false =>
      obtain ⟨d, n, hpath⟩ := hok.exists_snoc
      have hitem : (itemOf e).isFile = true := by simp [hdir]
      have hd : d <+: e.path := hpath ▸ List.prefix_append d [n]
      have hparent : (t.createDirectories d).HasDir d := by
        apply HostDir.createDirectories_makes
        · intro m hm
          exact hok.names m (hpath ▸ List.mem_append_left _ hm)
        · intro q x hq hx
          apply isDirectory_above hdone h he (hq.trans hd) (Or.inl _) hx
          intro heq
          have hlength := hq.length_le
          rw [heq, hpath, List.length_append, List.length_singleton] at hlength
          omega
      have hnone : (t.createDirectories d).find (d ++ [n]) = none := by
        cases hfind : (t.createDirectories d).find (d ++ [n]) with
        | none => rfl
        | some x =>
          rcases HostDir.find_createDirectories_new hfind with hold | ⟨hpre, _⟩
          · rw [← hpath, find_none_of_file hdone h he hnew hdir] at hold
            cases hold
          · have hlength := hpre.length_le
            rw [H.length_foldPath, H.length_foldPath, List.length_append, List.length_singleton]
              at hlength
            omega
      have hdata : (itemOf e).data.length < 2 ^ 63 := by
        cases hcontent : e.content with
        | none => simp [HostEntry.isDirectory, hcontent] at hdir
        | some data =>
          simp only [itemOf, hcontent, Option.getD_some]
          exact hok.size data hcontent
      obtain ⟨t', hwrite⟩ := HostDir.writeFile_ok (a := (itemOf e).header.attributes)
        hparent (hok.names n (by simp [hpath])) hdata (H.timeAfterSet_ok hok.time.2) fun old hold => by
          rw [hnone] at hold
          cases hold
      refine ⟨t', ?_, fun _ hfalse => by cases hfalse⟩
      rw [placeItem_file hpath hskip hitem]
      exact hwrite

/-- What a successful run has placed at a directory's path is that directory. -/
def HoldsDirs (H : Host) (es : List HostEntry) (t : HostDir H) : Prop :=
  ∀ e ∈ es, skipsPath H e.path = false → e.isDirectory = true → t.HasDir e.path

theorem placeItems_some_from (source : HostDir H) (rest done : List HostEntry) (t : HostDir H)
    (hmem : ∀ x ∈ done ++ rest, x ∈ source.entries) (hnodup : (done ++ rest).Nodup)
    (h : Placed (done.map itemOf) t) (hdirs : HoldsDirs H done t) :
    ∃ t', placeItems (rest.map itemOf) t = .ok t' ∧ Placed ((done ++ rest).map itemOf) t' ∧
      HoldsDirs H (done ++ rest) t' := by
  induction rest generalizing done t with
  | nil => exact ⟨t, rfl, by simpa using h, by simpa using hdirs⟩
  | cons e rest ih =>
    have he : e ∈ source.entries := hmem e (by simp)
    have hdone : ∀ x ∈ done, x ∈ source.entries := fun x hx => hmem x (List.mem_append_left _ hx)
    have hnew : e ∉ done := by
      intro hin
      rw [List.nodup_append] at hnodup
      exact hnodup.2.2 e hin e (by simp) rfl
    obtain ⟨t₁, hplace, hdir⟩ := placeItem_some hdone h he hnew
    have hne : (itemOf e).path ≠ [] := (source.ok e he).ne_nil
    have hkeeps := placeItem_keeps hne hplace
    have hplaced : Placed ((done ++ [e]).map itemOf) t₁ := by
      rw [List.map_append]
      exact h.snoc hne hplace
    have hdirs₁ : HoldsDirs H (done ++ [e]) t₁ := by
      intro x hx hskip hxdir
      rcases List.mem_append.mp hx with hx | hx
      · exact hkeeps.hasDir (hdirs x hx hskip hxdir)
      · rw [List.mem_singleton.mp hx] at hskip hxdir ⊢
        exact hdir hskip hxdir
    have hassoc : done ++ e :: rest = (done ++ [e]) ++ rest := by simp
    rw [hassoc] at hmem hnodup ⊢
    obtain ⟨t', hrun, hrest⟩ := ih (done ++ [e]) t₁ hmem hnodup hplaced hdirs₁
    refine ⟨t', ?_, hrest⟩
    rw [List.map_cons, placeItems, List.foldlM_cons, hplace]
    exact hrun

/-- Any of the entries of a tree, in their order or another, are placed in an empty one. -/
theorem placeItems_some (source : HostDir H) (es : List HostEntry)
    (hmem : ∀ e ∈ es, e ∈ source.entries) (hnodup : es.Nodup) :
    ∃ t : HostDir H, placeItems (es.map itemOf) HostDir.empty = .ok t ∧
      Placed (es.map itemOf) t ∧ HoldsDirs H es t := by
  refine placeItems_some_from source es [] HostDir.empty hmem hnodup placed_nil ?_
  intro e he
  cases he

end Entries

end LayerMount
