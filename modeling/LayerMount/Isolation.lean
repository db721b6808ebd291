import LayerMount.CopyUpEffect

/-!
# The lower layers stay as they are

A lower layer owns the files that it names outside the targets of its links.  An operation may
copy such a file, and link to the directory that a link leads to, but it never puts an owned
file into the upper.  `Isolated` is that as a relation between the states before and after, with
the lowers themselves and the contents of the files they own.  This module shows it for what the
operations are made of: puts in the upper, new files, changes of a file, markers.
-/

namespace LayerMount

open Lib

variable {e f g : Engine} {d p q : RelPath} {o : Place} {t : Tree} {id : FileId}

/-! ## Owned files -/

/-- A lower names the file at a path that no link of it is on. -/
def Owns (lowers : List Place) (id : FileId) : Prop :=
  ∃ o ∈ lowers, ∃ r, entryAt o r = some (.inl (.file id)) ∧
    ∀ a, a <+: r → isLinkPlace (placeAt o a) = false

/-- What the upper may hold: files that are there and that no lower owns. -/
def FitsUpper (e : Engine) (o : Place) : Prop :=
  ∀ r id, entryAt o r = some (.inl (.file id)) → id < e.files.length ∧ ¬Owns e.lowers id

/-- The layers share no file outside the targets of links, and every file that a layer or a
copy-up record names is there. -/
structure Engine.Separate (e : Engine) : Prop where
  upper : FitsUpper e e.upper
  lowers : ∀ o ∈ e.lowers, NamesBelow e.files.length o
  links : ∀ o ∈ e.lowers, ∀ a, isLinkPlace (placeAt o a) = true → FitsUpper e (placeAt o a)
  origins : ∀ f ∈ e.files, ∀ origin, f.metacopy = some origin → origin.file < e.files.length

theorem Engine.Separate.wf (h : e.Separate) : e.Wf :=
  ⟨fun r id hid => (h.upper r id hid).1, h.lowers, h.origins⟩

/-- The lowers, and the files that they own, are the same, and the layers stay separate. -/
structure Kept (e g : Engine) : Prop where
  lowers : g.lowers = e.lowers
  contexts : g.contexts = e.contexts
  length : e.files.length ≤ g.files.length
  separate : g.Separate
  files : ∀ id, Owns e.lowers id → fileAt g.files id = fileAt e.files id

/-- What an operation on separate layers does to them. -/
def Isolated (e g : Engine) : Prop := e.Separate → Kept e g

instance : Std.Refl Isolated := ⟨fun _ he => ⟨rfl, rfl, Nat.le_refl _, he, fun _ _ => rfl⟩⟩

theorem Kept.trans (h : Kept e f) (h' : Kept f g) : Kept e g where
  lowers := h'.lowers.trans h.lowers
  contexts := h'.contexts.trans h.contexts
  length := Nat.le_trans h.length h'.length
  separate := h'.separate
  files id hid := (h'.files id (h.lowers ▸ hid)).trans (h.files id hid)

instance : IsTrans Engine Isolated := ⟨fun _ _ _ h h' he => (h he).trans (h' (h he).separate)⟩

/-- A change of nothing that a layer or a context holds. -/
theorem isolated_of_same (hupper : g.upper = e.upper) (hlowers : g.lowers = e.lowers)
    (hfiles : g.files = e.files) (hcontexts : g.contexts = e.contexts) : Isolated e g := by
  rintro ⟨hup, hlow, hlinks, horigins⟩
  refine ⟨hlowers, hcontexts, by rw [hfiles], ⟨?_, ?_, ?_, ?_⟩, fun _ _ => by rw [hfiles]⟩
  · rw [FitsUpper, hupper, hfiles, hlowers]
    exact hup
  · rw [hlowers, hfiles]
    exact hlow
  · simp only [FitsUpper, hlowers, hfiles]
    exact hlinks
  · rw [hfiles]
    exact horigins

theorem Untouched.isolated (h : Untouched e g) : Isolated e g :=
  isolated_of_same h.upper h.lowers h.files h.contexts

/-! ## What fits the upper -/

theorem FitsUpper.mono (h : FitsUpper e o) (hg : Kept e g) : FitsUpper g o := by
  intro r id hid
  rw [hg.lowers]
  exact ⟨Nat.lt_of_lt_of_le (h r id hid).1 hg.length, (h r id hid).2⟩

theorem fitsUpper_none : FitsUpper e none := by
  intro r id hid
  rw [entryAt, placeAt_none] at hid
  cases hid

theorem FitsUpper.placeAt (h : FitsUpper e o) (p : RelPath) : FitsUpper e (placeAt o p) := by
  intro r id hid
  rw [entryAt, ← placeAt_append] at hid
  exact h (p ++ r) id hid

theorem Engine.Separate.upperAt (h : e.Separate) (p : RelPath) : FitsUpper e (e.upperAt p) :=
  h.upper.placeAt p

/-- Only the files that a tree names count. -/
theorem FitsUpper.of_files {o' : Place} (h : FitsUpper e o)
    (hfiles : ∀ r id, entryAt o' r = some (.inl (.file id)) →
      entryAt o r = some (.inl (.file id))) : FitsUpper e o' :=
  fun r id hid => h r id (hfiles r id hid)

theorem fitsUpper_leaf {v : Leaf} (hv : ∀ id, v = .file id → id < e.files.length ∧
    ¬Owns e.lowers id) : FitsUpper e (some (.leaf v)) := by
  intro r id hid
  cases r with
  | nil =>
    have hentry : (Sum.inl v : Leaf ⊕ DirNode) = .inl (.file id) := by
      simpa [entryAt, PathTree.entry] using hid
    exact hv id (Sum.inl.inj hentry)
  | cons m r =>
    rw [entryAt_cons, childAt_leaf, entryAt, placeAt_none] at hid
    cases hid

theorem mem_of_childAt {v : DirNode} {children : List (Name × Tree)} {n : Name} {c : Tree}
    (h : childAt (some (.node v children)) n = some c) : (n, c) ∈ children := by
  rw [childAt, placeAt] at h
  split at h
  · cases h
  · rw [PathTree.sub_cons] at h
    exact PathTree.mem_of_child (by simpa using h)

theorem fitsUpper_node {v : DirNode} {children : List (Name × Tree)}
    (h : ∀ c ∈ children, FitsUpper e (some c.2)) : FitsUpper e (some (.node v children)) := by
  intro r id hid
  cases r with
  | nil => simp [entryAt, PathTree.entry] at hid
  | cons n r =>
    rw [entryAt_cons] at hid
    cases hc : childAt (some (.node v children)) n with
    | none =>
      rw [hc, entryAt, placeAt_none] at hid
      cases hid
    | some c =>
      rw [hc] at hid
      exact h (n, c) (mem_of_childAt hc) r id hid

/-- A directory with other attributes names the same files. -/
theorem FitsUpper.node {v w : DirNode} {children : List (Name × Tree)}
    (h : FitsUpper e (some (.node v children))) : FitsUpper e (some (.node w children)) := by
  refine h.of_files fun r id hid => ?_
  cases r with
  | nil => simp [entryAt, PathTree.entry] at hid
  | cons n r =>
    rw [entryAt_cons] at hid ⊢
    exact hid

theorem FitsUpper.put {s : Place} (h : FitsUpper e o) (hs : FitsUpper e s) (p : RelPath) :
    FitsUpper e (PathTree.put o p s) := by
  intro r id hid
  by_cases hpre : p <+: r
  · obtain ⟨x, rfl⟩ := hpre
    by_cases hdot : (p ++ x).contains ['.'] = true
    · rw [entryAt, LayerMount.placeAt, if_pos hdot] at hid
      cases hid
    · have hx : ¬x.contains ['.'] = true := by
        simp only [List.contains_iff_mem, List.mem_append] at hdot ⊢
        exact fun hmem => hdot (.inr hmem)
      rw [entryAt, LayerMount.placeAt, if_neg hdot] at hid
      rcases PathTree.entryAt_put_or o p s x with heq | heq
      · refine hs x id ?_
        rw [entryAt, LayerMount.placeAt, if_neg hx]
        exact heq.symm.trans hid
      · refine h (p ++ x) id ?_
        rw [entryAt, LayerMount.placeAt, if_neg hdot]
        exact heq.symm.trans hid
  · rw [entryAt_put_elsewhere hpre] at hid
    exact h r id hid

theorem fitsUpper_markOpaque (h : FitsUpper e (some t)) :
    FitsUpper e (some (WhiteoutManager.markOpaqueNode t)) := by
  cases t with
  | leaf v => exact h
  | node v children =>
    rw [WhiteoutManager.markOpaqueNode]
    split
    · exact h.node.put (fitsUpper_leaf fun _ hv => by cases hv) [kOpaqueMarkerFile]
    · exact h.node

theorem fitsUpper_unmarkOpaque (h : FitsUpper e (some t)) :
    FitsUpper e (some (WhiteoutManager.unmarkOpaqueNode t)) := by
  cases t with
  | leaf v => exact h
  | node v children =>
    rw [WhiteoutManager.unmarkOpaqueNode]
    split
    · exact h.node.put fitsUpper_none [kOpaqueMarkerFile]
    · exact h.node

theorem FitsUpper.clonedLink (h : FitsUpper e (some t)) :
    FitsUpper e (some (CopyUp.clonedLink t)) := by
  cases t with
  | leaf v => exact h
  | node v children => exact h.node

theorem FitsUpper.makeDirectories (h : FitsUpper e o) (rest : RelPath) (walked : RelPath) :
    FitsUpper e (makeDirectories o walked rest) := by
  induction rest generalizing o walked with
  | nil => exact h
  | cons n rest ih =>
    rw [LayerMount.makeDirectories]
    split
    · exact ih h _
    · split
      · exact ih (h.put (fitsUpper_node fun _ hc => by cases hc) _) _
      · exact h

/-! ## Changes of the state -/

theorem isolated_upper (h : e.Separate → FitsUpper e o) : Isolated e { e with upper := o } :=
  fun he => ⟨rfl, rfl, Nat.le_refl _, ⟨h he, he.lowers, he.links, he.origins⟩, fun _ _ => rfl⟩

theorem isolated_put (h : e.Separate → FitsUpper e o) (p : RelPath) :
    Isolated e (e.putUpper p o) :=
  isolated_upper fun he => he.upper.put (h he) p

theorem owned_below (he : e.Separate) (hid : Owns e.lowers id) : id < e.files.length := by
  obtain ⟨o, ho, r, hr, -⟩ := hid
  exact he.lowers o ho r id hr

/-- A new file, whose record names a file that is there. -/
theorem isolated_newFile {x : FileObj} (hx : e.Separate → ∀ origin, x.metacopy = some origin →
    origin.file < e.files.length) : Isolated e { e with files := e.files ++ [x] } := by
  intro he
  have hle : e.files.length ≤ (e.files ++ [x]).length := by simp
  have hfits : ∀ {o : Place}, FitsUpper e o →
      FitsUpper { e with files := e.files ++ [x] } o := fun ho r id hid =>
    ⟨Nat.lt_of_lt_of_le (ho r id hid).1 hle, (ho r id hid).2⟩
  refine ⟨rfl, rfl, hle, ⟨hfits he.upper, fun o ho => (he.lowers o ho).mono hle,
    fun o ho a ha => hfits (he.links o ho a ha), fun y hy origin horigin => ?_⟩, fun id hid => ?_⟩
  · refine Nat.lt_of_lt_of_le ?_ hle
    rcases List.mem_append.mp hy with hy | hy
    · exact he.origins y hy origin horigin
    · rw [List.mem_singleton.mp hy] at horigin
      exact hx he origin horigin
  · exact fileAt_newFile (owned_below he hid) x

/-- A change of a file that no lower owns. -/
theorem isolated_setFile {x : FileObj} (hid : e.Separate → ¬Owns e.lowers id)
    (hx : e.Separate → ∀ origin, x.metacopy = some origin → origin.file < e.files.length) :
    Isolated e { e with files := e.files.set id x } := by
  intro he
  have hlen : (e.files.set id x).length = e.files.length := List.length_set
  have hfits : ∀ {o : Place}, FitsUpper e o →
      FitsUpper { e with files := e.files.set id x } o := fun ho r i hi => by
    rw [hlen]
    exact ho r i hi
  refine ⟨rfl, rfl, Nat.le_of_eq hlen.symm, ⟨hfits he.upper, fun o ho r i hi => ?_,
    fun o ho a ha => hfits (he.links o ho a ha), fun y hy origin horigin => ?_⟩, fun i hi => ?_⟩
  · rw [hlen]
    exact he.lowers o ho r i hi
  · rw [hlen]
    rcases List.mem_or_eq_of_mem_set hy with hy | rfl
    · exact he.origins y hy origin horigin
    · exact hx he origin horigin
  · have hne : id ≠ i := fun h => hid he (h ▸ hi)
    rw [fileAt, fileAt, List.getD_eq_getElem?_getD, List.getD_eq_getElem?_getD,
      List.getElem?_set_ne hne]

end LayerMount
