import LayerMount.CopyUp
import LayerMount.ViewChange

/-!
# A copy in the upper shows what it copies

A lower entry that the view shows is copied to the upper: a file or a link as it
is, a directory without its children.  The view does not change
(`CopiesAt.viewAt`), and no other path changes even its layer.
-/

namespace LayerMount

open Lib

variable {files : List FileObj} {e g : Engine} {d p q : RelPath} {n : Name}

/-! ## Slots that hold nothing -/

def TreeSlot.Empty (s : TreeSlot) : Prop := s.sub = none ∧ s.stop = .none

theorem TreeSlot.Empty.child {s : TreeSlot} (h : s.Empty) (n : Name) : (s.child n).Empty := by
  rw [child_of_empty h.1 h.2]
  exact ⟨rfl, rfl⟩

theorem descendFrom_empty {s : TreeSlot} (hs : s.Empty) (n : Name) (held : Bool)
    (slots : List TreeSlot) :
    (treeOverlay files).descendFrom n held (s :: slots)
      = s.child n :: (treeOverlay files).descendFrom n held slots := by
  have hchild := child_of_empty hs.1 hs.2 n
  rw [Overlay.descendFrom]
  simp [treeOverlay, hchild, hs.1, childAt, holdsOpaquePlace]

theorem nameShown_empty {s : TreeSlot} (hs : s.Empty) (n : Name) (slots : List TreeSlot) :
    nameShown (s :: slots) n = nameShown slots n := by
  simp [nameShown, hs.2]

theorem showFrom_cons (slots : List TreeSlot) (n : Name) (q : RelPath) :
    showFrom files slots (n :: q)
      = if nameShown slots n then showFrom files ((treeOverlay files).descend slots n) q
        else none := by
  simp only [showFrom, passes, Overlay.walk_cons, Bool.and_eq_true]
  by_cases hn : nameShown slots n = true
  · simp [hn]
  · simp [hn]

theorem showFrom_empty {s : TreeSlot} (hs : s.Empty) (slots : List TreeSlot) (q : RelPath) :
    showFrom files (s :: slots) q = showFrom files slots q := by
  induction q generalizing s slots with
  | nil =>
    have hentry : (treeOverlay files).entry s = none := by simp [treeOverlay, hs.1]
    simp only [showFrom, passes, Overlay.walk_nil, if_true]
    rw [Overlay.look, hentry]
  | cons n q ih =>
    rw [showFrom_cons, showFrom_cons, nameShown_empty hs, Overlay.descend, descendFrom_empty hs,
      ih (hs.child n)]
    rfl

theorem showFrom_empties {pre : List TreeSlot} (hpre : ∀ s ∈ pre, s.Empty)
    (slots : List TreeSlot) (q : RelPath) :
    showFrom files (pre ++ slots) q = showFrom files slots q := by
  induction pre with
  | nil => rfl
  | cons s pre ih =>
    rw [List.cons_append, showFrom_empty (hpre s (by simp)),
      ih fun s' hs' => hpre s' (by simp [hs'])]

/-! ## Leaves and links -/

theorem childAt_leaf (v : Leaf) (n : Name) : childAt (some (.leaf v)) n = none := by
  rw [childAt, placeAt]
  split
  · rfl
  · exact PathTree.sub_leaf v n []

theorem showFrom_nowhere {slots : List TreeSlot} (h : ∀ s ∈ slots, s.sub = none) (q : RelPath) :
    showFrom files slots q = none := by
  induction q generalizing slots with
  | nil =>
    simp only [showFrom, passes, Overlay.walk_nil, if_true]
    apply Overlay.look_eq_none
    intro s hs
    simp [treeOverlay, h s hs]
  | cons n q ih =>
    rw [showFrom_cons]
    split
    · apply ih
      intro u hu
      obtain ⟨t, ht, rfl⟩ := (treeOverlay files).mem_descendFrom hu
      exact (child_sub t n).trans (by rw [h t ht]; exact placeAt_none [n])
    · rfl

/-- Below a file nothing shows. -/
theorem showFrom_leaf {s : TreeSlot} {v : Leaf} (hs : s.sub = some (.leaf v)) (n : Name)
    (q : RelPath) : showFrom files [s] (n :: q) = none := by
  rw [showFrom_cons]
  split
  · apply showFrom_nowhere
    intro u hu
    obtain ⟨t, ht, rfl⟩ := (treeOverlay files).mem_descendFrom hu
    obtain rfl : t = s := by simpa using ht
    exact (child_sub t n).trans (by rw [hs]; exact childAt_leaf v n)
  · rfl

theorem showFrom_singleton_nil (s : TreeSlot) :
    showFrom files [s] [] = (treeOverlay files).entry s := by
  simp only [showFrom, passes, Overlay.walk_nil, if_true]
  rw [Overlay.look]
  cases (treeOverlay files).entry s <;> rfl

/-- In a link's target the layer of the link makes no difference. -/
theorem showFrom_link {s s' : TreeSlot} (hs : s.stop = .link) (hs' : s'.stop = .link)
    (hroot : s.sub.map (shownOf files false) = s'.sub.map (shownOf files false))
    (hbelow : ∀ n, childAt s.sub n = childAt s'.sub n) (q : RelPath) :
    (showFrom files [s] q).map TreeEntry.shown = (showFrom files [s'] q).map TreeEntry.shown := by
  induction q generalizing s s' with
  | nil =>
    rw [showFrom_singleton_nil, showFrom_singleton_nil]
    simpa [treeOverlay, hs, hs', Function.comp_def] using hroot
  | cons n q ih =>
    have hdesc : ∀ {s : TreeSlot}, s.stop = .link →
        (treeOverlay files).descend [s] n = [s.child n] := fun hs =>
      @InLink.descendFrom files [] _ hs (by simp) n false
    have hname : ∀ {s : TreeSlot}, s.stop = .link →
        nameShown [s] n = (!n.contains ':' && n ≠ ['.', '.']) := by
      intro s hs
      simp [nameShown, hs]
    rw [showFrom_cons, showFrom_cons, hdesc hs, hdesc hs', hname hs, hname hs']
    split
    · apply ih
      · simp [TreeSlot.child, slotIn, hs]
      · simp [TreeSlot.child, slotIn, hs']
      · rw [child_sub, child_sub, hbelow]
      · intro m
        rw [child_sub, child_sub, hbelow]
    · rfl

theorem treeKind_clonedLink (t : Tree) : treeKind (CopyUp.clonedLink t) = treeKind t := by
  cases t <;> rfl

theorem shownOf_clonedLink (record : Bool) (t : Tree) :
    shownOf files record (CopyUp.clonedLink t) = shownOf files record t := by
  cases t <;> rfl

theorem childAt_clonedLink (t : Tree) (n : Name) :
    childAt (some (CopyUp.clonedLink t)) n = childAt (some t) n := by
  cases t <;> rfl

theorem showFrom_link_none {s : TreeSlot} (hs : s.stop = .link) (hnone : placeAt s.sub q = none) :
    showFrom files [s] q = none := by
  induction q generalizing s with
  | nil =>
    rw [placeAt_nil] at hnone
    rw [showFrom_singleton_nil]
    simp [treeOverlay, hnone]
  | cons n q ih =>
    have hdesc : (treeOverlay files).descend [s] n = [s.child n] :=
      @InLink.descendFrom files [] _ hs (by simp) n false
    rw [showFrom_cons, hdesc]
    split
    · apply ih
      · simp [TreeSlot.child, slotIn, hs]
      · rw [child_sub, ← placeAt_cons, hnone]
    · rfl

/-! ## The first slot that holds a name -/

theorem slotIn_link_of_stop {i : Option Nat} {stop : WalkStop} {o : Place}
    (h : (slotIn i stop o).stop = .none) : (slotIn i stop o).link = false := by
  unfold slotIn at h ⊢
  split
  · rename_i hstop
    rw [if_pos hstop] at h
    cases hk : placeKind o <;> simp_all [walkStopAt]
  · rfl

theorem look_split {slots : List TreeSlot} {x : TreeEntry}
    (hlook : (treeOverlay files).look slots = some x)
    (hpair : slots.Pairwise fun s _ => (treeOverlay files).covers s = false) :
    ∃ pre T post t, slots = pre ++ T :: post ∧ (∀ s ∈ pre, s.Empty) ∧ T.sub = some t ∧
      (treeOverlay files).entry T = some x := by
  induction slots with
  | nil => cases hlook
  | cons s rest ih =>
    rw [Overlay.look] at hlook
    cases hs : s.sub with
    | some t =>
      have hentry : (treeOverlay files).entry s = some x := by
        cases he : (treeOverlay files).entry s with
        | none => simp [treeOverlay, hs] at he
        | some y => rw [he] at hlook; exact hlook
      exact ⟨[], s, rest, t, rfl, by simp, hs, hentry⟩
    | none =>
      have hentry : (treeOverlay files).entry s = none := by simp [treeOverlay, hs]
      rw [hentry] at hlook
      obtain ⟨hhead, hrest⟩ := List.pairwise_cons.mp hpair
      obtain ⟨pre, T, post, t, rfl, hpre, hT, hx⟩ := ih hlook hrest
      refine ⟨s :: pre, T, post, t, rfl, ?_, hT, hx⟩
      intro u hu
      rcases List.mem_cons.mp hu with rfl | hu
      · refine ⟨hs, ?_⟩
        by_contra hne
        rw [covers_of_stop hne] at hhead
        cases hhead T (by simp)
      · exact hpre u hu

/-- A name that the upper holds is not followed through a lower's link, so a first
holder that is no link is found all the same. -/
theorem descendFrom_held {pre post slots : List TreeSlot} {T : TreeSlot}
    (h : (treeOverlay files).descendFrom n false slots = pre ++ T :: post)
    (hpre : ∀ s ∈ pre, s.Empty) (hT : T.sub.isSome = true) (hlink : T.link = false) :
    (treeOverlay files).descendFrom n true slots = pre ++ T :: post := by
  induction slots generalizing pre with
  | nil => simp at h
  | cons s rest ih =>
    have hentry : ((treeOverlay files).entry (s.child n)).isSome = (s.child n).sub.isSome := by
      simp [treeOverlay]
    have hchild : (treeOverlay files).child s n = s.child n := rfl
    rw [Overlay.descendFrom, hchild] at h ⊢
    rw [hentry] at h ⊢
    cases pre with
    | nil =>
      rw [List.nil_append] at h ⊢
      split at h
      · cases h
      · rename_i hcond
        rw [List.cons.injEq] at h
        obtain ⟨rfl, hpost⟩ := h
        have hl : (treeOverlay files).link (s.child n) = false := hlink
        rw [hl, Bool.and_false] at hcond ⊢
        rw [if_neg hcond, Bool.true_or]
        rw [hT, Bool.false_or] at hpost
        rw [hpost]
    | cons u pre =>
      rw [List.cons_append] at h ⊢
      split at h
      · cases h
      · rename_i hcond
        rw [List.cons.injEq] at h
        obtain ⟨rfl, hrest⟩ := h
        obtain ⟨hsub, hstop⟩ := hpre (s.child n) (by simp)
        have hl : (treeOverlay files).link (s.child n) = false := slotIn_link_of_stop hstop
        rw [hl, Bool.and_false] at hcond ⊢
        rw [if_neg hcond, Bool.true_or]
        rw [hsub, Option.isSome_none, Bool.or_false] at hrest
        split at hrest
        · simp at hrest
        · rename_i hcov
          rw [if_neg hcov, ih hrest fun s' hs' => hpre s' (by simp [hs'])]

/-- The walk to a directory that holds an entry did not stop, or it stopped at a link. -/
theorem stop_above {o : Place} {i : Option Nat} {t : Tree} (h : placeAt o (d ++ [n]) = some t) :
    (slotOf o i d).stop = .none ∨ (slotOf o i d).stop = .link := by
  cases hs : (slotOf o i d).stop with
  | none => exact .inl rfl
  | link => exact .inr rfl
  | unreadable =>
    rw [slotOf_stop []] at hs
    exact absurd hs (walk_stop_ne_unreadable readable_ofTree d)
  | file =>
    -- below a file there is nothing
    rw [slotOf_stop []] at hs
    have hn : n ≠ ['.'] := by
      rintro rfl
      simp [placeAt] at h
    have hget := get_snoc_of_stop_file (@readable_ofTree [] o) hs hn
    rw [get_ofTree, h] at hget
    cases hget

/-- The walk to an entry stopped at a link, or at the entry itself unless that is a
directory. -/
theorem stop_cases {o : Place} {i : Option Nat} {t : Tree} (hp : p ≠ [])
    (ht : placeAt o p = some t) :
    (slotOf o i p).stop = .link ∨ (slotOf o i p).stop = walkStopAt (placeKind (some t)) := by
  obtain ⟨d, n, rfl⟩ : ∃ d n, p = d ++ [n] := ⟨_, _, (List.dropLast_append_getLast hp).symm⟩
  rw [slotOf_snoc, TreeSlot.child, slotOf_sub, ← placeAt_snoc, ht, slotIn]
  rcases stop_above (i := i) ht with h | h
  · rw [h]
    exact .inr rfl
  · rw [h]
    exact .inl rfl

/-- A place where the walk did not stop is a directory. -/
theorem directory_of_stop {o : Place} {i : Option Nat} {t : Tree} (hp : p ≠ [])
    (hstop : (slotOf o i p).stop = .none) (ht : placeAt o p = some t) :
    treeKind t = .directory := by
  rcases stop_cases (i := i) hp ht with h | h
  · rw [h] at hstop
    cases hstop
  · rw [h] at hstop
    cases hk : treeKind t <;> simp [placeKind, hk, walkStopAt] at hstop ⊢

theorem stop_of_link {o : Place} {i : Option Nat} {t : Tree} (hp : p ≠ [])
    (ht : placeAt o p = some t) (hkind : treeKind t = .link) : (slotOf o i p).stop = .link := by
  rcases stop_cases (i := i) hp ht with h | h
  · exact h
  · rw [h]
    simp [placeKind, hkind, walkStopAt]

theorem shownOf_eq_link_iff {record : Bool} {t : Tree} :
    shownOf files record t = .link ↔ treeKind t = .link := by
  cases t with
  | node v children => cases hl : v.link <;> simp [treeKind, shownOf, hl]
  | leaf w => cases w <;> simp [treeKind, shownOf]

theorem shownOf_eq_directory_iff {record : Bool} {t : Tree} :
    shownOf files record t = .directory ↔ treeKind t = .directory := by
  cases t with
  | node v children => cases hl : v.link <;> simp [treeKind, shownOf, hl]
  | leaf w => cases w <;> simp [treeKind, shownOf]

/-- Where the upper has an entry, no lower's slot is in a link's target. -/
theorem stop_of_mem_lowersAt {S : TreeSlot} (hS : S ∈ lowersAt e d)
    (hd : (e.upperAt d).isSome = true) : S.stop ≠ .link := by
  intro hlink
  have hcons := slotsAt_cons e d
  obtain ⟨pre, t, hsplit, ht, hpre⟩ := inLink_slotsAt e d ⟨S, by rw [hcons]; simp [hS], hlink⟩
  rw [hcons] at hsplit
  cases pre with
  | nil =>
    rw [List.nil_append, List.cons.injEq] at hsplit
    rw [hsplit.2] at hS
    cases hS
  | cons u pre =>
    rw [List.cons_append, List.cons.injEq] at hsplit
    have hnone := (hpre u (by simp)).1
    rw [← hsplit.1, slotOf_sub] at hnone
    rw [Engine.upperAt, hnone] at hd
    cases hd

/-- The slot of a lower's entry below such a directory. -/
theorem slot_of_mem_lowersOf {T : TreeSlot} {t : Tree} (hT : T ∈ lowersOf e d n)
    (ht : T.sub = some t) (hd : (e.upperAt d).isSome = true) :
    ∃ i, e.lowerAt i (d ++ [n]) = some t ∧ T = slotIn (some i) .none (some t) := by
  obtain ⟨S, hS, rfl⟩ := (treeOverlay []).mem_descendFrom hT
  have hlink := stop_of_mem_lowersAt hS hd
  obtain ⟨i, rfl⟩ := mem_lowersAt hS
  have hchild : (slotOf (e.lowers.getD i none) (some i) d).child n
      = slotIn (some i) (slotOf (e.lowers.getD i none) (some i) d).stop
          (placeAt (e.lowers.getD i none) (d ++ [n])) := by
    rw [TreeSlot.child, slotOf_lowerIndex, slotOf_sub, placeAt_snoc]
  change ((slotOf (e.lowers.getD i none) (some i) d).child n).sub = some t at ht
  rw [hchild, slotIn_sub] at ht
  refine ⟨i, ht, ?_⟩
  change (slotOf (e.lowers.getD i none) (some i) d).child n = _
  rw [hchild, ht]
  congr 1
  rcases stop_above (i := some i) ht with h | h
  · exact h
  · exact absurd h hlink

/-! ## Copies -/

/-- The tree `t'` in the upper shows what `t` in a lower shows, a directory without
its children. -/
inductive Copies (files : List FileObj) : Tree → Tree → Prop
  | file {t : Tree} {id : FileId} (hid : id < files.length) (hkind : treeKind t = .file)
      (hshown : shownOf files true (.leaf (.file id)) = shownOf files false t) :
      Copies files t (.leaf (.file id))
  | link {t : Tree} (hkind : treeKind t = .link) : Copies files t (CopyUp.clonedLink t)
  | directory {v : DirNode} (children : List (Name × Tree)) (readOnly : Bool)
      (hlink : v.link = false) : Copies files (.node v children) (.node { readOnly } [])

/-- The state `g` is `e` with a copy of the lower entry that shows at `d\n`. -/
structure CopiesAt (e g : Engine) (d : RelPath) (n : Name) (t t' : Tree) : Prop where
  puts : PutsAt e g (d ++ [n]) (some t')
  plain : n ≠ ['.'] ∧ isWhiteoutName n = false
  parent : leadsToDirectory (e.upperAt d) = true
  free : e.upperAt (d ++ [n]) = none
  stop : (slotOf e.upper none d).stop = .none
  unmarked : (treeOverlay []).whites (slotOf e.upper none d) n = false
  shown : ∃ x i, (treeOverlay e.files).look (lowersOf e d n) = some x ∧
    x.lowerIndex = some i ∧ e.lowerAt i (d ++ [n]) = some t
  copies : Copies e.files t t'

namespace CopiesAt

variable {t t' : Tree}

theorem plainAt (h : CopiesAt e g d n t t') : PlainAt e d n := ⟨h.plain.1, .inl h.plain.2⟩

theorem split (h : CopiesAt e g d n t t') :
    ∃ pre post i, lowersOf e d n = pre ++ slotIn (some i) .none (some t) :: post ∧
      ∀ s ∈ pre, s.Empty := by
  obtain ⟨x, i, hlook, hidx, hplace⟩ := h.shown
  have hpair := (treeOverlay e.files).descendFrom_pairwise n false (lowersAt e d)
  rw [descendFrom_files e.files []] at hpair
  obtain ⟨pre, T, post, t₁, hsplit, hpre, hT, hx⟩ := look_split hlook hpair
  have hd : (e.upperAt d).isSome = true := by
    have := h.parent
    cases hu : e.upperAt d with
    | none => rw [hu] at this; cases this
    | some t => rfl
  obtain ⟨k, hk, rfl⟩ := slot_of_mem_lowersOf (by rw [hsplit]; simp) hT hd
  -- the entry's index says which lower it is
  obtain rfl : k = i := by
    have : x.lowerIndex = some k := by
      simp only [treeOverlay, slotIn_sub, slotIn_lowerIndex, Option.map_some,
        Option.some.injEq] at hx
      rw [← hx]
    rw [hidx] at this
    exact (Option.some.inj this).symm
  rw [hk] at hplace
  obtain rfl := Option.some.inj hplace
  exact ⟨pre, post, k, hsplit, hpre⟩

theorem showFrom_before (h : CopiesAt e g d n t t') (q : RelPath) :
    showFrom e.files (slotsAt e (d ++ [n])) q = showFrom e.files (lowersOf e d n) q := by
  rw [slotsAt_snoc, h.free, h.stop, lowersUnder, h.unmarked, h.stop]
  have hempty : (slotIn none .none none).Empty := ⟨rfl, rfl⟩
  have hcov : (treeOverlay []).covers (slotIn none .none none) = false := rfl
  rw [hcov, Bool.or_self, if_neg (by decide), Option.isSome_none, showFrom_empty hempty]
  rfl

/-- A file or a link hides the slots below it, so it is all that shows. -/
theorem showFrom_of_covering (h : CopiesAt e g d n t t')
    (hcov : (treeOverlay []).covers (slotIn none .none (some t)) = true) (q : RelPath) :
    ∃ i, showFrom e.files (slotsAt e (d ++ [n])) q
      = showFrom e.files [slotIn (some i) .none (some t)] q := by
  obtain ⟨pre, post, i, hsplit, hpre⟩ := h.split
  have hpair := (treeOverlay []).descendFrom_pairwise n false (lowersAt e d)
  rw [show (treeOverlay []).descendFrom n false (lowersAt e d)
      = pre ++ slotIn (some i) .none (some t) :: post from hsplit, List.pairwise_append] at hpair
  have hpost : post = [] := by
    cases post with
    | nil => rfl
    | cons u post =>
      have := List.rel_of_pairwise_cons hpair.2.1 List.mem_cons_self
      rw [show (treeOverlay []).covers (slotIn (some i) .none (some t)) = true from hcov] at this
      cases this
  refine ⟨i, ?_⟩
  rw [h.showFrom_before, hsplit, hpost, showFrom_empties hpre]

theorem slotsAt_after (h : CopiesAt e g d n t t') :
    slotsAt g (d ++ [n]) = slotIn none .none (some t') ::
      if (treeOverlay []).covers (slotIn none .none (some t')) then []
      else (treeOverlay []).descendFrom n true (lowersAt e d) := by
  rw [h.puts.slotsAt h.plainAt h.parent, lowersUnder, h.stop, h.unmarked, Bool.or_false]
  rfl

/-- Below a copied directory the lowers show what they showed. -/
theorem showFrom_directory {v : DirNode} {children : List (Name × Tree)} {readOnly : Bool}
    (h : CopiesAt e g d n (.node v children) (.node { readOnly } []))
    (hlink : v.link = false) (m : Name) (q : RelPath) :
    showFrom g.files (slotsAt g (d ++ [n])) (m :: q)
      = showFrom e.files (slotsAt e (d ++ [n])) (m :: q) := by
  have hkind : ∀ i, slotIn i .none (some (.node v children))
      = { lowerIndex := i, sub := some (.node v children) } := by
    simp [slotIn, placeKind, treeKind, hlink, walkStopAt]
  have hcopy : slotIn none .none (some (.node { readOnly } [] : Tree))
      = { lowerIndex := none, sub := some (.node { readOnly } []) } := by
    simp [slotIn, placeKind, treeKind, walkStopAt]
  have hnone : ∀ x, childAt (some (.node { readOnly } [] : Tree)) x = none := by
    intro x
    simp [childAt, placeAt, PathTree.sub_cons, PathTree.child]
  have hcov : (treeOverlay []).covers
      (slotIn none .none (some (.node { readOnly } [] : Tree))) = false := by
    rw [hcopy]
    simp [treeOverlay, holdsOpaquePlace, hnone]
  obtain ⟨pre, post, i, hsplit, hpre⟩ := h.split
  have hheld : (treeOverlay []).descendFrom n true (lowersAt e d) = lowersOf e d n := by
    rw [hsplit]
    exact descendFrom_held hsplit hpre (by simp) (by simp [hkind])
  rw [h.slotsAt_after, hcov, if_neg (by decide), hheld, h.showFrom_before, h.puts.files,
    showFrom_cons, showFrom_cons]
  have hname : nameShown (slotIn none .none (some (.node { readOnly } [] : Tree)) ::
      lowersOf e d n) m = nameShown (lowersOf e d n) m := by
    rw [hcopy]
    simp [nameShown]
  rw [hname, descend_upper (by simp), slotIn_sub, hnone, lowersUnder]
  have hstop : (slotIn none .none (some (.node { readOnly } [] : Tree))).stop
      = .none := by rw [hcopy]
  have hwhites : (treeOverlay []).whites
      (slotIn none .none (some (.node { readOnly } [] : Tree))) m = false := by
    simp [treeOverlay, hnone]
  have hnothing : (treeOverlay []).covers (slotIn none .none none) = false := rfl
  simp only [hstop, hnothing, hwhites, Bool.or_self, Bool.false_eq_true, if_false,
    Option.isSome_none]
  rw [showFrom_empty ⟨rfl, rfl⟩, Overlay.descend, descendFrom_files e.files []]

/-- At and below the copy the view is what it was. -/
theorem shown_below (h : CopiesAt e g d n t t') (q : RelPath) :
    (showFrom g.files (slotsAt g (d ++ [n])) q).map TreeEntry.shown
      = (showFrom e.files (slotsAt e (d ++ [n])) q).map TreeEntry.shown := by
  cases h.copies with
  | @file _ id hid hkind hshown =>
    have hpk : placeKind (some t) = .file := by simp [placeKind, hkind]
    obtain ⟨i, hbefore⟩ := h.showFrom_of_covering
      (covers_of_stop (by simp [slotIn, hpk, walkStopAt])) q
    have hcov : (treeOverlay []).covers (slotIn none .none (some (.leaf (.file id)))) = true :=
      covers_of_stop (by simp [slotIn, placeKind, treeKind, walkStopAt])
    rw [h.slotsAt_after, hcov, if_pos rfl, hbefore, h.puts.files]
    cases q with
    | nil =>
      rw [showFrom_singleton_nil, showFrom_singleton_nil]
      simp [treeOverlay, slotIn, placeKind, treeKind, walkStopAt, ← hshown]
    | cons m q =>
      cases t with
      | node v children =>
        cases hv : v.link <;> simp [treeKind, hv] at hkind
      | leaf v => rw [showFrom_leaf (slotIn_sub _), showFrom_leaf (slotIn_sub _)]
  | link hkind =>
    have hstop : ∀ {i t}, treeKind t = .link → (slotIn i .none (some t)).stop = .link := by
      intro i t ht
      simp [slotIn, placeKind, ht, walkStopAt]
    have hkind' := (treeKind_clonedLink t).trans hkind
    have hcov : ∀ {t}, treeKind t = .link →
        (treeOverlay []).covers (slotIn none .none (some t)) = true :=
      fun ht => covers_of_stop (by rw [hstop ht]; decide)
    obtain ⟨i, hbefore⟩ := h.showFrom_of_covering (hcov hkind) q
    rw [h.slotsAt_after, hcov hkind', if_pos rfl, hbefore, h.puts.files]
    apply showFrom_link (hstop hkind') (hstop hkind)
    · simp [shownOf_clonedLink]
    · intro m
      rw [slotIn_sub, slotIn_sub, childAt_clonedLink]
  | @directory v children readOnly hlink =>
    cases q with
    | nil =>
      obtain ⟨pre, post, i, hsplit, hpre⟩ := h.split
      rw [h.showFrom_before, hsplit, showFrom_empties hpre, h.slotsAt_after]
      simp [showFrom, passes, Overlay.look, treeOverlay, shownOf, hlink]
    | cons m q => rw [h.showFrom_directory hlink]

/-- A copy does not change the view. -/
theorem viewAt (h : CopiesAt e g d n t t') (r : RelPath) : viewAt g r = viewAt e r := by
  by_cases hr : d ++ [n] <+: r
  · obtain ⟨q, rfl⟩ := hr
    have hne : d ++ [n] ≠ [] := by simp
    rw [viewAt_eq g (by simp), viewAt_eq e (by simp), showAt_below g hne, showAt_below e hne,
      h.puts.isResolvablePath h.plainAt]
    split
    · exact h.shown_below q
    · rfl
  · exact h.puts.viewAt h.plainAt hr

/-- A path that is still not in the upper shows from the layer it showed from. -/
theorem showAt_exact (h : CopiesAt e g d n t t') {r : RelPath} (hr : g.upperAt r = none) :
    showAt g r = showAt e r := by
  by_cases hpre : d ++ [n] <+: r
  · obtain ⟨q, rfl⟩ := hpre
    have hne : d ++ [n] ≠ [] := by simp
    rw [showAt_below g hne, showAt_below e hne, h.puts.isResolvablePath h.plainAt]
    split
    · have hsub : g.upperAt (d ++ [n] ++ q) = placeAt (some t') q := by
        rw [Engine.upperAt, h.puts.upper]
        exact placeAt_put h.parent h.plain.1 (some t') q
      rw [hsub] at hr
      have hshown := h.shown_below q
      cases q with
      | nil =>
        rw [placeAt_nil] at hr
        cases hr
      | cons m q =>
        have hnone : ∀ {a b : Option TreeEntry}, a = none →
            a.map TreeEntry.shown = b.map TreeEntry.shown → a = b := by
          intro a b ha hab
          rw [ha] at hab ⊢
          exact (Option.map_eq_none_iff.mp hab.symm).symm
        cases h.copies with
        | @file _ id hid hkind _ =>
          refine hnone ?_ hshown
          rw [h.slotsAt_after, if_pos (covers_of_stop
            (by simp [slotIn, placeKind, treeKind, walkStopAt])), showFrom_leaf (slotIn_sub _)]
        | link hkind =>
          have hkind' := (treeKind_clonedLink t).trans hkind
          have hstop : (slotIn none .none (some (CopyUp.clonedLink t))).stop = .link := by
            simp [slotIn, placeKind, hkind', walkStopAt]
          refine hnone ?_ hshown
          rw [h.slotsAt_after, if_pos (covers_of_stop (by rw [hstop]; decide))]
          exact showFrom_link_none hstop (by rw [slotIn_sub]; exact hr)
        | @directory v children readOnly hlink => rw [h.showFrom_directory hlink]
    · rfl
  · have := (h.puts.sameAlong (f := id) h.plainAt hpre).showAt
    simpa using this.symm

theorem grows (h : CopiesAt e g d n t t') {r : RelPath} (hr : (e.upperAt r).isSome = true) :
    (g.upperAt r).isSome = true := by
  by_cases hpre : d ++ [n] <+: r
  · obtain ⟨q, rfl⟩ := hpre
    have hfree := h.free
    rw [Engine.upperAt] at hfree hr
    rw [placeAt_append, hfree, placeAt_none] at hr
    cases hr
  · rw [h.puts.isSome_upperAt hpre, hr]

end CopiesAt

end LayerMount
