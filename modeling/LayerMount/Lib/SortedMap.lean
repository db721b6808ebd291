import Mathlib.Data.List.Perm.Basic

/-!
# Maps in the order of their keys

An ordered map as the list of its entries, each key once and the keys in strict order.  The
order makes the list canonical: a map is what was put into it, in whatever order it was put
(`setAll_perm`,
`eq_of_perm`).
-/

namespace LayerMount.Lib

section Keys

variable {K V : Type} [LT K] [DecidableEq K] [DecidableLT K]

/-- Sets the value of a key in a list of entries in the order of their keys. -/
def setKey (key : K) (value : V) : List (K × V) → List (K × V)
  | [] => [(key, value)]
  | (k, v) :: rest =>
    if key = k then (key, value) :: rest
    else if key < k then (key, value) :: (k, v) :: rest
    else (k, v) :: setKey key value rest

theorem mem_setKey {key : K} {value : V} {e : K × V} {entries : List (K × V)}
    (h : e ∈ setKey key value entries) : e = (key, value) ∨ e ∈ entries := by
  induction entries with
  | nil => simpa [setKey] using h
  | cons f rest ih =>
    unfold setKey at h
    split at h
    · rcases List.mem_cons.mp h with h | h
      · exact Or.inl h
      · exact Or.inr (List.mem_cons_of_mem _ h)
    · split at h
      · exact List.mem_cons.mp h
      · rcases List.mem_cons.mp h with h | h
        · exact Or.inr (h ▸ List.mem_cons_self)
        · rcases ih h with h | h
          · exact Or.inl h
          · exact Or.inr (List.mem_cons_of_mem _ h)

/-- A new key adds one entry. -/
theorem perm_setKey {key : K} {value : V} {entries : List (K × V)}
    (h : ∀ e ∈ entries, e.1 ≠ key) : (setKey key value entries).Perm ((key, value) :: entries) := by
  induction entries with
  | nil => exact List.Perm.refl _
  | cons f rest ih =>
    have hne : key ≠ f.1 := fun heq => h f (by simp) heq.symm
    have hrest := ih fun e he => h e (List.mem_cons_of_mem _ he)
    unfold setKey
    rw [if_neg hne]
    split
    · exact List.Perm.refl _
    · exact (hrest.cons f).trans (List.Perm.swap _ _ _)

variable [Trans (· < · : K → K → Prop) (· < ·) (· < ·)]
  [Std.Trichotomous (· < · : K → K → Prop)]

theorem pairwise_setKey {key : K} {value : V} {entries : List (K × V)}
    (h : entries.Pairwise fun a b => a.1 < b.1) :
    (setKey key value entries).Pairwise fun a b => a.1 < b.1 := by
  induction entries with
  | nil => simp [setKey]
  | cons f rest ih =>
    rw [List.pairwise_cons] at h
    unfold setKey
    split
    · rename_i heq
      rw [List.pairwise_cons]
      exact ⟨fun e he => heq ▸ h.1 e he, h.2⟩
    · rename_i hne
      split
      · rename_i hlt
        rw [List.pairwise_cons, List.pairwise_cons]
        refine ⟨?_, h.1, h.2⟩
        intro e he
        rcases List.mem_cons.mp he with rfl | he
        · exact hlt
        · exact Trans.trans hlt (h.1 e he)
      · rename_i hnlt
        rw [List.pairwise_cons]
        refine ⟨?_, ih h.2⟩
        intro e he
        rcases mem_setKey he with rfl | he
        · by_contra hgt
          exact hne (Std.Trichotomous.trichotomous key f.1 hnlt hgt)
        · exact h.1 e he

omit [Std.Trichotomous (· < · : K → K → Prop)] in
/-- After a set of a key, the entries are the new one and those of the other keys. -/
theorem mem_setKey_iff [Std.Irrefl (· < · : K → K → Prop)] {key k : K} {value v : V}
    {entries : List (K × V)} (h : entries.Pairwise fun a b => a.1 < b.1) :
    (k, v) ∈ setKey key value entries ↔ (k = key ∧ v = value) ∨ (k ≠ key ∧ (k, v) ∈ entries) := by
  induction entries with
  | nil => simp [setKey]
  | cons f rest ih =>
    obtain ⟨k', v'⟩ := f
    rw [List.pairwise_cons] at h
    have hone : ∀ w, (k', w) ∉ rest := fun w hw => Std.Irrefl.irrefl k' (h.1 _ hw)
    have ih := ih h.2
    unfold setKey
    split
    · next heq =>
      subst heq
      grind
    · next hne =>
      split
      · next hlt =>
        -- No entry has the new key, which is below all of them.
        have hnone : ∀ w, (key, w) ∉ rest := fun w hw =>
          Std.Irrefl.irrefl k' (Trans.trans (h.1 _ hw : k' < key) hlt)
        grind
      · grind

end Keys

/-- The last value of a key in a list of entries. -/
def LastOf {K V : Type} (key : K) (value : V) (entries : List (K × V)) : Prop :=
  ∃ before after, entries = before ++ (key, value) :: after ∧ ∀ e ∈ after, e.1 ≠ key

theorem lastOf_cons {K V : Type} {key : K} {value : V} {e : K × V} {rest : List (K × V)} :
    LastOf key value (e :: rest) ↔
      LastOf key value rest ∨ (e = (key, value) ∧ ∀ f ∈ rest, f.1 ≠ key) := by
  constructor
  · intro h
    obtain ⟨before, after, heq, hafter⟩ := h
    cases before with
    | nil =>
      injection heq with he hrest
      subst hrest
      exact .inr ⟨he, hafter⟩
    | cons f before =>
      injection heq with _ hrest
      exact .inl ⟨before, after, hrest, hafter⟩
  · intro h
    obtain ⟨before, after, heq, hafter⟩ | ⟨he, hrest⟩ := h
    · exact ⟨e :: before, after, congrArg (e :: ·) heq, hafter⟩
    · exact ⟨[], rest, congrArg (· :: rest) he, hrest⟩

/-- A map from keys to values. -/
structure SortedMap (K V : Type) [LT K] where
  entries : List (K × V)
  sorted : entries.Pairwise fun a b => a.1 < b.1
  deriving DecidableEq, Repr

namespace SortedMap

section Order

variable {K V : Type} [LT K]

/-- A map is determined by its entries. -/
theorem eq_of_perm [Std.Asymm (· < · : K → K → Prop)] {m m' : SortedMap K V}
    (h : m.entries.Perm m'.entries) : m = m' := by
  obtain ⟨entries, sorted⟩ := m
  obtain ⟨entries', sorted'⟩ := m'
  have heq : entries = entries' := by
    apply h.eq_of_pairwise _ sorted sorted'
    intro a b _ _ hab hba
    exact absurd hba (Std.Asymm.asymm _ _ hab)
  subst heq
  rfl

theorem nodup_keys [Std.Irrefl (· < · : K → K → Prop)] (m : SortedMap K V) :
    (m.entries.map Prod.fst).Nodup := by
  rw [List.Nodup, List.pairwise_map]
  apply m.sorted.imp
  intro a b hlt heq
  rw [heq] at hlt
  exact Std.Irrefl.irrefl _ hlt

end Order

variable {K V : Type} [LT K] [DecidableEq K] [DecidableLT K]
  [Trans (· < · : K → K → Prop) (· < ·) (· < ·)] [Std.Trichotomous (· < · : K → K → Prop)]

def empty : SortedMap K V := ⟨[], List.Pairwise.nil⟩

def set (m : SortedMap K V) (key : K) (value : V) : SortedMap K V :=
  ⟨setKey key value m.entries, pairwise_setKey m.sorted⟩

/-- The entries set one after the other. -/
def setAll (m : SortedMap K V) (entries : List (K × V)) : SortedMap K V :=
  entries.foldl (fun m e => m.set e.1 e.2) m

/-- After the sets, a key has its last value, and a key that was not set the one it had. -/
theorem mem_setAll_iff [Std.Irrefl (· < · : K → K → Prop)] {m : SortedMap K V} {key : K} {value : V}
    {l : List (K × V)} : (key, value) ∈ (m.setAll l).entries ↔
      LastOf key value l ∨ ((∀ e ∈ l, e.1 ≠ key) ∧ (key, value) ∈ m.entries) := by
  induction l generalizing m with
  | nil => simp [setAll, LastOf]
  | cons e rest ih =>
    have hset : (key, value) ∈ setKey e.1 e.2 m.entries ↔ _ := mem_setKey_iff m.sorted
    show (key, value) ∈ ((m.set e.1 e.2).setAll rest).entries ↔ _
    rw [ih, lastOf_cons, List.forall_mem_cons]
    show _ ∨ (_ ∧ (key, value) ∈ setKey e.1 e.2 m.entries) ↔ _
    rw [hset]
    grind

/-- What is in the map was set or was there. -/
theorem mem_setAll {m : SortedMap K V} {e : K × V} {l : List (K × V)}
    (h : e ∈ (m.setAll l).entries) : e ∈ l ∨ e ∈ m.entries := by
  induction l generalizing m with
  | nil => exact .inr h
  | cons f rest ih =>
    have h : e ∈ ((m.set f.1 f.2).setAll rest).entries := h
    obtain h | h := ih h
    · exact .inl (List.mem_cons_of_mem _ h)
    · obtain rfl | h := mem_setKey h
      · exact .inl List.mem_cons_self
      · exact .inr h

theorem setAll_perm {m : SortedMap K V} {l : List (K × V)}
    (hdistinct : ((m.entries ++ l).map Prod.fst).Nodup) :
    (m.setAll l).entries.Perm (m.entries ++ l) := by
  induction l generalizing m with
  | nil => simp [setAll]
  | cons e rest ih =>
    have hnew : ∀ f ∈ m.entries, f.1 ≠ e.1 := by
      rw [List.map_append, List.nodup_append] at hdistinct
      intro f hf
      exact hdistinct.2.2 f.1 (List.mem_map_of_mem hf) e.1 (by simp)
    have hset : (m.set e.1 e.2).entries.Perm (e :: m.entries) := perm_setKey hnew
    have hmove : ((m.set e.1 e.2).entries ++ rest).Perm (m.entries ++ e :: rest) :=
      (hset.append_right rest).trans List.perm_middle.symm
    have hrest := ih (m := m.set e.1 e.2) ((hmove.map Prod.fst).nodup_iff.mpr hdistinct)
    exact hrest.trans hmove

end SortedMap

end LayerMount.Lib
