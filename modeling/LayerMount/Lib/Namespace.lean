import Mathlib.Data.List.Infix
import Mathlib.Tactic.Common

/-!
# Namespaces

A namespace says what is at each path, a list of names.  `graft` puts a namespace at a path, in
place of what was at and below it, and `below` takes the one at a path out.  The changes that a
caller asks for are all grafts: an entry that is put, a subtree that goes, a subtree that moves.

A subtree that moves to a free place and back leaves the namespace as it was (`move_back`), and so
does an entry that is put at a free place and goes again (`remove_put`).  What a change does not
aim at stays gone (`Change.gone`, and `gone_applyAll` for a list of changes).
-/

namespace LayerMount.Lib

/-- What is at each path. -/
abbrev Namespace (N V : Type) : Type := List N → Option V

namespace Namespace

variable {N V : Type} {s t t' : Namespace N V} {p q r : List N}

/-- Nothing at any path. -/
def empty : Namespace N V := fun _ => none

/-- One entry, with nothing below it. -/
def leaf (v : V) : Namespace N V := fun r => if r.isEmpty then some v else none

/-- What is at and below `p`. -/
def below (s : Namespace N V) (p : List N) : Namespace N V := fun r => s (p ++ r)

/-- Neither of two paths is at or below the other: what is below one is not below the other. -/
theorem not_prefix_append (hpq : ¬p <+: q) (hqp : ¬q <+: p) (r : List N) : ¬p <+: q ++ r :=
  fun h => (List.prefix_or_prefix_of_prefix h (List.prefix_append q r)).elim hpq hqp

/-- Nothing is at or below `p`. -/
def Gone (s : Namespace N V) (p : List N) : Prop := s.below p = empty

/-- What a reader of the entries sees. -/
def map {W : Type} (f : V → W) (s : Namespace N V) : Namespace N W := fun r => (s r).map f

variable [DecidableEq N]

/-- The namespace `s`, with `t` at `p`. -/
def graft (p : List N) (t s : Namespace N V) : Namespace N V :=
  fun r => if p <+: r then t (r.drop p.length) else s r

theorem graft_at (p : List N) (t s : Namespace N V) (r : List N) :
    graft p t s (p ++ r) = t r := by
  rw [graft, if_pos (List.prefix_append p r), List.drop_left]

theorem graft_off (hr : ¬p <+: r) : graft p t s r = s r := if_neg hr

/-- A graft is known by what is at its place and what is elsewhere. -/
theorem eq_graft (hat : ∀ r, t' (p ++ r) = t r) (hoff : ∀ r, ¬p <+: r → t' r = s r) :
    t' = graft p t s := by
  funext r
  by_cases hr : p <+: r
  · obtain ⟨x, rfl⟩ := hr
    rw [hat, graft_at]
  · rw [hoff r hr, graft_off hr]

theorem below_graft_self (p : List N) (t s : Namespace N V) : (graft p t s).below p = t :=
  funext (graft_at p t s)

theorem graft_below_self (s : Namespace N V) (p : List N) : graft p (s.below p) s = s :=
  (eq_graft (fun _ => rfl) fun _ _ => rfl).symm

@[simp] theorem graft_graft (p : List N) (t t' s : Namespace N V) :
    graft p t (graft p t' s) = graft p t s :=
  eq_graft (graft_at p t _) fun _ hr => (graft_off hr).trans (graft_off hr)

theorem graft_comm (hpq : ¬p <+: q) (hqp : ¬q <+: p) :
    graft p t (graft q t' s) = graft q t' (graft p t s) := by
  refine eq_graft (fun r => ?_) fun r hr => ?_
  · rw [graft_off (not_prefix_append hpq hqp r), graft_at]
  · by_cases hp : p <+: r
    · obtain ⟨x, rfl⟩ := hp
      rw [graft_at, graft_at]
    · rw [graft_off hp, graft_off hr, graft_off hp]

theorem map_graft {W : Type} (f : V → W) (p : List N) (t s : Namespace N V) :
    (graft p t s).map f = graft p (t.map f) (s.map f) := by
  refine eq_graft (fun r => ?_) fun r hr => ?_
  · rw [map, graft_at, map]
  · rw [map, graft_off hr, map]

omit [DecidableEq N] in
theorem map_leaf {W : Type} (f : V → W) (v : V) :
    (leaf v : Namespace N V).map f = leaf (f v) := by
  funext r
  cases r <;> rfl

theorem gone_graft_empty (p : List N) (s : Namespace N V) : (graft p empty s).Gone p :=
  below_graft_self p empty s

theorem graft_empty_of_gone (h : s.Gone p) : graft p empty s = s := by
  rw [← h, graft_below_self]

/-! ## Changes -/

/-- What a caller asks of a namespace. -/
inductive Change (N V : Type) where
  | keep
  | put (p : List N) (v : V)
  | remove (p : List N)
  | move (p q : List N)
  deriving DecidableEq

namespace Change

def apply : Change N V → Namespace N V → Namespace N V
  | keep, s => s
  | put p v, s => graft p (leaf v) s
  | remove p, s => graft p empty s
  | move p q, s => graft q (s.below p) (graft p empty s)

/-- The change as a reader of the entries sees it. -/
def map {W : Type} (f : V → W) : Change N V → Change N W
  | keep => .keep
  | put p v => .put p (f v)
  | remove p => .remove p
  | move p q => .move p q

theorem map_apply {W : Type} (f : V → W) (change : Change N V) (s : Namespace N V) :
    (change.apply s).map f = (change.map f).apply (s.map f) := by
  cases change with
  | keep => rfl
  | put p v => rw [apply, map_graft, map_leaf]; rfl
  | remove p => exact map_graft f p empty s
  | move p q => rw [apply, map_graft, map_graft]; rfl

/-- The changes one after another. -/
def applyAll (changes : List (Change N V)) (s : Namespace N V) : Namespace N V :=
  changes.foldl (fun s change => change.apply s) s

@[simp] theorem applyAll_nil (s : Namespace N V) : applyAll [] s = s := rfl

@[simp] theorem applyAll_cons (change : Change N V) (rest : List (Change N V))
    (s : Namespace N V) : applyAll (change :: rest) s = applyAll rest (change.apply s) := rfl

/-- A subtree that moves to a free place and back. -/
theorem move_back (hpq : ¬p <+: q) (hqp : ¬q <+: p) (hfree : s.Gone q) :
    (move q p).apply ((move p q).apply s) = s := by
  calc (move q p).apply ((move p q).apply s)
      = graft p (s.below p) (graft q empty (graft p empty s)) := by
        simp only [apply, below_graft_self, graft_graft]
    _ = graft q empty (graft p (s.below p) s) := by
        rw [graft_comm hpq hqp, graft_graft]
    _ = s := by rw [graft_below_self, graft_empty_of_gone hfree]

/-- An entry that is put at a free place and goes again. -/
theorem remove_put (v : V) (hfree : s.Gone p) : (remove p).apply ((put p v).apply s) = s := by
  rw [apply, apply, graft_graft, graft_empty_of_gone hfree]

/-- The change puts something at the path, above it or below it. -/
def Reaches (p : List N) : Change N V → Prop
  | keep => False
  | put q _ => p <+: q
  | remove _ => False
  | move _ q => p <+: q ∨ q <+: p

instance (p : List N) : DecidablePred (Reaches (V := V) p)
  | keep => inferInstanceAs (Decidable False)
  | put q _ => inferInstanceAs (Decidable (p <+: q))
  | remove _ => inferInstanceAs (Decidable False)
  | move _ q => inferInstanceAs (Decidable (p <+: q ∨ q <+: p))

/-- What is gone stays gone under a change that does not reach it. -/
theorem gone (change : Change N V) (hfree : s.Gone p) (hreaches : ¬change.Reaches p) :
    (change.apply s).Gone p := by
  have hnone : ∀ r, s (p ++ r) = none := congrFun hfree
  funext r
  cases change with
  | keep => exact hnone r
  | put q v =>
    -- an entry above the path has nothing below it
    by_cases hq : q <+: p ++ r
    · obtain ⟨x, hx⟩ := hq
      have hx0 : x ≠ [] := by
        rintro rfl
        rw [List.append_nil] at hx
        exact hreaches (hx ▸ List.prefix_append p r)
      rw [below, apply, ← hx, graft_at, leaf, if_neg (by simpa using hx0), empty]
    · exact (graft_off hq).trans (hnone r)
  | remove q =>
    by_cases hq : q <+: p ++ r
    · obtain ⟨x, hx⟩ := hq
      rw [below, apply, ← hx, graft_at]
      rfl
    · exact (graft_off hq).trans (hnone r)
  | move a q =>
    simp only [Reaches, not_or] at hreaches
    rw [below, apply, graft_off (not_prefix_append hreaches.2 hreaches.1 r)]
    by_cases ha : a <+: p ++ r
    · obtain ⟨x, hx⟩ := ha
      rw [← hx, graft_at]
      rfl
    · exact (graft_off ha).trans (hnone r)

theorem gone_applyAll (changes : List (Change N V)) (hfree : s.Gone p)
    (hreaches : ∀ change ∈ changes, ¬change.Reaches p) : (applyAll changes s).Gone p := by
  induction changes generalizing s with
  | nil => exact hfree
  | cons change rest ih =>
    exact ih (change.gone hfree (hreaches change (List.mem_cons_self ..))) fun c hc =>
      hreaches c (List.mem_cons_of_mem _ hc)

end Change

end Namespace

end LayerMount.Lib
