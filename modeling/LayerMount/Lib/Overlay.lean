import Mathlib.Tactic.Common
import Mathlib.Data.List.Forall2
import Mathlib.Data.List.Induction

/-!
# Overlays of trees

A stack of trees is shown as one tree.  A *slot* is a place in one of the trees;
the slots of a directory are listed from the top of the stack down.  Going down
to a name keeps the slots that still count:

* a marker for the name in a slot hides the slots below it, and the slot itself
  when the slot is not on the top tree (`upper`);
* a slot whose child is a link counts only when no slot above holds the name;
* a child that `covers` (not a directory, a link, or an opaque directory) hides
  the slots below it.

Nothing here depends on what a slot is.  `live` is the list of slots of a path,
`look` is what the path shows.

Two overlays whose slots correspond have corresponding slots at every path
(`Simulates.live`).
-/

namespace LayerMount.Lib

structure Overlay (σ N E : Type) where
  /-- What the slot holds. -/
  entry : σ → Option E
  child : σ → N → σ
  /-- A marker in the slot hides the name. -/
  whites : σ → N → Bool
  /-- What the slot holds hides the slots below it. -/
  covers : σ → Bool
  /-- The slot is the first link on its path. -/
  link : σ → Bool
  upper : σ → Bool

namespace Overlay

variable {σ N E : Type} (O : Overlay σ N E)

/-- The slots that count, given a list of candidates at one place. -/
def cut : List σ → List σ
  | [] => []
  | s :: rest => s :: if O.covers s then [] else cut rest

/-- The slots of the name `n` below the given slots.  `held` says that a slot
above holds the name. -/
def descendFrom (n : N) : Bool → List σ → List σ
  | _, [] => []
  | held, s :: rest =>
    if !O.upper s && (O.whites s n || (held && O.link (O.child s n))) then []
    else
      O.child s n ::
        if O.covers (O.child s n) || (O.upper s && O.whites s n) then []
        else descendFrom n (held || (O.entry (O.child s n)).isSome) rest

def descend (slots : List σ) (n : N) : List σ := O.descendFrom n false slots

/-- The slots of a path below the given slots. -/
def walk (slots : List σ) (p : List N) : List σ := p.foldl O.descend slots

/-- The slots of a path of the stack. -/
def live (stack : List σ) (p : List N) : List σ := O.walk (O.cut stack) p

/-- The first entry among the slots. -/
def look : List σ → Option E
  | [] => none
  | s :: rest =>
    match O.entry s with
    | some e => some e
    | none => look rest

@[simp] theorem walk_nil (slots : List σ) : O.walk slots [] = slots := rfl

@[simp] theorem walk_cons (slots : List σ) (n : N) (p : List N) :
    O.walk slots (n :: p) = O.walk (O.descend slots n) p := rfl

theorem walk_append (slots : List σ) (p q : List N) :
    O.walk slots (p ++ q) = O.walk (O.walk slots p) q := by
  rw [walk, List.foldl_append]
  rfl

theorem walk_snoc (slots : List σ) (p : List N) (n : N) :
    O.walk slots (p ++ [n]) = O.descend (O.walk slots p) n :=
  O.walk_append slots p [n]

theorem live_append (stack : List σ) (p q : List N) :
    O.live stack (p ++ q) = O.walk (O.live stack p) q :=
  O.walk_append _ p q

theorem live_snoc (stack : List σ) (p : List N) (n : N) :
    O.live stack (p ++ [n]) = O.descend (O.live stack p) n :=
  O.walk_snoc _ p n

@[simp] theorem descend_nil (n : N) : O.descend [] n = [] := rfl

@[simp] theorem descendFrom_nil (n : N) (held : Bool) : O.descendFrom n held [] = [] := rfl

@[simp] theorem walk_of_nil (p : List N) : O.walk [] p = [] := by
  induction p with
  | nil => rfl
  | cons n p ih => simpa using ih

/-- Every slot of a name is the child of a slot of the directory. -/
theorem mem_descendFrom {n : N} {held : Bool} {slots : List σ} {s' : σ}
    (h : s' ∈ O.descendFrom n held slots) : ∃ s ∈ slots, s' = O.child s n := by
  induction slots generalizing held with
  | nil => simp at h
  | cons s rest ih =>
    rw [descendFrom] at h
    split at h
    · simp at h
    · rw [List.mem_cons] at h
      rcases h with h | h
      · exact ⟨s, by simp, h⟩
      · split at h
        · simp at h
        · obtain ⟨t, ht, heq⟩ := ih h
          exact ⟨t, by simp [ht], heq⟩

/-- Only the last slot hides the slots below it. -/
theorem descendFrom_pairwise (n : N) (held : Bool) (slots : List σ) :
    (O.descendFrom n held slots).Pairwise fun s _ => O.covers s = false := by
  induction slots generalizing held with
  | nil => exact .nil
  | cons s rest ih =>
    rw [descendFrom]
    split
    · exact .nil
    · split
      · exact List.pairwise_singleton _ _
      · rename_i hcov
        rw [Bool.or_eq_true, not_or, Bool.not_eq_true] at hcov
        exact .cons (fun _ _ => hcov.1) (ih _)

theorem cut_pairwise (slots : List σ) :
    (O.cut slots).Pairwise fun s _ => O.covers s = false := by
  induction slots with
  | nil => exact .nil
  | cons s rest ih =>
    rw [cut]
    split
    · exact List.pairwise_singleton _ _
    · rename_i hcov
      exact .cons (fun _ _ => by simpa using hcov) ih

theorem live_pairwise (stack : List σ) (p : List N) :
    (O.live stack p).Pairwise fun s _ => O.covers s = false := by
  cases p using List.reverseRecOn with
  | nil => exact O.cut_pairwise stack
  | append_singleton d n =>
    rw [live_snoc]
    exact O.descendFrom_pairwise n false _

theorem look_eq_none {slots : List σ} (h : ∀ s ∈ slots, O.entry s = none) :
    O.look slots = none := by
  induction slots with
  | nil => rfl
  | cons s rest ih =>
    rw [look, h s (by simp)]
    exact ih fun t ht => h t (by simp [ht])

variable {O}

/-- A name that a slot above holds is not followed through a link. -/
theorem not_link_of_held {n : N} {slots : List σ} (hup : ∀ s ∈ slots, O.upper s = false)
    {t : σ} (ht : t ∈ O.descendFrom n true slots) : O.link t = false := by
  induction slots with
  | nil => simp at ht
  | cons s rest ih =>
    rw [descendFrom, hup s (by simp)] at ht
    split at ht
    · simp at ht
    · rename_i hcond
      simp only [Bool.not_false, Bool.true_and, Bool.or_eq_true, not_or,
        Bool.not_eq_true] at hcond
      rw [List.mem_cons] at ht
      rcases ht with rfl | ht
      · exact hcond.2
      · split at ht
        · simp at ht
        · exact ih (fun s' hs' => hup s' (by simp [hs'])) (by simpa using ht)

/-- The link that a descent meets is alone: the other slots hold nothing. -/
theorem eq_or_entry_none_of_link (hcov : ∀ s, O.link s = true → O.covers s = true)
    {n : N} {slots : List σ} (hup : ∀ s ∈ slots.tail, O.upper s = false) {held : Bool} {t : σ}
    (ht : t ∈ O.descendFrom n held slots) (hl : O.link t = true) :
    ∀ u ∈ O.descendFrom n held slots, u = t ∨ O.entry u = none := by
  induction slots generalizing held with
  | nil => simp at ht
  | cons s rest ih =>
    rw [descendFrom] at ht ⊢
    split at ht
    · simp at ht
    · rename_i hcond
      rw [if_neg hcond]
      rw [List.tail_cons] at hup
      rw [List.mem_cons] at ht
      rcases ht with rfl | ht
      · -- the link itself hides the slots below it
        rw [hcov _ hl]
        intro u hu
        left
        simpa using hu
      · split at ht
        · simp at ht
        · rename_i hcov'
          rw [if_neg hcov']
          have hheld : (held || (O.entry (O.child s n)).isSome) = false := by
            by_contra hne
            rw [Bool.not_eq_false] at hne
            rw [hne] at ht
            rw [not_link_of_held hup ht] at hl
            cases hl
          intro u hu
          rw [List.mem_cons] at hu
          rcases hu with rfl | hu
          · right
            simpa using (Bool.or_eq_false_iff.mp hheld).2
          · exact ih (fun s' hs' => hup s' (List.mem_of_mem_tail hs')) ht u hu

/-! ## Overlays whose slots correspond -/

section Simulation

variable {τ E' : Type} {O' : Overlay τ N E'} {R : List N → σ → τ → Prop}

/-- Slots that correspond along a path agree on everything a descent to it reads. -/
structure Simulates (O : Overlay σ N E) (O' : Overlay τ N E')
    (R : List N → σ → τ → Prop) : Prop where
  child : ∀ {n p s t}, R (n :: p) s t → R p (O.child s n) (O'.child t n)
  entry : ∀ {p s t}, R p s t → (O.entry s).isSome = (O'.entry t).isSome
  whites : ∀ {n p s t}, R (n :: p) s t → O.whites s n = O'.whites t n
  covers : ∀ {p s t}, R p s t → O.covers s = O'.covers t
  link : ∀ {p s t}, R p s t → O.link s = O'.link t
  upper : ∀ {p s t}, R p s t → O.upper s = O'.upper t

theorem Simulates.cut (hR : Simulates O O' R) {p : List N} {l : List σ} {l' : List τ}
    (h : List.Forall₂ (R p) l l') : List.Forall₂ (R p) (O.cut l) (O'.cut l') := by
  induction h with
  | nil => exact .nil
  | @cons s t l l' hst _ ih =>
    rw [Overlay.cut, Overlay.cut, hR.covers hst]
    split
    · exact .cons hst .nil
    · exact .cons hst ih

theorem Simulates.descendFrom (hR : Simulates O O' R) {n : N} {p : List N} {l : List σ}
    {l' : List τ} (h : List.Forall₂ (R (n :: p)) l l') (held : Bool) :
    List.Forall₂ (R p) (O.descendFrom n held l) (O'.descendFrom n held l') := by
  induction h generalizing held with
  | nil => exact .nil
  | @cons s t l l' hst _ ih =>
    have hc := hR.child hst
    rw [Overlay.descendFrom, Overlay.descendFrom, hR.upper hst, hR.whites hst, hR.link hc,
      hR.covers hc, hR.entry hc]
    split
    · exact .nil
    · refine .cons hc ?_
      split
      · exact .nil
      · exact ih _

theorem Simulates.walk (hR : Simulates O O' R) (p : List N) {q : List N} {l : List σ}
    {l' : List τ} (h : List.Forall₂ (R (p ++ q)) l l') :
    List.Forall₂ (R q) (O.walk l p) (O'.walk l' p) := by
  induction p generalizing l l' with
  | nil => exact h
  | cons n p ih => exact ih (hR.descendFrom h false)

theorem Simulates.live (hR : Simulates O O' R) (p : List N) {q : List N} {l : List σ}
    {l' : List τ} (h : List.Forall₂ (R (p ++ q)) l l') :
    List.Forall₂ (R q) (O.live l p) (O'.live l' p) :=
  hR.walk p (hR.cut h)

/-- Corresponding slots show the entries of two corresponding slots, or nothing. -/
theorem Simulates.look (hR : Simulates O O' R) {p : List N} {l : List σ} {l' : List τ}
    (h : List.Forall₂ (R p) l l') :
    (O.look l = none ∧ O'.look l' = none) ∨
      ∃ s ∈ l, ∃ t ∈ l', R p s t ∧ (O.entry s).isSome = true ∧ O.look l = O.entry s ∧
        O'.look l' = O'.entry t := by
  induction h with
  | nil => exact .inl ⟨rfl, rfl⟩
  | @cons s t l l' hst _ ih =>
    have hentry := hR.entry hst
    cases hs : O.entry s with
    | some e =>
      rw [hs] at hentry
      obtain ⟨e', ht⟩ := Option.isSome_iff_exists.mp hentry.symm
      refine .inr ⟨s, by simp, t, by simp, hst, by simp [hs], ?_, ?_⟩
      · rw [Overlay.look, hs]
      · rw [Overlay.look, ht]
    | none =>
      rw [hs] at hentry
      have ht : O'.entry t = none := by simpa using hentry.symm
      rw [Overlay.look, Overlay.look, hs, ht]
      rcases ih with hnone | ⟨s', hs', t', ht', hrest⟩
      · exact .inl hnone
      · exact .inr ⟨s', List.mem_cons_of_mem _ hs', t', List.mem_cons_of_mem _ ht', hrest⟩

/-- Corresponding slots whose entries agree through `f` and `g` show the same. -/
theorem Simulates.look_map (hR : Simulates O O' R) {V : Type} {f : E → V} {g : E' → V}
    {p : List N} (hfg : ∀ {s t}, R p s t → (O.entry s).map f = (O'.entry t).map g)
    {l : List σ} {l' : List τ} (h : List.Forall₂ (R p) l l') :
    (O.look l).map f = (O'.look l').map g := by
  rcases hR.look h with ⟨hn, hn'⟩ | ⟨s, -, t, -, hst, -, hs, ht⟩
  · rw [hn, hn']
    rfl
  · rw [hs, ht]
    exact hfg hst

end Simulation

end Overlay

end LayerMount.Lib
