import Mathlib.Tactic.Common
import Mathlib.Data.Nat.ModEq

/-!
# Ring buffers

A buffer of fixed size that a cursor goes round.  `RingHolds` says which values the cells
hold after a sequence of values was put in: the value number `k` is in the cell
`k % size`, for the last `size` values.  `RingHolds.push` keeps it, and
`RingHolds.recent` reads the last values back in order.
-/

namespace LayerMount.Lib

variable {α : Type}

/-- The cells hold the last of the values, in the order of the cursor. -/
structure RingHolds (cells : List α) (next stored : Nat) (added : List α) : Prop where
  pos : 0 < cells.length
  next : next = added.length % cells.length
  stored : stored = min added.length cells.length
  kept : ∀ k, added.length ≤ k + cells.length → k < added.length →
    cells[k % cells.length]? = added[k]?

namespace RingHolds

variable {cells added : List α} {next stored : Nat}

theorem next_lt (h : RingHolds cells next stored added) : next < cells.length := by
  rw [h.next]
  exact Nat.mod_lt _ h.pos

theorem stored_le (h : RingHolds cells next stored added) : stored ≤ cells.length := by
  rw [h.stored]
  exact Nat.min_le_right _ _

/-- Two of the last values are in different cells. -/
theorem mod_ne {size i j : Nat} (hlt : i < j) (hnear : j < i + size) : i % size ≠ j % size := by
  intro heq
  have hdiv : (j - i) % size = 0 := Nat.sub_mod_eq_zero_of_mod_eq heq.symm
  rw [Nat.mod_eq_of_lt (by omega)] at hdiv
  omega

theorem push (h : RingHolds cells next stored added) (x : α) :
    RingHolds (cells.set next x) ((next + 1) % cells.length)
      (if stored < cells.length then stored + 1 else stored) (added ++ [x]) where
  pos := by
    rw [List.length_set]
    exact h.pos
  next := by
    rw [List.length_set, List.length_append, List.length_singleton, h.next, Nat.mod_add_mod]
  stored := by
    have hstored := h.stored
    rw [List.length_set, List.length_append, List.length_singleton]
    split
    · omega
    · omega
  kept := by
    intro k hnear hlt
    rw [List.length_set] at hnear ⊢
    rw [List.length_append, List.length_singleton] at hnear hlt
    rw [h.next]
    by_cases hk : k = added.length
    · subst hk
      rw [List.getElem?_set_self (Nat.mod_lt _ h.pos), List.getElem?_concat_length]
    · have hold : k < added.length := by omega
      rw [List.getElem?_set_ne (mod_ne hold (by omega)).symm, List.getElem?_append_left hold]
      exact h.kept k (by omega) hold

/-- Going back over stored values from the cursor. -/
theorem start_eq (h : RingHolds cells next stored added) {actual : Nat} (hactual : actual ≤ stored) :
    (next + cells.length - actual) % cells.length = (added.length - actual) % cells.length := by
  have hstored := h.stored
  have hback : next + cells.length - actual + actual ≡ added.length - actual + actual
      [MOD cells.length] := by
    rw [Nat.sub_add_cancel (by omega), Nat.sub_add_cancel (by omega), h.next]
    show (added.length % cells.length + cells.length) % cells.length = added.length % cells.length
    rw [Nat.add_mod_right, Nat.mod_mod]
  exact Nat.ModEq.add_right_cancel' actual hback

/-- The last stored values, read from the cells in order. -/
theorem recent (h : RingHolds cells next stored added) {actual : Nat} (hactual : actual ≤ stored)
    (default : α) :
    ((List.range actual).map fun i =>
        cells.getD (((next + cells.length - actual) % cells.length + i) % cells.length) default)
      = added.drop (added.length - actual) := by
  have hstored := h.stored
  apply List.ext_getElem
  · rw [List.length_map, List.length_range, List.length_drop]
    omega
  · intro i hi hi'
    rw [List.length_map, List.length_range] at hi
    have hk : added.length - actual + i < added.length := by omega
    rw [List.getElem_map, List.getElem_range, h.start_eq hactual, Nat.mod_add_mod,
      List.getD_eq_getElem?_getD, h.kept _ (by omega) hk, List.getElem?_eq_getElem hk,
      Option.getD_some, List.getElem_drop]

end RingHolds

end LayerMount.Lib
