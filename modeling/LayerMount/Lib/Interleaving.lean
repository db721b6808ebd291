import Mathlib.Algebra.Group.Nat.Defs
import Mathlib.Logic.Relation
import Mathlib.Data.List.Basic

/-!
# Interleaved calls

The calls of a concurrent run stand in a list, in the order in which they began.  A step
appends a call or replaces one.  The lemmas say what a step does to the number of calls
with a property and to the calls at each place, and that a property which every step keeps
holds along a run.  `runWhile` runs a written-out schedule.
-/

namespace LayerMount.Lib

variable {α : Type} {l : List α} {i : Nat} {a b : α}

/-- One call is replaced: the number of calls with `p` moves by that call only. -/
theorem countP_set_add (p : α → Bool) (h : l[i]? = some a) :
    (l.set i b).countP p + (p a).toNat = l.countP p + (p b).toNat := by
  obtain ⟨hlt, rfl⟩ := List.getElem?_eq_some_iff.mp h
  rw [List.countP_set hlt]
  have hpos : p l[i] = true → 0 < l.countP p := by
    intro hp
    exact List.countP_pos_iff.mpr ⟨l[i], List.getElem_mem hlt, hp⟩
  cases hp : p l[i] with
  | false => cases hb : p b <;> simp
  | true =>
    have hone := hpos hp
    cases hb : p b <;> simp <;> omega

theorem countP_append_one (p : α → Bool) (l : List α) (a : α) :
    (l ++ [a]).countP p = l.countP p + (p a).toNat := by
  rw [List.countP_append]
  cases hp : p a <;> simp [hp]

/-- A call with `p` is counted. -/
theorem countP_pos_of_getElem? {p : α → Bool} (h : l[i]? = some a) (hp : p a = true) :
    0 < l.countP p :=
  List.countP_pos_iff.mpr ⟨a, List.mem_of_getElem? h, hp⟩

/-- A call after one was replaced is the new one, or stood there before. -/
theorem of_getElem?_set {j : Nat} {x : α} (h : (l.set i b)[j]? = some x) :
    (j = i ∧ x = b) ∨ (j ≠ i ∧ l[j]? = some x) := by
  rw [List.getElem?_set] at h
  split at h
  · rename_i heq
    split at h
    · exact Or.inl ⟨heq.symm, (Option.some.inj h).symm⟩
    · cases h
  · rename_i hne
    exact Or.inr ⟨fun heq => hne heq.symm, h⟩

theorem getElem?_set_of_some (h : l[i]? = some a) : (l.set i b)[i]? = some b := by
  obtain ⟨hlt, -⟩ := List.getElem?_eq_some_iff.mp h
  exact List.getElem?_set_self hlt

/-- A call after one was appended is the new one, or stood there before. -/
theorem of_getElem?_append_one {j : Nat} {x : α} (h : (l ++ [a])[j]? = some x) :
    (j = l.length ∧ x = a) ∨ l[j]? = some x := by
  rw [List.getElem?_append] at h
  split at h
  · exact Or.inr h
  · rename_i hge
    have hj : j = l.length := by
      have hlt : j - l.length < [a].length := (List.getElem?_eq_some_iff.mp h).1
      simp only [List.length_singleton] at hlt
      omega
    subst hj
    simp only [Nat.sub_self, List.getElem?_cons_zero, Option.some.injEq] at h
    exact Or.inl ⟨rfl, h.symm⟩

/-- What every step keeps holds along a run. -/
theorem run_keeps {σ : Type} {R : σ → σ → Prop} {P : σ → Prop}
    (hstep : ∀ s s', R s s' → P s → P s') {s s' : σ} (hrun : Relation.ReflTransGen R s s')
    (h : P s) : P s' := by
  induction hrun with
  | refl => exact h
  | tail _ hlast ih => exact hstep _ _ hlast ih

/-- A schedule, run as long as each of its steps is possible and `ok`. -/
def runWhile {σ α : Type} (step : σ → α → Option σ) (ok : σ → α → Bool) :
    List α → σ → Option σ
  | [], s => some s
  | a :: as, s => if ok s a then (step s a).bind (runWhile step ok as) else none

theorem reaches_of_runWhile {σ α : Type} {step : σ → α → Option σ} {ok : σ → α → Bool}
    {as : List α} {s s' : σ} (h : runWhile step ok as s = some s') :
    Relation.ReflTransGen (fun s s' => ∃ a, step s a = some s' ∧ ok s a = true) s s' := by
  induction as generalizing s with
  | nil =>
    cases h
    exact .refl
  | cons a as ih =>
    rw [runWhile] at h
    split at h
    · rename_i hok
      obtain ⟨m, hstep, hrest⟩ := Option.bind_eq_some_iff.mp h
      exact .head ⟨a, hstep, hok⟩ (ih hrest)
    · cases h

end LayerMount.Lib
