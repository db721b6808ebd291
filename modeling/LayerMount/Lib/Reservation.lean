import Mathlib.Logic.Relation
import Mathlib.Logic.Function.Basic
import Mathlib.Data.List.Nodup

/-!
# Keys reserved by stacks of owners

A thread is a stack of claims, the innermost first.  A claim names a key and may hold
it.  `taken` is the table of the keys that are in use.  `Sound` relates the two: a key is
taken exactly when a claim holds it, and no two claims hold one key.

Four changes of one thread's stack keep `Sound`: the innermost claim takes a free key
(`take`), a claim that holds nothing is pushed (`push`), the innermost claim goes with
its key (`release`), and an innermost claim that holds nothing goes (`drop`).

`no_cycle_of_rank` is the usual argument against a cycle of waiting threads: whoever waits
waits for a key of smaller rank than the keys it holds.
-/

namespace LayerMount.Lib

structure Claim (K : Type) where
  id : Nat
  key : K
  held : Bool

namespace Reservation

variable {K : Type}

structure Sound (claims : Nat → List (Claim K)) (taken : K → Bool) (nextId : Nat) : Prop where
  taken_iff : ∀ k, taken k = true ↔ ∃ t, ∃ c ∈ claims t, c.held = true ∧ c.key = k
  alone : ∀ t t', ∀ c ∈ claims t, ∀ c' ∈ claims t', c.held = true → c'.held = true →
    c.key = c'.key → c.id = c'.id
  fresh : ∀ t, ∀ c ∈ claims t, c.id < nextId
  once : ∀ t, ((claims t).map Claim.id).Nodup
  apart : ∀ t t', ∀ c ∈ claims t, ∀ c' ∈ claims t', c.id = c'.id → t = t'

variable {claims : Nat → List (Claim K)} {taken : K → Bool} {nextId : Nat} {t : Nat}

/-- Membership in one stack after thread `t` has another one. -/
theorem mem_update {cs : List (Claim K)} {t' : Nat} {c : Claim K} :
    c ∈ Function.update claims t cs t' ↔ (t' = t ∧ c ∈ cs) ∨ (t' ≠ t ∧ c ∈ claims t') := by
  by_cases h : t' = t
  · subst h
    simp
  · simp [h]

/-- The parts of `Sound` that only the ids decide. -/
theorem Sound.ids_update (h : Sound claims taken nextId) (t : Nat) (cs : List (Claim K))
    {nextId' : Nat} (hnext : nextId ≤ nextId')
    (hids : ∀ c ∈ cs, (∃ c' ∈ claims t, c'.id = c.id) ∨ (nextId ≤ c.id ∧ c.id < nextId')) :
    (∀ t', ∀ c ∈ Function.update claims t cs t', c.id < nextId') ∧
    (∀ t' t'', ∀ c ∈ Function.update claims t cs t', ∀ c' ∈ Function.update claims t cs t'',
      c.id = c'.id → t' = t'') := by
  -- an id of the new stack is not an id of another thread
  have hother : ∀ t' ≠ t, ∀ c ∈ claims t', ∀ c' ∈ cs, c.id ≠ c'.id := by
    intro t' hne c hc c' hc' heq
    rcases hids c' hc' with ⟨c'', hc'', hid⟩ | ⟨hge, -⟩
    · exact hne (h.apart t' t c hc c'' hc'' (heq.trans hid.symm))
    · have hlt := h.fresh t' c hc
      omega
  constructor
  · intro t' c hc
    rcases mem_update.mp hc with ⟨-, hc⟩ | ⟨-, hc⟩
    · rcases hids c hc with ⟨c', hc', hid⟩ | ⟨-, hlt⟩
      · have hlt := h.fresh t c' hc'
        omega
      · exact hlt
    · have hlt := h.fresh t' c hc
      omega
  · intro t' t'' c hc c' hc' heq
    rcases mem_update.mp hc with ⟨ht', hnew⟩ | ⟨hne, hold⟩
    · rcases mem_update.mp hc' with ⟨ht'', -⟩ | ⟨hne', hold'⟩
      · rw [ht', ht'']
      · exact absurd heq.symm (hother t'' hne' c' hold' c hnew)
    · rcases mem_update.mp hc' with ⟨-, hnew'⟩ | ⟨-, hold'⟩
      · exact absurd heq (hother t' hne c hold c' hnew')
      · exact h.apart t' t'' c hold c' hold' heq

theorem once_update {cs : List (Claim K)} (h : ∀ t', ((claims t').map Claim.id).Nodup)
    (hcs : (cs.map Claim.id).Nodup) (t' : Nat) :
    ((Function.update claims t cs t').map Claim.id).Nodup := by
  by_cases heq : t' = t
  · subst heq
    simpa using hcs
  · simpa [heq] using h t'

/-- Claims that hold the same keys as before under the same ids. -/
theorem Sound.same (h : Sound claims taken nextId) {cs : List (Claim K)} {nextId' : Nat}
    (hnext : nextId ≤ nextId')
    (hids : ∀ c ∈ cs, (∃ c' ∈ claims t, c'.id = c.id) ∨ (nextId ≤ c.id ∧ c.id < nextId'))
    (honce : (cs.map Claim.id).Nodup)
    (hheld : ∀ c, c.held = true → (c ∈ cs ↔ c ∈ claims t)) :
    Sound (Function.update claims t cs) taken nextId' := by
  have hmem : ∀ t' c, c.held = true → (c ∈ Function.update claims t cs t' ↔ c ∈ claims t') := by
    intro t' c hc
    rw [mem_update]
    by_cases heq : t' = t
    · subst heq
      simp [hheld c hc]
    · simp [heq]
  obtain ⟨hfresh, hapart⟩ := h.ids_update t cs hnext hids
  refine ⟨?_, ?_, hfresh, once_update h.once honce, hapart⟩
  · intro k
    rw [h.taken_iff]
    constructor
    · rintro ⟨t', c, hc, hh, hk⟩
      exact ⟨t', c, (hmem t' c hh).mpr hc, hh, hk⟩
    · rintro ⟨t', c, hc, hh, hk⟩
      exact ⟨t', c, (hmem t' c hh).mp hc, hh, hk⟩
  · intro t' t'' c hc c' hc' hh hh' hk
    exact h.alone t' t'' c ((hmem t' c hh).mp hc) c' ((hmem t'' c' hh').mp hc') hh hh' hk

/-- The innermost claim takes a key that is free. -/
theorem Sound.take [DecidableEq K] (h : Sound claims taken nextId) {c : Claim K}
    {cs : List (Claim K)} (hstack : claims t = c :: cs) (hfree : taken c.key = false) :
    Sound (Function.update claims t ({ c with held := true } :: cs))
      (Function.update taken c.key true) nextId := by
  have hnone : ∀ t', ∀ c' ∈ claims t', c'.held = true → c'.key ≠ c.key := by
    intro t' c' hc' hh hk
    have htaken := (h.taken_iff c.key).mpr ⟨t', c', hc', hh, hk⟩
    rw [hfree] at htaken
    cases htaken
  obtain ⟨hfresh, hapart⟩ := h.ids_update t ({ c with held := true } :: cs)
    (Nat.le_refl nextId) (by
      intro c' hc'
      left
      rcases List.mem_cons.mp hc' with rfl | hc'
      · exact ⟨c, by simp [hstack], rfl⟩
      · exact ⟨c', by simp [hstack, hc'], rfl⟩)
  have honce := h.once t
  rw [hstack] at honce
  -- a claim that holds is the new one or an old one
  have hmem : ∀ t', ∀ c' ∈ Function.update claims t ({ c with held := true } :: cs) t',
      c'.held = true → c' = { c with held := true } ∨ c' ∈ claims t' := by
    intro t' c' hc' _
    rcases mem_update.mp hc' with ⟨ht', hnew⟩ | ⟨-, hold⟩
    · rcases List.mem_cons.mp hnew with rfl | hold
      · exact Or.inl rfl
      · exact Or.inr (by simp [ht', hstack, hold])
    · exact Or.inr hold
  refine ⟨?_, ?_, hfresh, once_update h.once honce, hapart⟩
  · intro k
    by_cases hk : k = c.key
    · subst hk
      simp only [Function.update_self, true_iff]
      exact ⟨t, { c with held := true }, by simp, rfl, rfl⟩
    · rw [Function.update_of_ne hk, h.taken_iff]
      constructor
      · rintro ⟨t', c', hc', hh, rfl⟩
        refine ⟨t', c', ?_, hh, rfl⟩
        by_cases heq : t' = t
        · subst heq
          rw [hstack] at hc'
          rcases List.mem_cons.mp hc' with rfl | hc'
          · exact absurd rfl hk
          · simp [hc']
        · simpa [heq] using hc'
      · rintro ⟨t', c', hc', hh, rfl⟩
        rcases hmem t' c' hc' hh with rfl | hold
        · exact absurd rfl hk
        · exact ⟨t', c', hold, hh, rfl⟩
  · intro t' t'' c' hc' c'' hc'' hh hh' hk
    rcases hmem t' c' hc' hh with rfl | hold
    · rcases hmem t'' c'' hc'' hh' with rfl | hold'
      · rfl
      · exact absurd hk.symm (hnone t'' c'' hold' hh')
    · rcases hmem t'' c'' hc'' hh' with rfl | hold'
      · exact absurd hk (hnone t' c' hold hh)
      · exact h.alone t' t'' c' hold c'' hold' hh hh' hk

/-- The innermost claim, which holds its key, goes and frees it. -/
theorem Sound.release [DecidableEq K] (h : Sound claims taken nextId) {c : Claim K}
    {cs : List (Claim K)} (hstack : claims t = c :: cs) (hheld : c.held = true) :
    Sound (Function.update claims t cs) (Function.update taken c.key false) nextId := by
  have hsub : ∀ t', ∀ c' ∈ Function.update claims t cs t', c' ∈ claims t' := by
    intro t' c' hc'
    rcases mem_update.mp hc' with ⟨ht', hnew⟩ | ⟨-, hold⟩
    · simp [ht', hstack, hnew]
    · exact hold
  have honce := h.once t
  rw [hstack, List.map_cons, List.nodup_cons] at honce
  obtain ⟨hfresh, hapart⟩ := h.ids_update t cs (Nat.le_refl nextId) (by
    intro c' hc'
    exact Or.inl ⟨c', by simp [hstack, hc'], rfl⟩)
  have hin : c ∈ claims t := by simp [hstack]
  -- no claim that is left holds the key
  have hnone : ∀ t', ∀ c' ∈ Function.update claims t cs t', c'.held = true → c'.key ≠ c.key := by
    intro t' c' hc' hh hk
    have hid := h.alone t' t c' (hsub t' c' hc') c hin hh hheld hk
    have heq := h.apart t' t c' (hsub t' c' hc') c hin hid
    subst heq
    have hcs : c' ∈ cs := by simpa using hc'
    exact honce.1 (List.mem_map.mpr ⟨c', hcs, hid⟩)
  refine ⟨?_, ?_, hfresh, once_update h.once honce.2, hapart⟩
  · intro k
    by_cases hk : k = c.key
    · subst hk
      simp only [Function.update_self, Bool.false_eq_true, false_iff]
      rintro ⟨t', c', hc', hh, hk⟩
      exact hnone t' c' hc' hh hk
    · rw [Function.update_of_ne hk, h.taken_iff]
      constructor
      · rintro ⟨t', c', hc', hh, rfl⟩
        refine ⟨t', c', ?_, hh, rfl⟩
        by_cases heq : t' = t
        · subst heq
          rw [hstack] at hc'
          rcases List.mem_cons.mp hc' with rfl | hc'
          · exact absurd rfl hk
          · simpa using hc'
        · simpa [heq] using hc'
      · rintro ⟨t', c', hc', hh, hkey⟩
        exact ⟨t', c', hsub t' c' hc', hh, hkey⟩
  · intro t' t'' c' hc' c'' hc'' hh hh' hk
    exact h.alone t' t'' c' (hsub t' c' hc') c'' (hsub t'' c'' hc'') hh hh' hk

/-- An innermost claim that holds nothing goes. -/
theorem Sound.drop (h : Sound claims taken nextId) {c : Claim K} {cs : List (Claim K)}
    (hstack : claims t = c :: cs) (hheld : c.held = false) :
    Sound (Function.update claims t cs) taken nextId := by
  have honce := h.once t
  rw [hstack, List.map_cons, List.nodup_cons] at honce
  refine h.same (Nat.le_refl _) ?_ honce.2 ?_
  · intro c' hc'
    exact Or.inl ⟨c', by simp [hstack, hc'], rfl⟩
  · intro c' hh
    rw [hstack, List.mem_cons]
    constructor
    · exact Or.inr
    · rintro (rfl | hc')
      · rw [hheld] at hh
        cases hh
      · exact hc'

/-- A claim with a new id that holds nothing is pushed. -/
theorem Sound.push (h : Sound claims taken nextId) (key : K) :
    Sound (Function.update claims t (⟨nextId, key, false⟩ :: claims t)) taken (nextId + 1) := by
  refine h.same (Nat.le_succ _) ?_ ?_ ?_
  · intro c hc
    rcases List.mem_cons.mp hc with rfl | hc
    · exact Or.inr ⟨Nat.le_refl _, Nat.lt_succ_self _⟩
    · exact Or.inl ⟨c, hc, rfl⟩
  · rw [List.map_cons, List.nodup_cons]
    refine ⟨?_, h.once t⟩
    intro hmem
    obtain ⟨c, hc, hid⟩ := List.mem_map.mp hmem
    have hlt := h.fresh t c hc
    simp only at hid
    omega
  · intro c hh
    rw [List.mem_cons]
    constructor
    · rintro (rfl | hc)
      · cases hh
      · exact hc
    · exact Or.inr

/-! ## Cycles of waiting threads -/

/-- If whoever waits waits for a key of smaller rank than every key it holds, no thread
waits for itself through others. -/
theorem no_cycle_of_rank {T : Type} (waitsFor : T → K → Prop) (holds : T → K → Prop)
    (rank : K → Nat) (hone : ∀ t k k', waitsFor t k → waitsFor t k' → k = k')
    (hrank : ∀ t k k', waitsFor t k → holds t k' → rank k < rank k') (t : T) :
    ¬Relation.TransGen (fun t t' => ∃ k, waitsFor t k ∧ holds t' k) t t := by
  have hdown : ∀ {t t'}, Relation.TransGen (fun t t' => ∃ k, waitsFor t k ∧ holds t' k) t t' →
      ∀ k k', waitsFor t k → waitsFor t' k' → rank k' < rank k := by
    intro t t' hpath
    induction hpath with
    | single hstep =>
      intro k k' hk hk'
      obtain ⟨k₁, hw, hh⟩ := hstep
      rw [hone _ _ _ hk hw]
      exact hrank _ _ _ hk' hh
    | tail _ hstep ih =>
      intro k k' hk hk'
      obtain ⟨k₁, hw, hh⟩ := hstep
      exact Nat.lt_trans (hrank _ _ _ hk' hh) (ih k k₁ hk hw)
  intro hcycle
  obtain ⟨k, hk⟩ : ∃ k, waitsFor t k := by
    obtain ⟨_, ⟨k, hk, -⟩, -⟩ := Relation.TransGen.head'_iff.mp hcycle
    exact ⟨k, hk⟩
  exact Nat.lt_irrefl _ (hdown hcycle k k hk hk)

end Reservation

end LayerMount.Lib
