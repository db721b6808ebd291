import Mathlib.Data.List.Perm.Subperm
import LayerMount.Abi.HandleLedger

/-!
# What a holder of a handle value may rely on

The agreement of table and ledger turns every question about a handle value into
a question about the ledger: `resolve_eq_some_iff` for `Resolve`,
`free_of_not_live` for `Free`, `install_of_dead` for `Install`.  The contract
`handleTable_safe` collects them over every history of calls.
-/

namespace LayerMount.Abi

variable {T : Type}

/-! ## The values a history returned -/

/-- The handle value of an answer, when it has one. -/
def Answer.handle? : Answer T → Option UInt64
  | .value v => if v = 0 then none else some v
  | _ => none

/-- The answers of a history, oldest first. -/
def answersFrom (magic : UInt16) (t : HandleTable T) : List (Call T) → List (Answer T)
  | [] => []
  | call :: calls =>
    (step magic t call).1 :: answersFrom magic (step magic t call).2 calls

/-- All non-zero handle values that a history from a new table returned. -/
def returned (magic : UInt16) (maxSlot : UInt32) (calls : List (Call T)) : List UInt64 :=
  (answersFrom magic (.new maxSlot) calls).filterMap Answer.handle?

theorem values_issue (ledger : Ledger T) (v : UInt64) (st : Status T) :
    (ledger.issue v st).values = ledger.values ++ (if v = 0 then [] else [v]) := by
  unfold Ledger.issue
  split <;> simp [Ledger.values]

theorem values_record_step (magic : UInt16) (t : HandleTable T) (ledger : Ledger T)
    (call : Call T) :
    (ledger.record call (step magic t call).1).values
      = ledger.values ++ ((step magic t call).1.handle?).toList := by
  cases call with
  | allocate payload mem =>
    cases payload with
    | none => simp [step, HandleTable.allocate, Answer.ofValue, Ledger.record, Answer.handle?]
    | some p =>
      cases hv : (t.allocate magic mem (some p)).1 with
      | none => simp [step, hv, Answer.ofValue, Ledger.record, Answer.handle?]
      | some v =>
        simp only [step, hv, Answer.ofValue, Ledger.record, Answer.handle?, values_issue]
        split <;> simp
  | reserve mem =>
    cases hv : (t.reserve magic mem).1 with
    | none => simp [step, hv, Answer.ofValue, Ledger.record, Answer.handle?]
    | some v =>
      simp only [step, hv, Answer.ofValue, Ledger.record, Answer.handle?, values_issue]
      split <;> simp
  | install v payload =>
    cases payload with
    | none => simp [step, Ledger.record, Answer.handle?]
    | some p =>
      cases hok : (t.install magic v (some p)).1 <;>
        simp [step, hok, Ledger.record, Answer.handle?, Ledger.values_update]
  | release v mem => simp [step, Ledger.record, Answer.handle?, Ledger.values_update]
  | free v mem =>
    cases hp : (t.free magic mem v).1 <;>
      simp [step, hp, Ledger.record, Answer.handle?, Ledger.values_update]

private theorem values_runFrom (magic : UInt16) (t : HandleTable T) (ledger : Ledger T)
    (calls : List (Call T)) :
    (runFrom magic t ledger calls).2.values
      = ledger.values ++ (answersFrom magic t calls).filterMap Answer.handle? := by
  induction calls generalizing t ledger with
  | nil => simp [runFrom, answersFrom]
  | cons call calls ih =>
    simp only [runFrom, answersFrom, List.filterMap_cons]
    rw [ih, values_record_step, List.append_assoc]
    cases (step magic t call).1.handle? <;> simp

/-- The ledger lists exactly the values that were returned. -/
theorem values_run (magic : UInt16) (maxSlot : UInt32) (calls : List (Call T)) :
    (run magic maxSlot calls).2.values = returned magic maxSlot calls := by
  rw [run, values_runFrom, returned]
  rfl

theorem runFrom_append (magic : UInt16) (t : HandleTable T) (ledger : Ledger T)
    (calls later : List (Call T)) :
    runFrom magic t ledger (calls ++ later)
      = runFrom magic (runFrom magic t ledger calls).1 (runFrom magic t ledger calls).2
          later := by
  induction calls generalizing t ledger with
  | nil => rfl
  | cons call calls ih => exact ih _ _

/-! ## Answers from the ledger -/

section Spec

variable {magic : UInt16} {t : HandleTable T} {ledger : Ledger T} {v : UInt64} {p : T}

/-- `Resolve` answers from the ledger: a value resolves exactly when it is live,
and then to the payload given for it. -/
theorem resolve_eq_some_iff (h : t.Agrees magic ledger) :
    t.resolve magic v = some p ↔ (v, .live p) ∈ ledger := by
  rw [HandleTable.resolve_eq]
  constructor
  · intro hres
    obtain ⟨slot, hfind, hp⟩ := Option.bind_eq_some_iff.mp hres
    split at hp
    · rename_i hlive
      obtain ⟨st, hmem, hst, hb⟩ := h.entry_of_findSlot hfind (.inl hlive)
      cases st with
      | live q =>
        obtain rfl : p = q := by
          rw [hb.2.2.2] at hp
          exact (Option.some.inj hp).symm
        exact hmem
      | reserved => exact absurd hb.2.2 (by simp [hlive])
      | dead => cases hst
    · cases hp
  · intro hmem
    obtain ⟨slot, hfind, hb⟩ := h.findSlot_of_mem hmem rfl
    simp [hfind, hb.2.1, hb.2.2.2]

theorem resolve_eq_none_of_not_live (h : t.Agrees magic ledger) {st : Status T}
    (hmem : (v, st) ∈ ledger) (hst : ∀ p, st ≠ .live p) : t.resolve magic v = none := by
  rw [Option.eq_none_iff_forall_not_mem]
  intro p hp
  have hlive := (resolve_eq_some_iff h).mp hp
  exact hst p (Ledger.status_unique h.values_nodup hmem hlive)

theorem free_of_not_live (h : t.Agrees magic ledger) {st : Status T} (mem : Memory)
    (hmem : (v, st) ∈ ledger) (hst : ∀ p, st ≠ .live p) :
    t.free magic mem v = (none, t) := by
  rw [HandleTable.free_eq]
  cases hfind : t.findSlot magic v with
  | none => rfl
  | some slot =>
    cases hlive : slot.live with
    | false => simp [hlive]
    | true =>
      obtain ⟨st', hmem', hopen, hb⟩ := h.entry_of_findSlot hfind (.inl hlive)
      obtain rfl := Ledger.status_unique h.values_nodup hmem hmem'
      cases st with
      | live p => exact absurd rfl (hst p)
      | reserved => exact absurd hb.2.2 (by simp [hlive])
      | dead => cases hopen

theorem install_of_dead (h : t.Agrees magic ledger) (hmem : (v, .dead) ∈ ledger)
    (payload : Option T) : t.install magic v payload = (false, t) := by
  unfold HandleTable.install
  cases payload with
  | none => rfl
  | some p =>
    cases hfind : t.findSlot magic v with
    | none => rfl
    | some slot => simp [(h.findSlot_of_dead hmem hfind).2]

/-- A dead value stays dead through any call. -/
theorem dead_record (h : t.Agrees magic ledger) (hmem : (v, .dead) ∈ ledger)
    (call : Call T) : (v, .dead) ∈ ledger.record call (step magic t call).1 := by
  have hissue : ∀ w st, (v, .dead) ∈ ledger.issue w st := by
    intro w st
    unfold Ledger.issue
    split
    · exact hmem
    · exact List.mem_append_left _ hmem
  have hupdate : ∀ w (f : Status T → Status T), (w = v → f .dead = .dead) →
      (v, .dead) ∈ ledger.update w f := by
    intro w f hf
    by_cases hw : v = w
    · subst hw
      exact Ledger.mem_update.mpr (.inr ⟨rfl, .dead, hmem, (hf rfl).symm⟩)
    · exact Ledger.mem_update.mpr (.inl ⟨hw, hmem⟩)
  cases call with
  | allocate payload mem =>
    cases payload with
    | none => exact hmem
    | some p =>
      cases hv : (t.allocate magic mem (some p)).1 with
      | none => simpa [step, hv, Answer.ofValue, Ledger.record] using hmem
      | some w => simpa [step, hv, Answer.ofValue, Ledger.record] using hissue w _
  | reserve mem =>
    cases hv : (t.reserve magic mem).1 with
    | none => simpa [step, hv, Answer.ofValue, Ledger.record] using hmem
    | some w => simpa [step, hv, Answer.ofValue, Ledger.record] using hissue w _
  | install w payload =>
    cases payload with
    | none => exact hmem
    | some p =>
      cases hok : (t.install magic w (some p)).1 with
      | false => simpa [step, hok, Ledger.record] using hmem
      | true =>
        simp only [step, hok, Ledger.record]
        refine hupdate w _ ?_
        rintro rfl
        rw [install_of_dead h hmem] at hok
        cases hok
  | release w mem => exact hupdate w _ fun _ => rfl
  | free w mem =>
    cases hp : (t.free magic mem w).1 with
    | none => simpa [step, hp, Ledger.record] using hmem
    | some p => simpa [step, hp, Ledger.record] using hupdate w (fun _ => .dead) fun _ => rfl

theorem dead_runFrom (h : t.Agrees magic ledger) (hmem : (v, .dead) ∈ ledger)
    (calls : List (Call T)) : (v, .dead) ∈ (runFrom magic t ledger calls).2 := by
  induction calls generalizing t ledger with
  | nil => exact hmem
  | cons call calls ih => exact ih (step_agrees h call) (dead_record h hmem call)

/-- Open values sit in different slots, so there are no more of them than slots. -/
theorem length_open_le (h : t.Agrees magic ledger) :
    (ledger.filter fun e => e.2.isOpen).length ≤ t.maxSlot.toNat := by
  have hinj : ((ledger.filter fun e => e.2.isOpen).map
      fun e => (decodeSlot e.1).toNat).Nodup := by
    refine List.Nodup.map_on ?_ (h.values_nodup.of_map _ |>.filter _)
    rintro ⟨v, st⟩ hv ⟨w, st'⟩ hw hslot
    rw [List.mem_filter] at hv hw
    obtain ⟨slot, hfind, -⟩ := h.findSlot_of_mem hv.1 hv.2
    obtain ⟨slot', hfind', -⟩ := h.findSlot_of_mem hw.1 hw.2
    have hslot' : decodeSlot v = decodeSlot w := UInt32.toNat_inj.mp hslot
    have hget := (HandleTable.findSlot_eq_some_iff.mp hfind).2.2.1
    have hget' := (HandleTable.findSlot_eq_some_iff.mp hfind').2.2.1
    obtain rfl : slot = slot' := by
      rw [hslot', hget'] at hget
      exact (Option.some.inj hget).symm
    have hvw : v = w := by
      rw [← h.encode_of_findSlot hfind, ← h.encode_of_findSlot hfind', hslot']
    subst hvw
    rw [Ledger.status_unique h.values_nodup hv.1 hw.1]
  have hsub : ((ledger.filter fun e => e.2.isOpen).map
      fun e => (decodeSlot e.1).toNat) ⊆ List.range' 1 t.maxSlot.toNat := by
    intro i hi
    obtain ⟨⟨v, st⟩, hv, rfl⟩ := List.mem_map.mp hi
    obtain ⟨-, hpos, slot, hget, -⟩ := h.tracks v st (List.mem_filter.mp hv).1
    have hlt := (List.getElem?_eq_some_iff.mp hget).1
    have hsize := h.size_le
    rw [List.mem_range'_1]
    dsimp only
    omega
  have hle := (hinj.subperm hsub).length_le
  simpa using hle

end Spec

/-! ## The bound on open values -/

theorem maxSlot_step (magic : UInt16) (t : HandleTable T) (call : Call T) :
    (step magic t call).2.maxSlot = t.maxSlot := by
  have htake : ∀ mem, (t.takeSlot mem).2.maxSlot = t.maxSlot := by
    intro mem
    unfold HandleTable.takeSlot
    split
    · rfl
    · split
      · rfl
      · generalize (if t.slots.isEmpty then [({} : Slot T)] else t.slots) = slots
        dsimp only
        split
        · rfl
        · split <;> rfl
  have hrecycle : ∀ mem i (slot : Slot T),
      (t.recycle mem i slot).maxSlot = t.maxSlot := by
    intro mem i slot
    unfold HandleTable.recycle
    split
    · rfl
    · split <;> rfl
  cases call with
  | allocate payload mem =>
    have hmem := htake mem
    simp only [step, HandleTable.allocate]
    split
    · rfl
    · split
      · rename_i heq
        rw [heq] at hmem
        exact hmem
      · rename_i heq
        rw [heq] at hmem
        split
        · exact hmem
        · split <;> exact hmem
  | reserve mem =>
    have hmem := htake mem
    simp only [step, HandleTable.reserve]
    split
    · rename_i heq
      rw [heq] at hmem
      exact hmem
    · rename_i heq
      rw [heq] at hmem
      split
      · exact hmem
      · split <;> exact hmem
  | install v payload =>
    simp only [step, HandleTable.install]
    split
    · rfl
    · rfl
    · split <;> rfl
  | release v mem =>
    simp only [step, HandleTable.release]
    split
    · rfl
    · split
      · rfl
      · exact hrecycle _ _ _
  | free v mem =>
    simp only [step, HandleTable.free_eq]
    split
    · rfl
    · split
      · exact hrecycle _ _ _
      · rfl

theorem maxSlot_runFrom (magic : UInt16) (t : HandleTable T) (ledger : Ledger T)
    (calls : List (Call T)) :
    (runFrom magic t ledger calls).1.maxSlot = t.maxSlot := by
  induction calls generalizing t ledger with
  | nil => rfl
  | cons call calls ih =>
    simp only [runFrom]
    rw [ih, maxSlot_step]

theorem toNat_maxSlot_new_le (maxSlot : UInt32) :
    (HandleTable.new maxSlot : HandleTable T).maxSlot.toNat ≤ maxSlot.toNat := by
  simp only [HandleTable.new]
  split
  · rename_i hlt
    exact Nat.le_of_lt (UInt32.lt_iff_toNat_lt.mp hlt)
  · exact Nat.le_refl _

/-- The table's contract over every history: the returned values are distinct, a
live value resolves to its payload, a reservation neither resolves nor frees, a
dead value does nothing in this or any later state, a foreign magic resolves to
nothing, and the open values number at most `maxSlot`. -/
theorem handleTable_safe (magic : UInt16) (maxSlot : UInt32) (calls : List (Call T)) :
    (returned magic maxSlot calls).Nodup ∧
    (∀ v p, (v, .live p) ∈ (run magic maxSlot calls).2 →
      (run magic maxSlot calls).1.resolve magic v = some p) ∧
    (∀ v, (v, .reserved) ∈ (run magic maxSlot calls).2 →
      (run magic maxSlot calls).1.resolve magic v = none ∧
      ∀ mem, (run magic maxSlot calls).1.free magic mem v
        = (none, (run magic maxSlot calls).1)) ∧
    (∀ v, (v, .dead) ∈ (run magic maxSlot calls).2 → ∀ later,
      (run magic maxSlot (calls ++ later)).1.resolve magic v = none ∧
      (∀ payload, (run magic maxSlot (calls ++ later)).1.install magic v payload
        = (false, (run magic maxSlot (calls ++ later)).1)) ∧
      ∀ mem, (run magic maxSlot (calls ++ later)).1.free magic mem v
        = (none, (run magic maxSlot (calls ++ later)).1)) ∧
    (∀ v, decodeMagic v ≠ magic → (run magic maxSlot calls).1.resolve magic v = none) ∧
    ((run magic maxSlot calls).2.filter fun e => e.2.isOpen).length ≤ maxSlot.toNat := by
  have h := run_agrees magic maxSlot calls
  refine ⟨?_, ?_, ?_, ?_, ?_, ?_⟩
  · rw [← values_run]
    exact h.values_nodup
  · intro v p hmem
    exact (resolve_eq_some_iff h).mpr hmem
  · intro v hmem
    exact ⟨resolve_eq_none_of_not_live h hmem (by simp),
      fun mem => free_of_not_live h mem hmem (by simp)⟩
  · intro v hmem later
    have hlater := run_agrees magic maxSlot (calls ++ later)
    have hdead : (v, .dead) ∈ (run magic maxSlot (calls ++ later)).2 := by
      rw [run, runFrom_append]
      exact dead_runFrom h hmem later
    exact ⟨resolve_eq_none_of_not_live hlater hdead (by simp),
      install_of_dead hlater hdead,
      fun mem => free_of_not_live hlater mem hdead (by simp)⟩
  · intro v hm
    rw [HandleTable.resolve_eq]
    cases hfind : (run magic maxSlot calls).1.findSlot magic v with
    | none => rfl
    | some slot => exact absurd (HandleTable.findSlot_eq_some_iff.mp hfind).1 hm
  · have hmax : (run magic maxSlot calls).1.maxSlot
        = (HandleTable.new maxSlot : HandleTable T).maxSlot := maxSlot_runFrom _ _ _ _
    have hle := length_open_le h
    rw [hmax] at hle
    exact Nat.le_trans hle (toNat_maxSlot_new_le maxSlot)

end LayerMount.Abi
