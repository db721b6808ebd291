import LayerMount.ProcessTracker
import LayerMount.Lib.RingBuffer
import Mathlib.Data.List.DropRight

/-!
# The access log is a queue of the last entries

`AddLogEntry` and `GetRecentEntries` over a run of any length.  The log holds what
`RingHolds` says, and nothing overflows: a buffer is shorter than half of `size_t`, so the
head, the capacity and a position of a read have room together.
-/

namespace LayerMount

open Lib

/-- What every log holds after `added` was logged. -/
structure AccessLog.Logged (log : AccessLog) (added : List AccessLogEntry) : Prop where
  ring : RingHolds log.logBuffer log.logHead log.logCount added
  size : log.logBuffer.length = log.logCapacity
  fits : log.logCapacity ≤ kMaxVectorSize

theorem sizeT_of_lt {n : Nat} (h : n < 2 ^ 64) : sizeT n = n := Nat.mod_eq_of_lt h

namespace AccessLog

theorem logged_ofCapacity {capacity : Nat} {log : AccessLog} (hpos : 1 ≤ capacity)
    (h : AccessLog.ofCapacity capacity = some log) : log.Logged [] ∧ log.logCapacity = capacity := by
  unfold AccessLog.ofCapacity at h
  split at h
  · exact absurd h (by simp)
  · next hfits =>
    injection h with h
    subst h
    refine ⟨⟨⟨?_, ?_, ?_, ?_⟩, ?_, Nat.le_of_not_lt hfits⟩, rfl⟩
    · show 0 < (List.replicate capacity _).length
      rw [List.length_replicate]
      exact hpos
    · simp
    · simp
    · intro k _ hlt
      exact absurd hlt (Nat.not_lt_zero k)
    · simp

/-- Logging never moves the capacity. -/
theorem logCapacity_run (log : AccessLog) (added : List AccessLogEntry) :
    (added.foldl addLogEntry log).logCapacity = log.logCapacity := by
  induction added generalizing log with
  | nil => rfl
  | cons entry added ih => exact ih (addLogEntry log entry)

namespace Logged

variable {log : AccessLog} {added : List AccessLogEntry}

theorem logHead_lt (h : log.Logged added) : log.logHead < log.logCapacity :=
  h.size ▸ h.ring.next_lt

/-- The head moves without overflow. -/
theorem next_eq (h : log.Logged added) : sizeT (log.logHead + 1) = log.logHead + 1 := by
  have hhead := h.logHead_lt
  have hfits := h.fits
  unfold kMaxVectorSize at hfits
  apply sizeT_of_lt
  omega

theorem addLogEntry (h : log.Logged added) (entry : AccessLogEntry) :
    (LayerMount.addLogEntry log entry).Logged (added ++ [entry]) where
  ring := by
    have hring := h.ring.push entry
    rw [h.size] at hring
    show RingHolds (log.logBuffer.set log.logHead entry)
      (sizeT (log.logHead + 1) % log.logCapacity) _ _
    rw [h.next_eq]
    exact hring
  size := by
    show (log.logBuffer.set log.logHead entry).length = log.logCapacity
    rw [List.length_set]
    exact h.size
  fits := h.fits

/-- The induction is on the entries still to be logged. -/
theorem run (h : log.Logged added) (more : List AccessLogEntry) :
    (more.foldl LayerMount.addLogEntry log).Logged (added ++ more) := by
  induction more generalizing log added with
  | nil =>
    rw [List.append_nil]
    exact h
  | cons entry more ih =>
    have hstep := ih (h.addLogEntry entry)
    rwa [List.append_assoc] at hstep

/-- The subtraction from the wrapped sum is the plain one. -/
theorem start_eq (h : log.Logged added) {actual : Nat} (hpos : 0 < actual)
    (hle : actual ≤ log.logCount) :
    sizeT (sizeT (log.logHead + log.logCapacity) + (2 ^ 64 - actual))
      = log.logHead + log.logCapacity - actual := by
  have hhead := h.logHead_lt
  have hfits := h.fits
  have hcount := h.ring.stored_le
  rw [h.size] at hcount
  unfold kMaxVectorSize at hfits
  have hsum : sizeT (log.logHead + log.logCapacity) = log.logHead + log.logCapacity :=
    sizeT_of_lt (by omega)
  rw [hsum]
  unfold sizeT
  omega

theorem recentIndices_eq (h : log.Logged added) (count : Nat) :
    recentIndices log count = (List.range (min count log.logCount)).map fun i =>
      ((log.logHead + log.logCapacity - min count log.logCount) % log.logCapacity + i)
        % log.logCapacity := by
  show (if min count log.logCount = 0 then [] else _) = _
  split
  · next hzero =>
    rw [hzero]
    rfl
  · next hpos =>
    have hle : min count log.logCount ≤ log.logCount := Nat.min_le_right _ _
    rw [h.start_eq (Nat.pos_of_ne_zero hpos) hle]
    apply List.map_congr_left
    intro i hi
    rw [List.mem_range] at hi
    have hcapacity : 0 < log.logCapacity := Nat.zero_lt_of_lt h.logHead_lt
    have hcount := h.ring.stored_le
    have hfits := h.fits
    have hstart := Nat.mod_lt (log.logHead + log.logCapacity - min count log.logCount) hcapacity
    rw [h.size] at hcount
    unfold kMaxVectorSize at hfits
    rw [sizeT_of_lt (by omega)]

theorem recentIndices_lt (h : log.Logged added) {count i : Nat} (hi : i ∈ recentIndices log count) :
    i < log.logCapacity := by
  rw [h.recentIndices_eq, List.mem_map] at hi
  obtain ⟨k, -, rfl⟩ := hi
  exact Nat.mod_lt _ (Nat.zero_lt_of_lt h.logHead_lt)

theorem getRecentEntries_eq (h : log.Logged added) (count : Nat) :
    getRecentEntries log count
      = added.rtake (min count (min added.length log.logCapacity)) := by
  have hread := h.ring.recent (Nat.min_le_right count log.logCount) {}
  rw [h.size] at hread
  unfold getRecentEntries
  rw [h.recentIndices_eq, List.map_map]
  rw [h.ring.stored, h.size] at hread ⊢
  exact hread

end Logged

end AccessLog

/-- Any number of entries into a log of any capacity: a read of `count` gives the last of
them, oldest first, and no function leaves the buffer. -/
theorem accessLog_keeps_recent {capacity : Nat} {log : AccessLog} (hpos : 1 ≤ capacity)
    (h : AccessLog.ofCapacity capacity = some log) (added : List AccessLogEntry) :
    (added.foldl addLogEntry log).logBuffer.length = capacity ∧
      (added.foldl addLogEntry log).logHead < capacity ∧
      ∀ count, getRecentEntries (added.foldl addLogEntry log) count
          = added.rtake (min count (min added.length capacity)) ∧
        ∀ i ∈ recentIndices (added.foldl addLogEntry log) count, i < capacity := by
  obtain ⟨hnew, hcapacity⟩ := AccessLog.logged_ofCapacity hpos h
  have hrun := hnew.run added
  rw [List.nil_append] at hrun
  have hsame := (AccessLog.logCapacity_run log added).trans hcapacity
  refine ⟨?_, ?_, ?_⟩
  · rw [hrun.size, hsame]
  · rw [← hsame]
    exact hrun.logHead_lt
  · intro count
    constructor
    · rw [hrun.getRecentEntries_eq, hsame]
    · intro i hi
      rw [← hsame]
      exact hrun.recentIndices_lt hi

theorem accessLog_keeps_recent_wrapped :
    getRecentEntries ([{ pid := 1 }, { pid := 2 }, { pid := 3 }].foldl addLogEntry
      { logBuffer := List.replicate 2 {}, logCapacity := 2 }) 5 = [{ pid := 2 }, { pid := 3 }] :=
  ((accessLog_keeps_recent (by decide : 1 ≤ 2) rfl _).2.2 5).1

end LayerMount
