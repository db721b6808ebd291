import LayerMount.Abi.HandleSafety
import LayerMount.Lib.Interleaving

/-!
# Opening files and destroying their mount

`LayerMountDestroy` refuses to free a mount that has live file handles.  It reads the
mount's child count and frees the mount in a later step.  `LayerMountOpenFile` and
`LayerMountCreateFile` resolve the mount, reserve a file handle, run the engine, count up
and install the handle (`ReserveThenRun`), and no lock is held from the first of these
steps to the last.

A run is any interleaving of such steps.  An open that counts up after a destroy has read
zero leaves a file handle of a destroyed mount behind (`destroy_outruns_open`).  A run
without such a count keeps the promise (`no_file_of_destroyed`).

Mount holders are numbered in the order of their creation.  The engine's own state is
absent: an engine call succeeds or fails.
-/

namespace LayerMount.Abi

/-! ## The registry -/

def kMagicLayerMount : UInt16 := 0xFE01
def kMagicFile : UInt16 := 0xFE02

/-- A file holder pins the mount holder that it was opened on. -/
structure FileHolder where
  parentOwner : Nat
  deriving DecidableEq, Repr

/-- The two tables, and the atomics of the mount holders.  A holder that is not made yet
has the values of a new one. -/
structure HandleRegistry where
  mount : HandleTable Nat := .new kMaxSlot
  file : HandleTable FileHolder := .new kMaxSlot
  childCount : Nat → UInt32 := fun _ => 0
  hostAttached : Nat → Bool := fun _ => false
  nextHolder : Nat := 0

inductive HResult where
  | ok
  | invalidHandle
  | outOfMemory
  | illegalMethodCall
  /-- The error of an engine call, or an exception. -/
  | engine
  deriving DecidableEq, Repr

/-- Where a call is.  `destroyed` is a `LayerMountDestroy` that has returned `S_OK`. -/
inductive AbiCall where
  | openEntered (handle : UInt64)
  | openResolved (owner : Nat)
  | openReserved (owner : Nat) (reserved : UInt64)
  | openFailed (reserved : UInt64)
  | openSucceeded (owner : Nat) (reserved : UInt64)
  | openCounted (owner : Nat) (reserved : UInt64)
  | closeEntered (file : UInt64)
  | closeFreed (holder : FileHolder)
  | closeClosed (holder : FileHolder)
  | destroyEntered (handle : UInt64)
  | destroyResolved (handle : UInt64) (owner : Nat)
  | destroyDetached (handle : UInt64) (owner : Nat)
  | destroyChildless (handle : UInt64) (owner : Nat)
  | destroyed (owner : Nat)
  | returned (result : HResult)
  deriving DecidableEq, Repr

/-- What a step does not decide itself: memory for the tables and for a new holder, and
the outcome of an engine call. -/
structure Chance where
  memory : Memory := {}
  holder : Bool := true
  engine : Bool := true
  deriving DecidableEq, Repr

namespace HandleRegistry

/-- `ReserveThenRun` up to its engine call. -/
def reserveFile (r : HandleRegistry) (chance : Chance) (owner : Nat) :
    HandleRegistry × AbiCall :=
  if !chance.holder then (r, .returned .engine)
  else
    match r.file.reserve kMagicFile chance.memory with
    | (none, file) => ({ r with file }, .returned .engine)
    | (some reserved, file) =>
      if reserved = 0 then ({ r with file }, .returned .outOfMemory)
      else ({ r with file }, .openReserved owner reserved)

/-- `LayerMountCloseFile` up to the engine's `Close`. -/
def freeFile (r : HandleRegistry) (chance : Chance) (file : UInt64) :
    HandleRegistry × AbiCall :=
  match r.file.free kMagicFile chance.memory file with
  | (none, table) => ({ r with file := table }, .returned .invalidHandle)
  | (some holder, table) => ({ r with file := table }, .closeFreed holder)

/-- The last step of `LayerMountDestroy`. -/
def freeMount (r : HandleRegistry) (chance : Chance) (handle : UInt64) :
    HandleRegistry × AbiCall :=
  match r.mount.free kMagicLayerMount chance.memory handle with
  | (none, table) => ({ r with mount := table }, .returned .invalidHandle)
  | (some owner, table) => ({ r with mount := table }, .destroyed owner)

def setCount (r : HandleRegistry) (owner : Nat) (count : UInt32) : HandleRegistry :=
  { r with childCount := Function.update r.childCount owner count }

/-- The next step of a call.  `none` is a call that has returned. -/
def advance (r : HandleRegistry) (chance : Chance) :
    AbiCall → Option (HandleRegistry × AbiCall)
  -- `LayerMountOpenFile` and `LayerMountCreateFile`
  | .openEntered handle =>
    match r.mount.resolve kMagicLayerMount handle with
    | none => some (r, .returned .invalidHandle)
    | some owner => some (r, .openResolved owner)
  | .openResolved owner => some (r.reserveFile chance owner)
  | .openReserved owner reserved =>
    if chance.engine then some (r, .openSucceeded owner reserved)
    else some (r, .openFailed reserved)
  | .openFailed reserved =>
    some ({ r with file := r.file.release kMagicFile chance.memory reserved },
      .returned .engine)
  | .openSucceeded owner reserved =>
    some (r.setCount owner (r.childCount owner + 1), .openCounted owner reserved)
  | .openCounted owner reserved =>
    some ({ r with file := (r.file.install kMagicFile reserved (some ⟨owner⟩)).2 },
      .returned .ok)
  -- `LayerMountCloseFile`
  | .closeEntered file => some (r.freeFile chance file)
  | .closeFreed holder => some (r, .closeClosed holder)
  | .closeClosed holder =>
    some (r.setCount holder.parentOwner (r.childCount holder.parentOwner - 1), .returned .ok)
  -- `LayerMountDestroy`
  | .destroyEntered handle =>
    match r.mount.resolve kMagicLayerMount handle with
    | none => some (r, .returned .invalidHandle)
    | some owner => some (r, .destroyResolved handle owner)
  | .destroyResolved handle owner =>
    if r.hostAttached owner then some (r, .returned .illegalMethodCall)
    else some (r, .destroyDetached handle owner)
  | .destroyDetached handle owner =>
    if r.childCount owner ≠ 0 then some (r, .returned .illegalMethodCall)
    else some (r, .destroyChildless handle owner)
  | .destroyChildless handle _ => some (r.freeMount chance handle)
  | .destroyed _ => none
  | .returned _ => none

end HandleRegistry

/-! ## Runs -/

inductive AbiEntry where
  | openFile (handle : UInt64)
  | createFile (handle : UInt64)
  | closeFile (file : UInt64)
  | destroy (handle : UInt64)
  deriving DecidableEq, Repr

/-- `CreateFileHandle` and `OpenFileHandle` are one function with another engine call. -/
def AbiEntry.call : AbiEntry → AbiCall
  | .openFile handle => .openEntered handle
  | .createFile handle => .openEntered handle
  | .closeFile file => .closeEntered file
  | .destroy handle => .destroyEntered handle

inductive AbiAction where
  /-- The `Allocate` of `LayerMountCreate`. -/
  | create (memory : Memory)
  /-- The store of `LayerMountSetHostAttached`. -/
  | setHostAttached (owner : Nat) (attached : Bool)
  | start (entry : AbiEntry)
  | advance (i : Nat) (chance : Chance)
  deriving DecidableEq, Repr

structure AbiState where
  registry : HandleRegistry := {}
  /-- The calls in the order in which they began. -/
  calls : List AbiCall := []

namespace AbiState

def step (s : AbiState) : AbiAction → Option AbiState
  | .create memory =>
    let (_, mount) :=
      s.registry.mount.allocate kMagicLayerMount memory (some s.registry.nextHolder)
    some { s with registry :=
      { s.registry with mount, nextHolder := s.registry.nextHolder + 1 } }
  | .setHostAttached owner attached =>
    some { s with registry := { s.registry with
      hostAttached := Function.update s.registry.hostAttached owner attached } }
  | .start entry => some { s with calls := s.calls ++ [entry.call] }
  | .advance i chance =>
    match s.calls[i]? with
    | none => none
    | some call =>
      match s.registry.advance chance call with
      | none => none
      | some (registry, call) => some ⟨registry, s.calls.set i call⟩

end AbiState

/-! ## Children that are counted -/

/-- A live slot whose payload satisfies `P`. -/
def Slot.bearsLive {T : Type} (P : T → Bool) (slot : Slot T) : Bool :=
  slot.live && slot.payload.any P

def HandleTable.liveCount {T : Type} (P : T → Bool) (t : HandleTable T) : Nat :=
  t.slots.countP (Slot.bearsLive P)

namespace AbiCall

/-- The call is between its count up and its install, or between its free and its count
down. -/
def countedFor (owner : Nat) : AbiCall → Bool
  | .openCounted o _ => o == owner
  | .closeFreed holder | .closeClosed holder => holder.parentOwner == owner
  | _ => false

/-- A `LayerMountDestroy` of the mount that has read a zero count and has not been refused
after that. -/
def destroys (owner : Nat) : AbiCall → Bool
  | .destroyChildless _ o | .destroyed o => o == owner
  | _ => false

end AbiCall

namespace AbiState

/-- The children that the count of the mount stands for. -/
def outstanding (s : AbiState) (owner : Nat) : Nat :=
  s.calls.countP (AbiCall.countedFor owner) +
    s.registry.file.liveCount fun holder => holder.parentOwner == owner

/-- An open counts up only while no destroy of its mount has read zero, and a destroy
reads a count that did not wrap. -/
def InTime (s : AbiState) : AbiAction → Prop
  | .advance i _ =>
    match s.calls[i]? with
    | some (.openSucceeded owner _) => ∀ call ∈ s.calls, call.destroys owner = false
    | some (.destroyDetached _ owner) => s.outstanding owner < 2 ^ 32
    | _ => True
  | _ => True

instance (s : AbiState) (a : AbiAction) : Decidable (s.InTime a) := by
  unfold InTime
  split
  · split <;> infer_instance
  · infer_instance

def Next (s s' : AbiState) : Prop := ∃ a, s.step a = some s'

def NextInTime (s s' : AbiState) : Prop := ∃ a, s.step a = some s' ∧ s.InTime a

/-- No file handle of a destroyed mount resolves. -/
def NoOrphan (s : AbiState) : Prop :=
  ∀ owner, .destroyed owner ∈ s.calls → ∀ v holder,
    s.registry.file.resolve kMagicFile v = some holder → holder.parentOwner ≠ owner

end AbiState

/-! ## Live payloads of a table -/

namespace HandleTable

variable {T : Type} {P : T → Bool} {t : HandleTable T} {magic : UInt16} {mem : Memory}
  {v : UInt64} {ledger : Ledger T}

theorem liveCount_setSlot {i : UInt32} {old : Slot T} (slot : Slot T)
    (hold : t.slots[i.toNat]? = some old) :
    (t.setSlot i slot).liveCount P + (old.bearsLive P).toNat
      = t.liveCount P + (slot.bearsLive P).toNat :=
  Lib.countP_set_add (Slot.bearsLive P) hold

theorem liveCount_recycle {i : UInt32} {old : Slot T} (mem : Memory) (slot : Slot T)
    (hold : t.slots[i.toNat]? = some old) :
    (t.recycle mem i slot).liveCount P + (old.bearsLive P).toNat
      = t.liveCount P + (slot.bearsLive P).toNat := by
  unfold recycle
  split
  · exact liveCount_setSlot _ hold
  · split
    · exact liveCount_setSlot _ hold
    · exact liveCount_setSlot _ hold

theorem liveCount_takeSlot (mem : Memory) : (t.takeSlot mem).2.liveCount P = t.liveCount P := by
  have hgrow : ∀ slots : List (Slot T),
      (slots ++ [({} : Slot T)]).countP (Slot.bearsLive P) = slots.countP (Slot.bearsLive P) := by
    intro slots
    rw [Lib.countP_append_one]
    rfl
  have hfirst : (if t.slots.isEmpty then [({} : Slot T)] else t.slots).countP
      (Slot.bearsLive P) = t.liveCount P := by
    unfold liveCount
    split
    · rename_i hempty
      rw [List.isEmpty_iff.mp hempty]
      exact hgrow []
    · rfl
  unfold takeSlot
  split
  · rfl
  · split
    · rfl
    · generalize (if t.slots.isEmpty then [({} : Slot T)] else t.slots) = slots at hfirst ⊢
      dsimp only
      split
      · exact hfirst
      · split
        · exact hfirst
        · exact (hgrow _).trans hfirst

theorem liveCount_reserve : (t.reserve magic mem).2.liveCount P = t.liveCount P := by
  have htake := liveCount_takeSlot (P := P) (t := t) mem
  unfold reserve
  split
  · rename_i heq
    rw [heq] at htake
    exact htake
  · rename_i heq
    rw [heq] at htake
    split
    · exact htake
    · split
      · exact htake
      · rename_i slot hget
        have hset := liveCount_setSlot (P := P) { slot with reserved := true } hget
        have hsame : (Slot.bearsLive P { slot with reserved := true }).toNat
            = (slot.bearsLive P).toNat := rfl
        rw [hsame] at hset
        dsimp only at htake ⊢
        omega

theorem liveCount_release : (t.release magic mem v).liveCount P = t.liveCount P := by
  unfold release
  cases hfind : t.findSlot magic v with
  | none => rfl
  | some slot =>
    dsimp only
    split
    · rfl
    · have hget := (findSlot_eq_some_iff.mp hfind).2.2.1
      have hset := liveCount_recycle (P := P) mem { slot with reserved := false } hget
      have hsame : (Slot.bearsLive P { slot with reserved := false }).toNat
          = (slot.bearsLive P).toNat := rfl
      rw [hsame] at hset
      omega

/-- A pending reservation is filled: one more live payload. -/
theorem liveCount_install (h : t.Agrees magic ledger) (hmem : (v, .reserved) ∈ ledger)
    (p : T) : (t.install magic v (some p)).1 = true ∧
      (t.install magic v (some p)).2.liveCount P = t.liveCount P + (P p).toNat := by
  obtain ⟨slot, hfind, -, hreserved, hlive⟩ := h.findSlot_of_mem hmem rfl
  have hget := (findSlot_eq_some_iff.mp hfind).2.2.1
  have hset := liveCount_setSlot (P := P)
    { slot with reserved := false, payload := some p, live := true } hget
  have hold : (slot.bearsLive P).toNat = 0 := by simp [Slot.bearsLive, hlive]
  have hnew : (Slot.bearsLive P { slot with reserved := false, payload := some p, live := true }).toNat
      = (P p).toNat := by simp [Slot.bearsLive]
  simp only [install, hfind, hreserved, Bool.not_true, Bool.false_eq_true, if_false]
  refine ⟨trivial, ?_⟩
  omega

/-- A free takes its payload out, or changes nothing. -/
theorem free_cases (P : T → Bool) (mem : Memory) (v : UInt64) (h : t.Agrees magic ledger) :
    t.free magic mem v = (none, t) ∨
      ∃ p, (v, .live p) ∈ ledger ∧ (t.free magic mem v).1 = some p ∧
        (t.free magic mem v).2.liveCount P + (P p).toNat = t.liveCount P := by
  rw [free_eq]
  cases hfind : t.findSlot magic v with
  | none => exact Or.inl rfl
  | some slot =>
    dsimp only
    cases hlive : slot.live with
    | false => exact Or.inl rfl
    | true =>
      right
      obtain ⟨st, hmem, hopen, hbears⟩ := h.entry_of_findSlot hfind (Or.inl hlive)
      cases st with
      | dead => cases hopen
      | reserved =>
        have hnot := hbears.2.2
        rw [hlive] at hnot
        cases hnot
      | live p =>
        have hpayload := hbears.2.2.2
        have hget := (findSlot_eq_some_iff.mp hfind).2.2.1
        have hset := liveCount_recycle (P := P) mem { slot with payload := none, live := false } hget
        have hold : (slot.bearsLive P).toNat = (P p).toNat := by simp [Slot.bearsLive, hlive, hpayload]
        have hnew : (Slot.bearsLive P { slot with payload := none, live := false }).toNat = 0 := rfl
        refine ⟨p, hmem, hpayload, ?_⟩
        simp only [if_true]
        omega

/-- A value that resolves is counted. -/
theorem liveCount_pos_of_resolve {p : T} (h : t.resolve magic v = some p) (hp : P p = true) :
    0 < t.liveCount P := by
  rw [resolve_eq] at h
  obtain ⟨slot, hfind, hslot⟩ := Option.bind_eq_some_iff.mp h
  split at hslot
  · rename_i hlive
    have hget := (findSlot_eq_some_iff.mp hfind).2.2.1
    refine Lib.countP_pos_of_getElem? hget ?_
    simp [Slot.bearsLive, hlive, hslot, hp]
  · cases hslot

end HandleTable

/-! ## The invariant -/

namespace AbiCall

/-- The file handle that the call has reserved and not given back or installed. -/
@[simp] def reserves : AbiCall → Option UInt64
  | .openReserved _ v | .openFailed v | .openSucceeded _ v | .openCounted _ v => some v
  | _ => none

/-- The handle of a destroy that is under way, with the mount it resolved to. -/
@[simp] def destroying : AbiCall → Option (UInt64 × Nat)
  | .destroyResolved handle owner | .destroyDetached handle owner
  | .destroyChildless handle owner => some (handle, owner)
  | _ => none

end AbiCall

/-- Every reserved file handle belongs to one call. -/
structure Pending (file : HandleTable FileHolder) (calls : List AbiCall)
    (ledger : Ledger FileHolder) : Prop where
  agrees : file.Agrees kMagicFile ledger
  held : ∀ (i : Nat) (call : AbiCall) (v : UInt64), calls[i]? = some call →
    call.reserves = some v → (v, .reserved) ∈ ledger
  apart : ∀ (i j : Nat) (call call' : AbiCall) (v : UInt64), calls[i]? = some call →
    calls[j]? = some call' → call.reserves = some v → call'.reserves = some v → i = j

/-- A destroy that is under way has a handle of the mount it resolved, live or dead. -/
structure Destroying (mount : HandleTable Nat) (calls : List AbiCall)
    (ledger : Ledger Nat) : Prop where
  agrees : mount.Agrees kMagicLayerMount ledger
  known : ∀ call ∈ calls, ∀ handle owner, call.destroying = some (handle, owner) →
    (handle, .live owner) ∈ ledger ∨ (handle, .dead) ∈ ledger

section Parts

variable {file file' : HandleTable FileHolder} {mount mount' : HandleTable Nat}
  {calls : List AbiCall} {ledger ledger' : Ledger FileHolder} {mledger mledger' : Ledger Nat}
  {i : Nat} {call call' : AbiCall}

/-- One call goes on: the handles that the other calls have reserved stay reserved. -/
theorem Pending.set (h : Pending file calls ledger) (hi : calls[i]? = some call)
    (hagrees : file'.Agrees kMagicFile ledger')
    (hkeep : ∀ v, (v, .reserved) ∈ ledger → call.reserves ≠ some v → (v, .reserved) ∈ ledger')
    (hnew : ∀ v, call'.reserves = some v → (v, .reserved) ∈ ledger' ∧
      (call.reserves = some v ∨ v ∉ ledger.values)) :
    Pending file' (calls.set i call') ledger' := by
  -- the handle of the call that goes on is not one of another call
  have hother : ∀ (j : Nat) (other : AbiCall) (v : UInt64), j ≠ i → calls[j]? = some other →
      other.reserves = some v → call.reserves ≠ some v ∧ call'.reserves ≠ some v := by
    intro j other v hne hj hv
    have hcall : call.reserves ≠ some v := fun heq =>
      hne (h.apart j i other call v hj hi hv heq)
    refine ⟨hcall, ?_⟩
    intro heq
    rcases (hnew v heq).2 with hsame | hfresh
    · exact hcall hsame
    · exact hfresh (List.mem_map_of_mem (f := Prod.fst) (h.held j other v hj hv))
  refine ⟨hagrees, ?_, ?_⟩
  · intro j other v hj hv
    rcases Lib.of_getElem?_set hj with ⟨-, rfl⟩ | ⟨hne, hold⟩
    · exact (hnew v hv).1
    · exact hkeep v (h.held j other v hold hv) (hother j other v hne hold hv).1
  · intro j k other other' v hj hk hv hv'
    rcases Lib.of_getElem?_set hj with ⟨rfl, rfl⟩ | ⟨hne, hold⟩
    · rcases Lib.of_getElem?_set hk with ⟨rfl, rfl⟩ | ⟨hne', hold'⟩
      · rfl
      · exact absurd hv (hother k other' v hne' hold' hv').2
    · rcases Lib.of_getElem?_set hk with ⟨rfl, rfl⟩ | ⟨hne', hold'⟩
      · exact absurd hv' (hother j other v hne hold hv).2
      · exact h.apart j k other other' v hold hold' hv hv'

/-- The files stay as they are, and so does what the call has reserved. -/
theorem Pending.same (h : Pending file calls ledger) (hi : calls[i]? = some call)
    (hcall : call'.reserves = call.reserves) : Pending file (calls.set i call') ledger := by
  apply h.set hi h.agrees
  · intro v hv _
    exact hv
  · intro v hv
    rw [hcall] at hv
    exact ⟨h.held i call v hi hv, Or.inl hv⟩

theorem Destroying.set (h : Destroying mount calls mledger)
    (hagrees : mount'.Agrees kMagicLayerMount mledger')
    (hkeep : ∀ handle owner, (handle, .live owner) ∈ mledger →
      (handle, .live owner) ∈ mledger' ∨ (handle, .dead) ∈ mledger')
    (hdead : ∀ handle, (handle, .dead) ∈ mledger → (handle, .dead) ∈ mledger')
    (hnew : ∀ handle owner, call'.destroying = some (handle, owner) →
      (handle, .live owner) ∈ mledger' ∨ (handle, .dead) ∈ mledger') :
    Destroying mount' (calls.set i call') mledger' := by
  refine ⟨hagrees, ?_⟩
  intro other hother handle owner hd
  rcases List.mem_or_eq_of_mem_set hother with hold | rfl
  · rcases h.known other hold handle owner hd with hlive | hdead'
    · exact hkeep handle owner hlive
    · exact Or.inr (hdead handle hdead')
  · exact hnew handle owner hd

/-- The mounts stay as they are, and the call starts no destroy. -/
theorem Destroying.same (h : Destroying mount calls mledger) (hi : calls[i]? = some call)
    (hcall : call'.destroying = none ∨ call'.destroying = call.destroying) :
    Destroying mount (calls.set i call') mledger := by
  refine h.set h.agrees (fun _ _ hlive => Or.inl hlive) (fun _ hdead => hdead) ?_
  intro handle owner hd
  rcases hcall with hnone | hsame
  · rw [hnone] at hd
    cases hd
  · rw [hsame] at hd
    exact h.known call (List.mem_of_getElem? hi) handle owner hd

end Parts

namespace AbiState

structure Sound (s : AbiState) : Prop where
  files : ∃ ledger, Pending s.registry.file s.calls ledger
  mounts : ∃ ledger, Destroying s.registry.mount s.calls ledger
  count : ∀ owner, s.registry.childCount owner = UInt32.ofNat (s.outstanding owner)
  childless : ∀ owner, ∀ call ∈ s.calls, call.destroys owner = true → s.outstanding owner = 0

variable {s s' : AbiState} {i : Nat} {call call' : AbiCall} {r' : HandleRegistry}

/-- One call goes on: what it is counted for and what the table holds moves. -/
theorem outstanding_set (r' : HandleRegistry) (call' : AbiCall) (hi : s.calls[i]? = some call)
    (owner : Nat) :
    (⟨r', s.calls.set i call'⟩ : AbiState).outstanding owner +
        ((call.countedFor owner).toNat +
          s.registry.file.liveCount fun holder => holder.parentOwner == owner)
      = s.outstanding owner + ((call'.countedFor owner).toNat +
          r'.file.liveCount fun holder => holder.parentOwner == owner) := by
  have hcount := Lib.countP_set_add (b := call') (AbiCall.countedFor owner) hi
  simp only [outstanding]
  omega

theorem Sound.set (h : s.Sound)
    (hfiles : ∃ ledger, Pending r'.file (s.calls.set i call') ledger)
    (hmounts : ∃ ledger, Destroying r'.mount (s.calls.set i call') ledger)
    (hcount : ∀ owner, r'.childCount owner
      = UInt32.ofNat ((⟨r', s.calls.set i call'⟩ : AbiState).outstanding owner))
    (hless : ∀ owner, (⟨r', s.calls.set i call'⟩ : AbiState).outstanding owner
      ≤ s.outstanding owner ∨ ∀ call ∈ s.calls, call.destroys owner = false)
    (hnew : ∀ owner, call'.destroys owner = true →
      (⟨r', s.calls.set i call'⟩ : AbiState).outstanding owner = 0) :
    (⟨r', s.calls.set i call'⟩ : AbiState).Sound := by
  refine ⟨hfiles, hmounts, hcount, ?_⟩
  intro owner other hother hdestroys
  rcases List.mem_or_eq_of_mem_set hother with hold | rfl
  · rcases hless owner with hle | hnone
    · have hzero := h.childless owner other hold hdestroys
      omega
    · rw [hnone other hold] at hdestroys
      cases hdestroys
  · exact hnew owner hdestroys

/-- A step that moves no count. -/
theorem Sound.uncounted (h : s.Sound) (hi : s.calls[i]? = some call)
    (hfiles : ∃ ledger, Pending r'.file (s.calls.set i call') ledger)
    (hmounts : ∃ ledger, Destroying r'.mount (s.calls.set i call') ledger)
    (hcounts : r'.childCount = s.registry.childCount)
    (hmoves : ∀ owner, (call.countedFor owner).toNat +
        s.registry.file.liveCount (fun holder => holder.parentOwner == owner)
      = (call'.countedFor owner).toNat +
        r'.file.liveCount fun holder => holder.parentOwner == owner)
    (hnew : ∀ owner, call'.destroys owner = true → s.outstanding owner = 0) :
    (⟨r', s.calls.set i call'⟩ : AbiState).Sound := by
  have hsame : ∀ owner, (⟨r', s.calls.set i call'⟩ : AbiState).outstanding owner
      = s.outstanding owner := by
    intro owner
    have hout := outstanding_set r' call' hi owner
    have hmove := hmoves owner
    omega
  refine h.set hfiles hmounts ?_ ?_ ?_
  · intro owner
    rw [hsame, hcounts]
    exact h.count owner
  · intro owner
    exact Or.inl (Nat.le_of_eq (hsame owner))
  · intro owner hd
    rw [hsame]
    exact hnew owner hd

/-! ## One step of a call -/

/-- The registry stays as it is. -/
theorem Sound.still (h : s.Sound) (hi : s.calls[i]? = some call)
    (hreserves : call'.reserves = call.reserves)
    (hmounts : ∃ ledger, Destroying s.registry.mount (s.calls.set i call') ledger)
    (hcounted : ∀ owner, call'.countedFor owner = call.countedFor owner)
    (hnew : ∀ owner, call'.destroys owner = true → s.outstanding owner = 0) :
    (⟨s.registry, s.calls.set i call'⟩ : AbiState).Sound := by
  obtain ⟨ledger, hpending⟩ := h.files
  refine h.uncounted hi ⟨ledger, hpending.same hi hreserves⟩ hmounts rfl ?_ hnew
  intro owner
  rw [hcounted]

/-- A call that goes on without the mounts. -/
theorem Sound.mounts_same (h : s.Sound) (hi : s.calls[i]? = some call)
    (hcall : call'.destroying = none ∨ call'.destroying = call.destroying) :
    ∃ ledger, Destroying s.registry.mount (s.calls.set i call') ledger := by
  obtain ⟨ledger, hd⟩ := h.mounts
  exact ⟨ledger, hd.same hi hcall⟩

/-- A handle of the mount table that resolves is live. -/
theorem Sound.mounts_resolved (h : s.Sound) {handle : UInt64} {owner : Nat}
    (hres : s.registry.mount.resolve kMagicLayerMount handle = some owner) :
    ∃ ledger, Destroying s.registry.mount
      (s.calls.set i (.destroyResolved handle owner)) ledger := by
  obtain ⟨ledger, hd⟩ := h.mounts
  refine ⟨ledger, hd.set hd.agrees (fun _ _ hlive => Or.inl hlive) (fun _ hdead => hdead) ?_⟩
  intro handle' owner' hcall
  simp only [AbiCall.destroying, Option.some.injEq, Prod.mk.injEq] at hcall
  obtain ⟨rfl, rfl⟩ := hcall
  exact Or.inl ((resolve_eq_some_iff hd.agrees).mp hres)

theorem Sound.reserveFile (h : s.Sound) {owner : Nat} (chance : Chance)
    (hi : s.calls[i]? = some (.openResolved owner)) :
    (⟨(s.registry.reserveFile chance owner).1,
      s.calls.set i (s.registry.reserveFile chance owner).2⟩ : AbiState).Sound := by
  obtain ⟨ledger, hpending⟩ := h.files
  have hagrees := step_agrees hpending.agrees (.reserve chance.memory)
  simp only [Abi.step] at hagrees
  have hlive : ∀ P, (s.registry.file.reserve kMagicFile chance.memory).2.liveCount P
      = s.registry.file.liveCount P := fun _ => HandleTable.liveCount_reserve
  unfold HandleRegistry.reserveFile
  split
  · exact h.still hi rfl (h.mounts_same hi (Or.inl rfl)) (fun _ => rfl) (by simp [AbiCall.destroys])
  · cases hres : s.registry.file.reserve kMagicFile chance.memory with
    | mk reserved file =>
      rw [hres] at hagrees hlive
      cases reserved with
      | none =>
        refine h.uncounted hi ⟨ledger, hpending.set hi hagrees ?_ ?_⟩
          (h.mounts_same hi (Or.inl rfl)) rfl ?_ (by simp [AbiCall.destroys])
        · intro v hv _
          exact hv
        · intro v hv
          cases hv
        · intro o
          rw [hlive]
          rfl
      | some v =>
        dsimp only
        split
        · rename_i hzero
          subst hzero
          refine h.uncounted hi ⟨ledger, hpending.set hi hagrees ?_ ?_⟩
            (h.mounts_same hi (Or.inl rfl)) rfl ?_ (by simp [AbiCall.destroys])
          · intro v hv _
            exact hv
          · intro v hv
            cases hv
          · intro o
            rw [hlive]
            rfl
        · rename_i hne
          -- the new value is in no earlier entry of the ledger
          have hissued : Ledger.record ledger (.reserve chance.memory) (.ofValue (some v))
              = ledger ++ [(v, .reserved)] := by
            simp only [Answer.ofValue, Ledger.record, Ledger.issue, hne, if_false]
          rw [hissued] at hagrees
          have hfresh : v ∉ ledger.values := by
            have hnodup := hagrees.values_nodup
            simp only [Ledger.values, List.map_append, List.map_cons, List.map_nil] at hnodup
            intro hmem
            exact List.disjoint_of_nodup_append hnodup hmem (List.mem_singleton.mpr rfl)
          refine h.uncounted hi ⟨_, hpending.set hi hagrees ?_ ?_⟩
            (h.mounts_same hi (Or.inl rfl)) rfl ?_ (by simp [AbiCall.destroys])
          · intro w hw _
            exact List.mem_append_left _ hw
          · intro w hw
            simp only [AbiCall.reserves, Option.some.injEq] at hw
            subst hw
            exact ⟨List.mem_append_right _ (List.mem_singleton.mpr rfl), Or.inr hfresh⟩
          · intro o
            rw [hlive]
            rfl

theorem Sound.releaseFile (h : s.Sound) {v : UInt64} (mem : Memory)
    (hi : s.calls[i]? = some (.openFailed v)) :
    (⟨{ s.registry with file := s.registry.file.release kMagicFile mem v },
      s.calls.set i (.returned .engine)⟩ : AbiState).Sound := by
  obtain ⟨ledger, hpending⟩ := h.files
  refine h.uncounted hi ⟨_, hpending.set hi hpending.agrees.release ?_ ?_⟩
    (h.mounts_same hi (Or.inl rfl)) rfl ?_ (by simp [AbiCall.destroys])
  · intro w hw hne
    refine Ledger.mem_update.mpr (Or.inl ⟨?_, hw⟩)
    intro heq
    exact hne (congrArg some heq.symm)
  · intro w hw
    cases hw
  · intro owner
    rw [HandleTable.liveCount_release]
    rfl

theorem Sound.installFile (h : s.Sound) {owner : Nat} {v : UInt64}
    (hi : s.calls[i]? = some (.openCounted owner v)) :
    (⟨{ s.registry with file := (s.registry.file.install kMagicFile v (some ⟨owner⟩)).2 },
      s.calls.set i (.returned .ok)⟩ : AbiState).Sound := by
  obtain ⟨ledger, hpending⟩ := h.files
  have hmem := hpending.held i _ v hi rfl
  have hinstall := fun P =>
    HandleTable.liveCount_install (P := P) hpending.agrees hmem (⟨owner⟩ : FileHolder)
  have hagrees := hpending.agrees.install (v := v) (some (⟨owner⟩ : FileHolder))
  rw [(hinstall fun _ => true).1] at hagrees
  simp only [Ledger.record] at hagrees
  refine h.uncounted hi ⟨_, hpending.set hi hagrees ?_ ?_⟩
    (h.mounts_same hi (Or.inl rfl)) rfl ?_ (by simp [AbiCall.destroys])
  · intro w hw hne
    refine Ledger.mem_update.mpr (Or.inl ⟨?_, hw⟩)
    intro heq
    exact hne (congrArg some heq.symm)
  · intro w hw
    cases hw
  · intro o
    dsimp only
    rw [(hinstall _).2]
    simp only [AbiCall.countedFor, Bool.toNat_false]
    omega

theorem Sound.freeFile (h : s.Sound) {v : UInt64} (chance : Chance)
    (hi : s.calls[i]? = some (.closeEntered v)) :
    (⟨(s.registry.freeFile chance v).1,
      s.calls.set i (s.registry.freeFile chance v).2⟩ : AbiState).Sound := by
  obtain ⟨ledger, hpending⟩ := h.files
  have hagrees := step_agrees hpending.agrees (.free v chance.memory)
  simp only [Abi.step] at hagrees
  have hcases := fun P => HandleTable.free_cases P chance.memory v hpending.agrees
  unfold HandleRegistry.freeFile
  cases hfree : s.registry.file.free kMagicFile chance.memory v with
  | mk freed file =>
    rw [hfree] at hagrees hcases
    cases freed with
    | none =>
      have hsame : file = s.registry.file := by
        rcases hcases fun _ => true with heq | ⟨p, -, hp, -⟩
        · exact (Prod.mk.inj heq).2
        · cases hp
      subst hsame
      exact h.still hi rfl (h.mounts_same hi (Or.inl rfl)) (fun _ => rfl)
        (by simp [AbiCall.destroys])
    | some holder =>
      have hlive : ∀ P, (v, .live holder) ∈ ledger ∧
          file.liveCount P + (P holder).toNat = s.registry.file.liveCount P := by
        intro P
        rcases hcases P with heq | ⟨p, hmem, hp, hcount⟩
        · cases (Prod.mk.inj heq).1
        · cases hp
          exact ⟨hmem, hcount⟩
      simp only [Ledger.record] at hagrees
      refine h.uncounted hi ⟨_, hpending.set hi hagrees ?_ ?_⟩
        (h.mounts_same hi (Or.inl rfl)) rfl ?_ (by simp [AbiCall.destroys])
      · intro w hw _
        refine Ledger.mem_update.mpr (Or.inl ⟨?_, hw⟩)
        intro heq
        subst heq
        cases Ledger.status_unique hpending.agrees.values_nodup hw (hlive fun _ => true).1
      · intro w hw
        cases hw
      · intro o
        have hcount := (hlive fun holder => holder.parentOwner == o).2
        simp only [AbiCall.countedFor, Bool.toNat_false]
        omega

theorem Sound.freeMount (h : s.Sound) {handle : UInt64} {owner : Nat} (chance : Chance)
    (hi : s.calls[i]? = some (.destroyChildless handle owner)) :
    (⟨(s.registry.freeMount chance handle).1,
      s.calls.set i (s.registry.freeMount chance handle).2⟩ : AbiState).Sound := by
  obtain ⟨ledger, hpending⟩ := h.files
  obtain ⟨mledger, hd⟩ := h.mounts
  have hmem := List.mem_of_getElem? hi
  have hagrees := step_agrees hd.agrees (.free handle chance.memory)
  simp only [Abi.step] at hagrees
  have hcases := HandleTable.free_cases (fun _ => true) chance.memory handle hd.agrees
  unfold HandleRegistry.freeMount
  cases hfree : s.registry.mount.free kMagicLayerMount chance.memory handle with
  | mk freed mount =>
    rw [hfree] at hagrees hcases
    cases freed with
    | none =>
      refine h.uncounted hi ⟨ledger, hpending.same hi rfl⟩
        ⟨mledger, hd.set hagrees (fun _ _ hlive => Or.inl hlive) (fun _ hdead => hdead) ?_⟩
        rfl (fun _ => rfl) (by simp [AbiCall.destroys])
      intro handle' owner' hcall
      cases hcall
    | some freed =>
      have hlive : (handle, .live freed) ∈ mledger := by
        rcases hcases with heq | ⟨p, hp, hfreed, -⟩
        · cases (Prod.mk.inj heq).1
        · cases hfreed
          exact hp
      -- the mount that is freed is the one whose count was read
      have howner : freed = owner := by
        rcases hd.known _ hmem handle owner rfl with hknown | hdead
        · have heq := Ledger.status_unique hd.agrees.values_nodup hlive hknown
          cases heq
          rfl
        · cases Ledger.status_unique hd.agrees.values_nodup hlive hdead
      subst howner
      simp only [Ledger.record] at hagrees
      refine h.uncounted hi ⟨ledger, hpending.same hi rfl⟩ ⟨_, hd.set hagrees ?_ ?_ ?_⟩
        rfl (fun _ => rfl) ?_
      · intro handle' owner' hmem'
        by_cases heq : handle' = handle
        · subst heq
          exact Or.inr (Ledger.mem_update.mpr (Or.inr ⟨rfl, _, hmem', rfl⟩))
        · exact Or.inl (Ledger.mem_update.mpr (Or.inl ⟨heq, hmem'⟩))
      · intro handle' hmem'
        by_cases heq : handle' = handle
        · subst heq
          exact Ledger.mem_update.mpr (Or.inr ⟨rfl, _, hmem', rfl⟩)
        · exact Ledger.mem_update.mpr (Or.inl ⟨heq, hmem'⟩)
      · intro handle' owner' hcall
        cases hcall
      · intro o ho
        exact h.childless o _ hmem ho

theorem childCount_setCount_self (r : HandleRegistry) (owner : Nat) (count : UInt32) :
    (r.setCount owner count).childCount owner = count :=
  Function.update_self _ _ _

theorem childCount_setCount_of_ne (r : HandleRegistry) {owner o : Nat} (count : UInt32)
    (h : o ≠ owner) : (r.setCount owner count).childCount o = r.childCount o :=
  Function.update_of_ne h _ _

/-- The count up of an open whose mount no destroy has found childless. -/
theorem Sound.countUp (h : s.Sound) {owner : Nat} {v : UInt64}
    (hi : s.calls[i]? = some (.openSucceeded owner v))
    (htime : ∀ call ∈ s.calls, call.destroys owner = false) :
    (⟨s.registry.setCount owner (s.registry.childCount owner + 1),
      s.calls.set i (.openCounted owner v)⟩ : AbiState).Sound := by
  obtain ⟨ledger, hpending⟩ := h.files
  have hout : ∀ o, (⟨s.registry.setCount owner (s.registry.childCount owner + 1),
      s.calls.set i (.openCounted owner v)⟩ : AbiState).outstanding o
        = s.outstanding o + (owner == o).toNat := by
    intro o
    have hset := outstanding_set (s.registry.setCount owner (s.registry.childCount owner + 1))
      (.openCounted owner v) hi o
    simp only [HandleRegistry.setCount, AbiCall.countedFor, Bool.toNat_false] at hset ⊢
    omega
  refine h.set ⟨ledger, hpending.same hi rfl⟩ (h.mounts_same hi (Or.inl rfl)) ?_ ?_
    (by simp [AbiCall.destroys])
  · intro o
    rw [hout, UInt32.ofNat_add, ← h.count]
    by_cases heq : o = owner
    · subst heq
      rw [childCount_setCount_self, beq_self_eq_true]
      rfl
    · rw [childCount_setCount_of_ne _ _ heq, beq_false_of_ne (Ne.symm heq)]
      simp
  · intro o
    by_cases heq : o = owner
    · subst heq
      exact Or.inr htime
    · left
      rw [hout, beq_false_of_ne (Ne.symm heq)]
      simp

/-- The count down of a close. -/
theorem Sound.countDown (h : s.Sound) {holder : FileHolder}
    (hi : s.calls[i]? = some (.closeClosed holder)) :
    (⟨s.registry.setCount holder.parentOwner (s.registry.childCount holder.parentOwner - 1),
      s.calls.set i (.returned .ok)⟩ : AbiState).Sound := by
  obtain ⟨ledger, hpending⟩ := h.files
  have hout : ∀ o, (⟨s.registry.setCount holder.parentOwner
      (s.registry.childCount holder.parentOwner - 1),
      s.calls.set i (.returned .ok)⟩ : AbiState).outstanding o +
        (holder.parentOwner == o).toNat = s.outstanding o := by
    intro o
    have hset := outstanding_set (s.registry.setCount holder.parentOwner
      (s.registry.childCount holder.parentOwner - 1)) (.returned .ok) hi o
    simp only [HandleRegistry.setCount, AbiCall.countedFor, Bool.toNat_false] at hset ⊢
    omega
  refine h.set ⟨ledger, hpending.same hi rfl⟩ (h.mounts_same hi (Or.inl rfl)) ?_ ?_
    (by simp [AbiCall.destroys])
  · intro o
    have hcount := h.count o
    rw [← hout o, UInt32.ofNat_add] at hcount
    by_cases heq : o = holder.parentOwner
    · subst heq
      rw [beq_self_eq_true] at hcount
      rw [childCount_setCount_self, hcount]
      exact UInt32.add_sub_cancel _ _
    · rw [childCount_setCount_of_ne _ _ heq, hcount, beq_false_of_ne (Ne.symm heq)]
      simp
  · intro o
    left
    have hle := hout o
    omega

theorem Sound.advance (h : s.Sound) {chance : Chance} (hi : s.calls[i]? = some call)
    (hadv : s.registry.advance chance call = some (r', call'))
    (htime : s.InTime (.advance i chance)) :
    (⟨r', s.calls.set i call'⟩ : AbiState).Sound := by
  simp only [InTime, hi] at htime
  cases call with
  | openEntered handle =>
    simp only [HandleRegistry.advance] at hadv
    split at hadv <;> cases hadv <;>
      exact h.still hi rfl (h.mounts_same hi (Or.inl rfl)) (fun _ => rfl)
        (by simp [AbiCall.destroys])
  | openResolved owner =>
    have hnext : s.registry.reserveFile chance owner = (r', call') := Option.some.inj hadv
    have hsound := h.reserveFile chance hi
    rw [hnext] at hsound
    exact hsound
  | openReserved owner reserved =>
    simp only [HandleRegistry.advance] at hadv
    split at hadv <;> cases hadv <;>
      exact h.still hi rfl (h.mounts_same hi (Or.inl rfl)) (fun _ => rfl)
        (by simp [AbiCall.destroys])
  | openFailed reserved =>
    cases hadv
    exact h.releaseFile chance.memory hi
  | openSucceeded owner reserved =>
    cases hadv
    exact h.countUp hi htime
  | openCounted owner reserved =>
    cases hadv
    exact h.installFile hi
  | closeEntered file =>
    have hnext : s.registry.freeFile chance file = (r', call') := Option.some.inj hadv
    have hsound := h.freeFile chance hi
    rw [hnext] at hsound
    exact hsound
  | closeFreed holder =>
    cases hadv
    exact h.still hi rfl (h.mounts_same hi (Or.inl rfl)) (fun _ => rfl)
      (by simp [AbiCall.destroys])
  | closeClosed holder =>
    cases hadv
    exact h.countDown hi
  | destroyEntered handle =>
    simp only [HandleRegistry.advance] at hadv
    split at hadv
    · cases hadv
      exact h.still hi rfl (h.mounts_same hi (Or.inl rfl)) (fun _ => rfl)
        (by simp [AbiCall.destroys])
    · rename_i owner hres
      cases hadv
      exact h.still hi rfl (h.mounts_resolved hres) (fun _ => rfl) (by simp [AbiCall.destroys])
  | destroyResolved handle owner =>
    simp only [HandleRegistry.advance] at hadv
    split at hadv <;> cases hadv
    · exact h.still hi rfl (h.mounts_same hi (Or.inl rfl)) (fun _ => rfl)
        (by simp [AbiCall.destroys])
    · exact h.still hi rfl (h.mounts_same hi (Or.inr rfl)) (fun _ => rfl)
        (by simp [AbiCall.destroys])
  | destroyDetached handle owner =>
    simp only [HandleRegistry.advance] at hadv
    split at hadv <;> cases hadv
    · exact h.still hi rfl (h.mounts_same hi (Or.inl rfl)) (fun _ => rfl)
        (by simp [AbiCall.destroys])
    · rename_i hzero
      refine h.still hi rfl (h.mounts_same hi (Or.inr rfl)) (fun _ => rfl) ?_
      intro o ho
      simp only [AbiCall.destroys, beq_iff_eq] at ho
      subst ho
      -- the count did not wrap, so a zero says that there are no children
      have hcount := h.count owner
      rw [Decidable.not_not.mp hzero] at hcount
      have hnat := congrArg UInt32.toNat hcount
      rw [UInt32.toNat_ofNat_of_lt' htime] at hnat
      exact hnat.symm
  | destroyChildless handle owner =>
    have hnext : s.registry.freeMount chance handle = (r', call') := Option.some.inj hadv
    have hsound := h.freeMount chance hi
    rw [hnext] at hsound
    exact hsound
  | destroyed owner => cases hadv
  | returned result => cases hadv

/-- A new mount leaves the other entries of the ledger as they are. -/
theorem mem_record_allocate {ledger : Ledger Nat} {e : UInt64 × Status Nat} (h : e ∈ ledger)
    (payload : Option Nat) (mem : Memory) (value : Option UInt64) :
    e ∈ ledger.record (.allocate payload mem) (.ofValue value) := by
  cases payload with
  | none => exact h
  | some p =>
    cases value with
    | none => exact h
    | some v =>
      simp only [Answer.ofValue, Ledger.record, Ledger.issue]
      split
      · exact h
      · exact List.mem_append_left _ h

/-- A call that has just begun holds nothing. -/
theorem entry_holds_no_handle (entry : AbiEntry) :
    entry.call.reserves = none ∧ entry.call.destroying = none ∧
      (∀ owner, entry.call.countedFor owner = false) ∧
      ∀ owner, entry.call.destroys owner = false := by
  cases entry <;> exact ⟨rfl, rfl, fun _ => rfl, fun _ => rfl⟩

theorem Sound.start (h : s.Sound) (entry : AbiEntry) :
    ({ s with calls := s.calls ++ [entry.call] } : AbiState).Sound := by
  obtain ⟨ledger, hpending⟩ := h.files
  obtain ⟨mledger, hd⟩ := h.mounts
  obtain ⟨hreserves, hdestroying, hcounted, hdestroys⟩ := entry_holds_no_handle entry
  have hsame : ∀ owner, ({ s with calls := s.calls ++ [entry.call] } : AbiState).outstanding owner
      = s.outstanding owner := by
    intro owner
    simp only [outstanding, Lib.countP_append_one, hcounted, Bool.toNat_false, Nat.add_zero]
  refine ⟨⟨ledger, hpending.agrees, ?_, ?_⟩, ⟨mledger, hd.agrees, ?_⟩, ?_, ?_⟩
  · intro i call v hi hv
    rcases Lib.of_getElem?_append_one hi with ⟨-, rfl⟩ | hold
    · rw [hreserves] at hv
      cases hv
    · exact hpending.held i call v hold hv
  · intro i j call call' v hi hj hv hv'
    rcases Lib.of_getElem?_append_one hi with ⟨-, rfl⟩ | hold
    · rw [hreserves] at hv
      cases hv
    · rcases Lib.of_getElem?_append_one hj with ⟨-, rfl⟩ | hold'
      · rw [hreserves] at hv'
        cases hv'
      · exact hpending.apart i j call call' v hold hold' hv hv'
  · intro call hcall handle owner hcd
    rcases List.mem_append.mp hcall with hold | hnew
    · exact hd.known call hold handle owner hcd
    · rw [List.mem_singleton.mp hnew, hdestroying] at hcd
      cases hcd
  · intro owner
    rw [hsame]
    exact h.count owner
  · intro owner call hcall hcd
    rw [hsame]
    rcases List.mem_append.mp hcall with hold | hnew
    · exact h.childless owner call hold hcd
    · rw [List.mem_singleton.mp hnew, hdestroys] at hcd
      cases hcd

theorem Sound.step (h : s.Sound) {a : AbiAction} (hstep : s.step a = some s')
    (htime : s.InTime a) : s'.Sound := by
  cases a with
  | create memory =>
    cases hstep
    obtain ⟨ledger, hd⟩ := h.mounts
    have hagrees := step_agrees hd.agrees (.allocate (some s.registry.nextHolder) memory)
    refine ⟨h.files, ⟨_, hagrees, ?_⟩, h.count, h.childless⟩
    intro call hcall handle owner hcd
    rcases hd.known call hcall handle owner hcd with hlive | hdead
    · exact Or.inl (mem_record_allocate hlive _ _ _)
    · exact Or.inr (mem_record_allocate hdead _ _ _)
  | setHostAttached owner attached =>
    cases hstep
    exact ⟨h.files, h.mounts, h.count, h.childless⟩
  | start entry =>
    cases hstep
    exact h.start entry
  | advance i chance =>
    simp only [AbiState.step] at hstep
    cases hi : s.calls[i]? with
    | none => simp only [hi] at hstep; cases hstep
    | some call =>
      simp only [hi] at hstep
      cases hadv : s.registry.advance chance call with
      | none => simp only [hadv] at hstep; cases hstep
      | some next =>
        simp only [hadv, Option.some.injEq] at hstep
        subst hstep
        exact h.advance hi hadv htime

theorem sound_initial : ({} : AbiState).Sound := by
  refine ⟨⟨[], HandleTable.agrees_new _, ?_, ?_⟩, ⟨[], HandleTable.agrees_new _, ?_⟩, ?_, ?_⟩
  · simp
  · simp
  · simp
  · intro owner
    rfl
  · simp

end AbiState

/-- In every run in which no open counts up once a destroy of its mount has read zero:
after `LayerMountDestroy` has returned `S_OK` for a mount, no file handle of that mount
resolves. -/
theorem no_file_of_destroyed {s : AbiState}
    (hrun : Relation.ReflTransGen AbiState.NextInTime {} s) : s.NoOrphan := by
  have hsound : s.Sound := by
    refine Lib.run_keeps ?_ hrun AbiState.sound_initial
    rintro m m' ⟨a, hstep, htime⟩ hm
    exact hm.step hstep htime
  intro owner hdestroyed v holder hres howner
  have hzero := hsound.childless owner _ hdestroyed (by simp [AbiCall.destroys])
  have hpos := HandleTable.liveCount_pos_of_resolve
    (P := fun holder => holder.parentOwner == owner) hres (by simp [howner])
  simp only [AbiState.outstanding] at hzero
  omega

/-! ## Two runs -/

/-- The handle of the first mount and of the first file. -/
def firstMount : UInt64 := encode kMagicLayerMount 1 1
def firstFile : UInt64 := encode kMagicFile 1 1

/-- What a run shows of a state. -/
def AbiState.shows (s : AbiState) : List AbiCall × Option FileHolder :=
  (s.calls, s.registry.file.resolve kMagicFile firstFile)

/-- The state at the end of a schedule, when a computation shows what is in it. -/
theorem exists_of_shows (ok : AbiState → AbiAction → Bool) (as : List AbiAction)
    (seen : List AbiCall × Option FileHolder)
    (h : (Lib.runWhile AbiState.step ok as {}).map AbiState.shows = some seen) :
    ∃ s : AbiState, Relation.ReflTransGen
        (fun s s' => ∃ a, s.step a = some s' ∧ ok s a = true) {} s ∧ s.shows = seen := by
  obtain ⟨s, hrun, hseen⟩ := Option.map_eq_some_iff.mp h
  exact ⟨s, Lib.reaches_of_runWhile hrun, hseen⟩

/-- A file is opened and closed, then its mount is destroyed. -/
def orderlySchedule : List AbiAction :=
  [.create {}, .start (.openFile firstMount)] ++ List.replicate 5 (.advance 0 {}) ++
    [.start (.closeFile firstFile)] ++ List.replicate 3 (.advance 1 {}) ++
    [.start (.destroy firstMount)] ++ List.replicate 4 (.advance 2 {})

/-- The file is closed before its mount is destroyed. -/
theorem no_file_of_destroyed_orderly :
    ∃ s : AbiState, Relation.ReflTransGen AbiState.NextInTime {} s ∧
      .destroyed 0 ∈ s.calls ∧ s.NoOrphan := by
  obtain ⟨s, hrun, hseen⟩ := exists_of_shows (fun s a => decide (s.InTime a))
    orderlySchedule ([.returned .ok, .returned .ok, .destroyed 0], none) (by decide +kernel)
  have hrun' : Relation.ReflTransGen AbiState.NextInTime {} s := by
    refine Relation.ReflTransGen.mono ?_ _ _ hrun
    rintro m m' ⟨a, hstep, htime⟩
    exact ⟨a, hstep, of_decide_eq_true htime⟩
  refine ⟨s, hrun', ?_, no_file_of_destroyed hrun'⟩
  have hcalls : s.calls = [.returned .ok, .returned .ok, .destroyed 0] :=
    congrArg Prod.fst hseen
  simp [hcalls]

/-- An open has resolved its mount.  A destroy finds the mount childless and frees it, and
then the open goes on to its end. -/
def overtakingSchedule : List AbiAction :=
  [.create {}, .start (.openFile firstMount), .advance 0 {},
    .start (.destroy firstMount)] ++ List.replicate 4 (.advance 1 {}) ++
    List.replicate 4 (.advance 0 {})

/-- The file handle of a destroyed mount resolves. -/
theorem destroy_outruns_open :
    ¬∀ s : AbiState, Relation.ReflTransGen AbiState.Next {} s → s.NoOrphan := by
  intro hall
  obtain ⟨s, hrun, hseen⟩ := exists_of_shows (fun _ _ => true)
    overtakingSchedule ([.returned .ok, .destroyed 0], some ⟨0⟩) (by decide +kernel)
  have hrun' : Relation.ReflTransGen AbiState.Next {} s := by
    refine Relation.ReflTransGen.mono ?_ _ _ hrun
    rintro m m' ⟨a, hstep, -⟩
    exact ⟨a, hstep⟩
  have hcalls : s.calls = [.returned .ok, .destroyed 0] := congrArg Prod.fst hseen
  exact hall s hrun' 0 (by simp [hcalls]) firstFile ⟨0⟩ (congrArg Prod.snd hseen) rfl

end LayerMount.Abi
