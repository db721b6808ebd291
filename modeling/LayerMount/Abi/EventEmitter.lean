import LayerMount.Lib.Interleaving

/-!
# The event callback and its draining

`abi/EventEmitter.h` owns one callback slot.  `Set` writes it and `Clear` empties it
under the exclusive lock.  `Emit` reads it and counts itself in flight under the shared
lock, and runs the callback after it has released the lock.  `Clear` then polls the
counter, without a lock, until it reads zero.

A call is a small machine: `EmitterCall` says where it is and `advance` is its next
access to the mutex, to the slot or to the counter.  `Emitting.step` starts a call or
advances one, and a run is any sequence of such steps, so it is any interleaving of any
number of calls.  A callback that calls `Set` or `Emit` is covered: the inner call is one
more call.

The counter is a `std::uint32_t`.  `clear_drains` is the promise in the comment of
`Clear`, and it needs that the counter did not wrap: with `2 ^ 32` calls in flight `Clear`
reads zero and returns (`clear_returns_over_crowd`).
-/

namespace LayerMount.Abi

/-! ## The emitter and its calls -/

/-- `F` are the callbacks and `C` the contexts other than the null pointer.  `exclusive`
and `shared` are the state of the `std::shared_mutex`. -/
structure EventEmitter (F C : Type) where
  exclusive : Bool := false
  shared : Nat := 0
  callback : Option F := none
  userContext : Option C := none
  inflight : UInt32 := 0
  deriving DecidableEq, Repr

/-- Where a call of `Set`, `Clear` or `Emit` is. -/
inductive EmitterCall (F C : Type) where
  | setWaits (callback : Option F) (userContext : Option C)
  | setLocked (callback : Option F) (userContext : Option C)
  | setHalf (callback : Option F) (userContext : Option C)
  | setDone (callback : Option F) (userContext : Option C)
  | clearWaits
  | clearLocked
  | clearHalf
  | clearDone
  | draining
  | emitWaits
  | emitLocked
  | emitHalf (cb : Option F)
  | emitRead (cb : Option F) (ctx : Option C)
  | emitCounted (cb : F) (ctx : Option C)
  | pinned (cb : F) (ctx : Option C)
  | running (cb : F) (ctx : Option C)
  | ran
  | returned
  deriving DecidableEq, Repr

variable {F C : Type}

/-- The next access of a call.  `none` is a call that waits for the mutex, or that has
returned. -/
def EventEmitter.advance (em : EventEmitter F C) :
    EmitterCall F C → Option (EventEmitter F C × EmitterCall F C)
  -- `Set`: two writes under the exclusive lock
  | .setWaits callback userContext =>
    if em.exclusive || em.shared != 0 then none
    else some ({ em with exclusive := true }, .setLocked callback userContext)
  | .setLocked callback userContext =>
    some ({ em with callback := callback }, .setHalf callback userContext)
  | .setHalf callback userContext =>
    some ({ em with userContext := userContext }, .setDone callback userContext)
  | .setDone _ _ => some ({ em with exclusive := false }, .returned)
  -- `Clear`: the same writes with null pointers, then the poll
  | .clearWaits =>
    if em.exclusive || em.shared != 0 then none
    else some ({ em with exclusive := true }, .clearLocked)
  | .clearLocked => some ({ em with callback := none }, .clearHalf)
  | .clearHalf => some ({ em with userContext := none }, .clearDone)
  | .clearDone => some ({ em with exclusive := false }, .draining)
  | .draining => if em.inflight ≠ 0 then some (em, .draining) else some (em, .returned)
  -- `Emit`: two reads and the count under the shared lock, then the callback
  | .emitWaits =>
    if em.exclusive then none else some ({ em with shared := em.shared + 1 }, .emitLocked)
  | .emitLocked => some (em, .emitHalf em.callback)
  | .emitHalf cb => some (em, .emitRead cb em.userContext)
  | .emitRead none _ => some ({ em with shared := em.shared - 1 }, .returned)
  | .emitRead (some cb) ctx =>
    some ({ em with inflight := em.inflight + 1 }, .emitCounted cb ctx)
  | .emitCounted cb ctx => some ({ em with shared := em.shared - 1 }, .pinned cb ctx)
  | .pinned cb ctx => some (em, .running cb ctx)
  | .running _ _ => some (em, .ran)
  | .ran => some ({ em with inflight := em.inflight - 1 }, .returned)
  | .returned => none

/-- The calls a caller can start. -/
inductive EmitterEntry (F C : Type) where
  | set (callback : Option F) (userContext : Option C)
  | clear
  | emit
  deriving DecidableEq, Repr

def EmitterEntry.call : EmitterEntry F C → EmitterCall F C
  | .set callback userContext => .setWaits callback userContext
  | .clear => .clearWaits
  | .emit => .emitWaits

/-- `LayerMountSetEventCallback`: a null callback uninstalls. -/
def setEventCallback (callback : Option F) (userContext : Option C) : EmitterEntry F C :=
  match callback with
  | none => .clear
  | some _ => .set callback userContext

/-! ## Runs -/

structure Emitting (F C : Type) where
  emitter : EventEmitter F C := {}
  /-- The calls in the order in which they began. -/
  calls : List (EmitterCall F C) := []
  deriving DecidableEq, Repr

inductive EmitterAction (F C : Type) where
  | start (entry : EmitterEntry F C)
  | advance (i : Nat)
  deriving DecidableEq, Repr

namespace Emitting

def step (s : Emitting F C) : EmitterAction F C → Option (Emitting F C)
  | .start entry => some { s with calls := s.calls ++ [entry.call] }
  | .advance i =>
    match s.calls[i]? with
    | none => none
    | some call =>
      match s.emitter.advance call with
      | none => none
      | some (emitter, call) => some ⟨emitter, s.calls.set i call⟩

/-- The pair that a step registers: a `Set` that gets the exclusive lock. -/
def registers (s : Emitting F C) : EmitterAction F C → Option (Option F × Option C)
  | .start _ => none
  | .advance i =>
    match s.calls[i]? with
    | some (.setWaits callback userContext) => some (callback, userContext)
    | _ => none

/-- Any step. -/
def Next (s s' : Emitting F C) : Prop := ∃ a, s.step a = some s'

/-- Any step but one that registers the callback `cb` with the context `ctx`. -/
def NextWithout (cb : F) (ctx : Option C) (s s' : Emitting F C) : Prop :=
  ∃ a, s.step a = some s' ∧ s.registers a ≠ some (some cb, ctx)

/-- A state that a run from the new emitter reaches. -/
def Reached (s : Emitting F C) : Prop := Relation.ReflTransGen Next {} s

end Emitting

namespace EmitterCall

@[simp] def holdsExclusive : EmitterCall F C → Bool
  | .setLocked _ _ | .setHalf _ _ | .setDone _ _ => true
  | .clearLocked | .clearHalf | .clearDone => true
  | _ => false

@[simp] def holdsShared : EmitterCall F C → Bool
  | .emitLocked | .emitHalf _ | .emitRead _ _ | .emitCounted _ _ => true
  | _ => false

/-- Between the `fetch_add` and the `fetch_sub` of `Emit`. -/
@[simp] def inFlight : EmitterCall F C → Bool
  | .emitCounted _ _ | .pinned _ _ | .running _ _ | .ran => true
  | _ => false

/-- The call runs the callback `cb` with the context `ctx`, or has read the pair and is
on its way to run it. -/
@[simp] def Invokes (cb : F) (ctx : Option C) : EmitterCall F C → Prop
  | .emitRead cb' ctx' => cb' = some cb ∧ ctx' = ctx
  | .emitCounted cb' ctx' | .pinned cb' ctx' | .running cb' ctx' => cb' = cb ∧ ctx' = ctx
  | _ => False

end EmitterCall

/-- The number of calls that are in flight. -/
def Emitting.inFlight (s : Emitting F C) : Nat := s.calls.countP EmitterCall.inFlight

/-! ## The invariant of every run -/

/-- What a call that holds the exclusive lock has written so far. -/
@[simp] def EmitterCall.Written (em : EventEmitter F C) : EmitterCall F C → Prop
  | .setHalf callback _ => em.callback = callback
  | .setDone callback userContext => em.callback = callback ∧ em.userContext = userContext
  | .clearHalf => em.callback = none
  | .clearDone => em.callback = none ∧ em.userContext = none
  | _ => True

/-- The mutex and the counter say what the calls hold. -/
structure Emitting.Sound (s : Emitting F C) : Prop where
  shared : s.emitter.shared = s.calls.countP EmitterCall.holdsShared
  inflight : s.emitter.inflight = UInt32.ofNat s.inFlight
  apart : s.emitter.exclusive = true → s.emitter.shared = 0
  writer : ∀ (i : Nat) (call : EmitterCall F C), s.calls[i]? = some call →
    call.holdsExclusive = true → s.emitter.exclusive = true
  alone : ∀ (i j : Nat) (call call' : EmitterCall F C), s.calls[i]? = some call →
    s.calls[j]? = some call' → call.holdsExclusive = true → call'.holdsExclusive = true → i = j
  written : ∀ (i : Nat) (call : EmitterCall F C), s.calls[i]? = some call → call.Written s.emitter

namespace Emitting

variable {s s' : Emitting F C}

/-- A step begins a call or advances one. -/
theorem step_cases {a : EmitterAction F C} (h : s.step a = some s') :
    (∃ entry, a = .start entry ∧ s' = { s with calls := s.calls ++ [entry.call] }) ∨
    ∃ i call em call', a = .advance i ∧ s.calls[i]? = some call ∧
      s.emitter.advance call = some (em, call') ∧ s' = ⟨em, s.calls.set i call'⟩ := by
  cases a with
  | start entry =>
    simp only [step, Option.some.injEq] at h
    exact Or.inl ⟨entry, rfl, h.symm⟩
  | advance i =>
    simp only [step] at h
    cases hi : s.calls[i]? with
    | none => simp only [hi] at h; cases h
    | some call =>
      simp only [hi] at h
      cases hadv : s.emitter.advance call with
      | none => simp only [hadv] at h; cases h
      | some next =>
        simp only [hadv, Option.some.injEq] at h
        exact Or.inr ⟨i, call, next.1, next.2, rfl, hi, hadv, h.symm⟩

/-- A call that has just begun holds nothing and has written nothing. -/
theorem entry_holds_nothing (entry : EmitterEntry F C) (em : EventEmitter F C) :
    entry.call.holdsShared = false ∧ entry.call.holdsExclusive = false ∧
      entry.call.inFlight = false ∧ entry.call.Written em := by
  cases entry <;> exact ⟨rfl, rfl, rfl, trivial⟩

theorem Sound.start (h : s.Sound) (entry : EmitterEntry F C) :
    ({ s with calls := s.calls ++ [entry.call] } : Emitting F C).Sound := by
  obtain ⟨hshared, hexclusive, hinflight, hwritten⟩ := entry_holds_nothing entry s.emitter
  refine ⟨?_, ?_, h.apart, ?_, ?_, ?_⟩
  · rw [Lib.countP_append_one, hshared]
    exact h.shared
  · rw [Emitting.inFlight, Lib.countP_append_one, hinflight]
    exact h.inflight
  · intro i call hi hcall
    rcases Lib.of_getElem?_append_one hi with ⟨-, rfl⟩ | hold
    · rw [hexclusive] at hcall
      cases hcall
    · exact h.writer i call hold hcall
  · intro i j call call' hi hj hcall hcall'
    rcases Lib.of_getElem?_append_one hi with ⟨-, rfl⟩ | hold
    · rw [hexclusive] at hcall
      cases hcall
    · rcases Lib.of_getElem?_append_one hj with ⟨-, rfl⟩ | hold'
      · rw [hexclusive] at hcall'
        cases hcall'
      · exact h.alone i j call call' hold hold' hcall hcall'
  · intro i call hi
    rcases Lib.of_getElem?_append_one hi with ⟨-, rfl⟩ | hold
    · exact hwritten
    · exact h.written i call hold

end Emitting

/-- What one access of a call does to the mutex, to the counter and to the slot. -/
structure Advanced (em : EventEmitter F C) (call : EmitterCall F C) (em' : EventEmitter F C)
    (call' : EmitterCall F C) : Prop where
  shared : em'.shared + call.holdsShared.toNat = em.shared + call'.holdsShared.toNat
  inflight : em'.inflight + UInt32.ofNat call.inFlight.toNat
    = em.inflight + UInt32.ofNat call'.inFlight.toNat
  apart : em'.exclusive = true → em'.shared = 0
  locked : call'.holdsExclusive = true → em'.exclusive = true
  taken : call'.holdsExclusive = true → call.holdsExclusive = true ∨ em.exclusive = false
  unlocked : em'.exclusive = false → em.exclusive = false ∨ call.holdsExclusive = true
  written : call'.Written em'
  slot : call.holdsExclusive = true ∨
    (em'.callback = em.callback ∧ em'.userContext = em.userContext)

theorem advanced {em em' : EventEmitter F C} {call call' : EmitterCall F C}
    (hadv : em.advance call = some (em', call'))
    (hshared : call.holdsShared = true → 0 < em.shared)
    (hexclusive : call.holdsExclusive = true → em.exclusive = true)
    (hapart : em.exclusive = true → em.shared = 0) (hwritten : call.Written em) :
    Advanced em call em' call' := by
  revert hadv
  fun_cases EventEmitter.advance em call <;> intro hadv <;> cases hadv <;> constructor <;>
    simp_all
  -- the two unlockings of the shared lock do not go below zero
  · omega
  · omega

/-- A call that holds the lock is alone with what it writes. -/
theorem EmitterCall.Written.of_slot {em em' : EventEmitter F C} {call : EmitterCall F C}
    (h : call.Written em)
    (hslot : em'.callback = em.callback ∧ em'.userContext = em.userContext) :
    call.Written em' := by
  cases call <;> simp_all

theorem EmitterCall.written_of_not_holdsExclusive (em : EventEmitter F C)
    {call : EmitterCall F C} (h : call.holdsExclusive = false) : call.Written em := by
  cases call <;> simp_all

namespace Emitting

variable {s s' : Emitting F C}

theorem Sound.advanced (h : s.Sound) {i : Nat} {call call' : EmitterCall F C}
    {em' : EventEmitter F C} (hi : s.calls[i]? = some call)
    (hadv : s.emitter.advance call = some (em', call')) : Advanced s.emitter call em' call' := by
  refine Abi.advanced hadv ?_ (h.writer i call hi) h.apart (h.written i call hi)
  intro hcall
  rw [h.shared]
  exact Lib.countP_pos_of_getElem? hi hcall

theorem Sound.advance (h : s.Sound) {i : Nat} {call call' : EmitterCall F C}
    {em' : EventEmitter F C} (hi : s.calls[i]? = some call)
    (hadv : s.emitter.advance call = some (em', call')) :
    (⟨em', s.calls.set i call'⟩ : Emitting F C).Sound := by
  have hnext := h.advanced hi hadv
  -- another call does not hold the lock when `call` takes it or has it
  have hother : ∀ (j : Nat) (other : EmitterCall F C), j ≠ i → s.calls[j]? = some other →
      call'.holdsExclusive = true ∨ call.holdsExclusive = true →
      other.holdsExclusive = false := by
    intro j other hne hj hheld
    rw [← Bool.not_eq_true]
    intro hexclusive
    have hlocked := h.writer j other hj hexclusive
    have hcall : call.holdsExclusive = true → False := by
      intro hcall
      exact hne (h.alone j i other call hj hi hexclusive hcall)
    rcases hheld with hheld | hheld
    · rcases hnext.taken hheld with hcall' | hfree
      · exact hcall hcall'
      · rw [hfree] at hlocked
        cases hlocked
    · exact hcall hheld
  refine ⟨?_, ?_, hnext.apart, ?_, ?_, ?_⟩
  · have hcount := Lib.countP_set_add (b := call') EmitterCall.holdsShared hi
    have hshared := hnext.shared
    have hold := h.shared
    show em'.shared = (s.calls.set i call').countP EmitterCall.holdsShared
    omega
  · have hcount := Lib.countP_set_add (b := call') EmitterCall.inFlight hi
    have hinflight := hnext.inflight
    rw [h.inflight, ← UInt32.ofNat_add] at hinflight
    show em'.inflight = UInt32.ofNat ((s.calls.set i call').countP EmitterCall.inFlight)
    apply (UInt32.add_left_inj (UInt32.ofNat call.inFlight.toNat)).mp
    rw [hinflight, ← UInt32.ofNat_add, hcount]
    rfl
  · intro j other hj hexclusive
    rcases Lib.of_getElem?_set hj with ⟨-, rfl⟩ | ⟨hne, hj⟩
    · exact hnext.locked hexclusive
    · rw [← Bool.not_eq_false]
      intro hfree
      have hlocked := h.writer j other hj hexclusive
      rcases hnext.unlocked hfree with hfree' | hcall
      · rw [hfree'] at hlocked
        cases hlocked
      · rw [hother j other hne hj (Or.inr hcall)] at hexclusive
        cases hexclusive
  · intro j k other other' hj hk hexclusive hexclusive'
    rcases Lib.of_getElem?_set hj with ⟨rfl, rfl⟩ | ⟨hne, hold⟩
    · rcases Lib.of_getElem?_set hk with ⟨rfl, rfl⟩ | ⟨hne', hold'⟩
      · rfl
      · rw [hother k other' hne' hold' (Or.inl hexclusive)] at hexclusive'
        cases hexclusive'
    · rcases Lib.of_getElem?_set hk with ⟨rfl, rfl⟩ | ⟨hne', hold'⟩
      · rw [hother j other hne hold (Or.inl hexclusive')] at hexclusive
        cases hexclusive
      · exact h.alone j k other other' hold hold' hexclusive hexclusive'
  · intro j other hj
    rcases Lib.of_getElem?_set hj with ⟨-, rfl⟩ | ⟨hne, hj⟩
    · exact hnext.written
    · rcases hnext.slot with hcall | hslot
      · exact EmitterCall.written_of_not_holdsExclusive _ (hother j other hne hj (Or.inr hcall))
      · exact (h.written j other hj).of_slot hslot

theorem Sound.step (h : s.Sound) {a : EmitterAction F C} (hstep : s.step a = some s') :
    s'.Sound := by
  rcases step_cases hstep with ⟨entry, -, rfl⟩ | ⟨i, call, em', call', -, hi, hadv, rfl⟩
  · exact h.start entry
  · exact h.advance hi hadv

theorem sound_new : ({} : Emitting F C).Sound := by
  constructor <;> simp [Emitting.inFlight]

theorem Reached.sound (h : s.Reached) : s.Sound :=
  Lib.run_keeps (fun _ _ hstep hs => hs.step hstep.choose_spec) h sound_new

/-- Nobody reads the slot while a call holds the exclusive lock. -/
theorem Sound.no_reader (h : s.Sound) (hlocked : s.emitter.exclusive = true)
    {call : EmitterCall F C} (hcall : call ∈ s.calls) : call.holdsShared = false := by
  have hzero : s.calls.countP EmitterCall.holdsShared = 0 := by
    rw [← h.shared]
    exact h.apart hlocked
  rw [← Bool.not_eq_true]
  exact List.countP_eq_zero.mp hzero call hcall

end Emitting

/-! ## A pair that is no longer registered -/

/-- The call is about to put the pair into the slot, or has read it from there and is not
past the shared lock. -/
@[simp] def EmitterCall.Brings (em : EventEmitter F C) (cb : F) (ctx : Option C) :
    EmitterCall F C → Prop
  | .setLocked cb' ctx' | .setHalf cb' ctx' | .setDone cb' ctx' => cb' = some cb ∧ ctx' = ctx
  | .emitHalf cb' => cb' = some cb ∧ em.userContext = ctx
  | .emitRead cb' ctx' => cb' = some cb ∧ ctx' = ctx
  | .emitCounted cb' ctx' => cb' = cb ∧ ctx' = ctx
  | _ => False

/-- The slot does not hold the pair, and no call is about to bring it. -/
structure Emitting.Unregistered (cb : F) (ctx : Option C) (s : Emitting F C) : Prop where
  slot : s.emitter.exclusive = false →
    ¬(s.emitter.callback = some cb ∧ s.emitter.userContext = ctx)
  calls : ∀ call ∈ s.calls, ¬call.Brings s.emitter cb ctx

/-- No call runs the pair or is on its way to run it. -/
def Emitting.Gone (cb : F) (ctx : Option C) (s : Emitting F C) : Prop :=
  ∀ call ∈ s.calls, ¬call.Invokes cb ctx

section Unregistered

variable {cb : F} {ctx : Option C}

/-- One access brings the pair back only if it registers it. -/
theorem advance_brings {em em' : EventEmitter F C} {call call' : EmitterCall F C}
    (hadv : em.advance call = some (em', call'))
    (hregisters : call ≠ .setWaits (some cb) ctx) (hbrings : ¬call.Brings em cb ctx)
    (hreads : call.holdsShared = true → ¬(em.callback = some cb ∧ em.userContext = ctx)) :
    ¬call'.Brings em' cb ctx := by
  revert hadv
  fun_cases EventEmitter.advance em call <;> intro hadv <;> cases hadv <;> simp_all

/-- One access leaves the pair in the slot only if it was there or was being brought. -/
theorem advance_slot {em em' : EventEmitter F C} {call call' : EmitterCall F C}
    (hadv : em.advance call = some (em', call')) (hwritten : call.Written em)
    (hlocked : call.holdsExclusive = true → em.exclusive = true)
    (hbrings : ¬call.Brings em cb ctx)
    (hslot : em.exclusive = false → ¬(em.callback = some cb ∧ em.userContext = ctx)) :
    em'.exclusive = false → ¬(em'.callback = some cb ∧ em'.userContext = ctx) := by
  revert hadv
  fun_cases EventEmitter.advance em call <;> intro hadv <;> cases hadv <;> simp_all

/-- A call comes to run the pair only from a call that brings it or runs it. -/
theorem advance_invokes {em em' : EventEmitter F C} {call call' : EmitterCall F C}
    (hadv : em.advance call = some (em', call')) (hbrings : ¬call.Brings em cb ctx)
    (hinvokes : ¬call.Invokes cb ctx) : ¬call'.Invokes cb ctx := by
  revert hadv
  fun_cases EventEmitter.advance em call <;> intro hadv <;> cases hadv <;> simp_all

theorem EmitterCall.Brings.of_userContext {em em' : EventEmitter F C}
    {call : EmitterCall F C} (h : call.Brings em' cb ctx)
    (hslot : call.holdsShared = true → em'.userContext = em.userContext) :
    call.Brings em cb ctx := by
  cases call <;> simp_all

namespace Emitting

variable {s s' : Emitting F C}

theorem Unregistered.next (h : s.Unregistered cb ctx) (hs : s.Sound)
    (hnext : NextWithout cb ctx s s') : s'.Unregistered cb ctx := by
  obtain ⟨a, hstep, hregisters⟩ := hnext
  rcases step_cases hstep with ⟨entry, rfl, rfl⟩ | ⟨i, call, em', call', rfl, hi, hadv, rfl⟩
  · refine ⟨h.slot, ?_⟩
    intro call hcall
    rcases List.mem_append.mp hcall with hold | hnew
    · exact h.calls call hold
    · rw [List.mem_singleton.mp hnew]
      cases entry <;> exact id
  · have hmem : call ∈ s.calls := List.mem_of_getElem? hi
    have hadvanced := hs.advanced hi hadv
    refine ⟨advance_slot hadv (hs.written i call hi) (hs.writer i call hi)
      (h.calls call hmem) h.slot, ?_⟩
    intro other hother
    rcases List.mem_or_eq_of_mem_set hother with hold | rfl
    · -- a call that reads the slot sees no write of it
      intro hbrings
      refine h.calls other hold (hbrings.of_userContext ?_)
      intro hreads
      rcases hadvanced.slot with hcall | hslot
      · have hfree := hs.no_reader (hs.writer i call hi hcall) hold
        rw [hfree] at hreads
        cases hreads
      · exact hslot.2
    · apply advance_brings hadv
      · intro heq
        subst heq
        exact hregisters (by simp only [registers, hi])
      · exact h.calls call hmem
      · intro hreads
        apply h.slot
        rw [← Bool.not_eq_true]
        intro hlocked
        rw [hs.no_reader hlocked hmem] at hreads
        cases hreads

theorem Gone.next (h : s.Gone cb ctx) (hun : s.Unregistered cb ctx)
    (hnext : NextWithout cb ctx s s') : s'.Gone cb ctx := by
  obtain ⟨a, hstep, -⟩ := hnext
  rcases step_cases hstep with ⟨entry, rfl, rfl⟩ | ⟨i, call, em', call', rfl, hi, hadv, rfl⟩
  · intro call hcall
    rcases List.mem_append.mp hcall with hold | hnew
    · exact h call hold
    · rw [List.mem_singleton.mp hnew]
      cases entry <;> exact id
  · have hmem : call ∈ s.calls := List.mem_of_getElem? hi
    intro other hother
    rcases List.mem_or_eq_of_mem_set hother with hold | rfl
    · exact h other hold
    · exact advance_invokes hadv (hun.calls call hmem) (h call hmem)

/-- The end of `Clear`'s locked section: the slot is empty, and nobody else is in it. -/
theorem unregistered_of_clearDone (hs : s.Sound) {c : Nat}
    (hc : s.calls[c]? = some .clearDone) :
    (⟨{ s.emitter with exclusive := false }, s.calls.set c .draining⟩ :
      Emitting F C).Unregistered cb ctx := by
  have hlocked := hs.writer c _ hc rfl
  have hempty := hs.written c _ hc
  refine ⟨?_, ?_⟩
  · intro _ hslot
    have hcallback := hslot.1
    rw [hempty.1] at hcallback
    cases hcallback
  · intro call hcall hbrings
    obtain ⟨j, hj⟩ := List.mem_iff_getElem?.mp hcall
    rcases Lib.of_getElem?_set hj with ⟨-, rfl⟩ | ⟨hne, hold⟩
    · exact hbrings
    · have hreads := hs.no_reader hlocked (List.mem_of_getElem? hold)
      have hwrites : call.holdsExclusive ≠ true := by
        intro hexclusive
        exact hne (hs.alone j c call _ hold hc hexclusive rfl)
      cases call <;> simp_all

/-- `Clear` reads a zero that is not a wrapped one. -/
theorem gone_of_no_inflight (hs : s.Sound) (hun : s.Unregistered cb ctx)
    (hzero : s.emitter.inflight = 0) (hcount : s.inFlight < 2 ^ 32) : s.Gone cb ctx := by
  have hnone : s.inFlight = 0 := by
    have hinflight := hs.inflight
    rw [hzero] at hinflight
    have hnat := congrArg UInt32.toNat hinflight
    rw [UInt32.toNat_ofNat_of_lt' hcount] at hnat
    exact hnat.symm
  intro call hcall hinvokes
  have hquiet := List.countP_eq_zero.mp hnone call hcall
  have hbrings := hun.calls call hcall
  cases call <;> simp_all

end Emitting

end Unregistered

/-! ## Clear drains the callback -/

namespace EmitterCall

/-- Where a call of `Clear` is before its locked section has ended. -/
def clears : EmitterCall F C → Bool
  | .clearWaits | .clearLocked | .clearHalf | .clearDone => true
  | _ => false

end EmitterCall

namespace Emitting

variable {cb : F} {ctx : Option C} {s s' : Emitting F C} {c : Nat}

/-- A step that does not register the pair.  When it is the poll of the `Clear` call `c`, the
counter that it reads did not wrap. -/
def Observed (c : Nat) (cb : F) (ctx : Option C) (s s' : Emitting F C) : Prop :=
  ∃ a, s.step a = some s' ∧ s.registers a ≠ some (some cb, ctx) ∧
    (a = .advance c → s.calls[c]? = some .draining → s.inFlight < 2 ^ 32)

/-- What is known while `c` is a call of `Clear`. -/
structure Clearing (c : Nat) (cb : F) (ctx : Option C) (s : Emitting F C) : Prop where
  sound : s.Sound
  stage : ∃ call, s.calls[c]? = some call ∧
    (call.clears = true ∨ (call = .draining ∧ s.Unregistered cb ctx) ∨
      (call = .returned ∧ s.Unregistered cb ctx ∧ s.Gone cb ctx))

/-- The next access of a `Clear` that is still in its locked section, or about to be. -/
theorem advance_clears {em em' : EventEmitter F C} {call call' : EmitterCall F C}
    (hadv : em.advance call = some (em', call')) (hclears : call.clears = true) :
    call'.clears = true ∨
      (call = .clearDone ∧ call' = .draining ∧ em' = { em with exclusive := false }) := by
  revert hadv
  fun_cases EventEmitter.advance em call <;> intro hadv <;> cases hadv <;>
    simp_all [EmitterCall.clears]

theorem advance_draining {em em' : EventEmitter F C} {call' : EmitterCall F C}
    (hadv : em.advance .draining = some (em', call')) :
    em' = em ∧ (call' = .draining ∨ (call' = .returned ∧ em.inflight = 0)) := by
  simp only [EventEmitter.advance] at hadv
  split at hadv
  · cases hadv
    exact ⟨rfl, Or.inl rfl⟩
  · rename_i hzero
    cases hadv
    exact ⟨rfl, Or.inr ⟨rfl, Decidable.not_not.mp hzero⟩⟩

theorem Clearing.next (h : s.Clearing c cb ctx) (hnext : Observed c cb ctx s s') :
    s'.Clearing c cb ctx := by
  obtain ⟨a, hstep, hregisters, hcount⟩ := hnext
  have hwithout : NextWithout cb ctx s s' := ⟨a, hstep, hregisters⟩
  obtain ⟨call, hc, hstage⟩ := h.stage
  have hkeep : s.Unregistered cb ctx → s'.Unregistered cb ctx :=
    fun hun => hun.next h.sound hwithout
  have hgone : s.Unregistered cb ctx → s.Gone cb ctx → s'.Gone cb ctx :=
    fun hun hg => hg.next hun hwithout
  refine ⟨h.sound.step hstep, ?_⟩
  rcases step_cases hstep with ⟨entry, rfl, rfl⟩ | ⟨i, other, em', call', rfl, hi, hadv, rfl⟩
  · refine ⟨call, ?_, ?_⟩
    · exact List.getElem?_append_left (List.getElem?_eq_some_iff.mp hc).1 ▸ hc
    · rcases hstage with hclears | ⟨hdrains, hun⟩ | ⟨hret, hun, hg⟩
      · exact Or.inl hclears
      · exact Or.inr (Or.inl ⟨hdrains, hkeep hun⟩)
      · exact Or.inr (Or.inr ⟨hret, hkeep hun, hgone hun hg⟩)
  · by_cases hic : i = c
    · subst hic
      rw [hc] at hi
      cases hi
      refine ⟨call', Lib.getElem?_set_of_some hc, ?_⟩
      rcases hstage with hclears | ⟨rfl, hun⟩ | ⟨rfl, -, -⟩
      · rcases advance_clears hadv hclears with hclears' | ⟨rfl, rfl, rfl⟩
        · exact Or.inl hclears'
        · exact Or.inr (Or.inl ⟨rfl, unregistered_of_clearDone h.sound hc⟩)
      · obtain ⟨-, rfl | ⟨rfl, hzero⟩⟩ := advance_draining hadv
        · exact Or.inr (Or.inl ⟨rfl, hkeep hun⟩)
        · have hg := gone_of_no_inflight h.sound hun hzero (hcount rfl hc)
          exact Or.inr (Or.inr ⟨rfl, hkeep hun, hgone hun hg⟩)
      · cases hadv
    · refine ⟨call, ?_, ?_⟩
      · show (s.calls.set i call')[c]? = some call
        rw [List.getElem?_set_ne hic]
        exact hc
      · rcases hstage with hclears | ⟨hdrains, hun⟩ | ⟨hret, hun, hg⟩
        · exact Or.inl hclears
        · exact Or.inr (Or.inl ⟨hdrains, hkeep hun⟩)
        · exact Or.inr (Or.inr ⟨hret, hkeep hun, hgone hun hg⟩)

end Emitting

/-- In every run: when a `Clear` has returned, then no call runs a pair that was not
registered again since that `Clear` began, or is on its way to run it.  Fewer than
`2 ^ 32` calls are in flight whenever the `Clear` reads the counter. -/
theorem clear_drains (cb : F) (ctx : Option C) {s₀ s₁ s : Emitting F C} (hreach : s₀.Reached)
    (hbegin : s₀.step (.start .clear) = some s₁)
    (hrun : Relation.ReflTransGen (Emitting.Observed s₀.calls.length cb ctx) s₁ s)
    (hreturned : s.calls[s₀.calls.length]? = some .returned) :
    ∀ call ∈ s.calls, ¬call.Invokes cb ctx := by
  have hstart : s₁.Clearing s₀.calls.length cb ctx := by
    refine ⟨hreach.sound.step hbegin, .clearWaits, ?_, Or.inl rfl⟩
    simp only [Emitting.step, Option.some.injEq] at hbegin
    subst hbegin
    exact List.getElem?_concat_length
  have hend : s.Clearing s₀.calls.length cb ctx :=
    Lib.run_keeps (fun _ _ hnext h => h.next hnext) hrun hstart
  obtain ⟨call, hc, hstage⟩ := hend.stage
  rw [hreturned] at hc
  cases hc
  rcases hstage with hclears | ⟨hdrains, -⟩ | ⟨-, -, hgone⟩
  · cases hclears
  · cases hdrains
  · exact hgone

section Crowd

/-- The last call advances. -/
theorem Emitting.step_last {em em' : EventEmitter F C} {calls : List (EmitterCall F C)}
    (call : EmitterCall F C) {call' : EmitterCall F C} (hadv : em.advance call = some (em', call')) :
    (⟨em, calls ++ [call]⟩ : Emitting F C).step (.advance calls.length)
      = some ⟨em', calls ++ [call']⟩ := by
  simp only [Emitting.step, List.getElem?_concat_length, hadv]
  simp

/-- A registered pair and `n` calls that run it. -/
def crowd (n : Nat) : Emitting UInt64 UInt64 :=
  ⟨{ callback := some 1, userContext := some 2, inflight := UInt32.ofNat n },
    .returned :: List.replicate n (.running 1 (some 2))⟩

theorem crowd_grows (n : Nat) :
    Relation.ReflTransGen Emitting.Next (crowd n) (crowd (n + 1)) := by
  have hgrown : crowd (n + 1)
      = ⟨{ callback := some 1, userContext := some 2, inflight := UInt32.ofNat n + 1 },
          (crowd n).calls ++ [.running 1 (some 2)]⟩ := by
    have hcount : UInt32.ofNat (n + 1) = UInt32.ofNat n + 1 := UInt32.ofNat_add n 1
    simp only [crowd, hcount, List.replicate_succ', List.cons_append]
  rw [hgrown]
  -- a new call takes its six accesses up to the callback
  refine .head ⟨.start .emit, rfl⟩ ?_
  refine .head ⟨_, Emitting.step_last .emitWaits rfl⟩ ?_
  refine .head ⟨_, Emitting.step_last .emitLocked rfl⟩ ?_
  refine .head ⟨_, Emitting.step_last (.emitHalf (some 1)) rfl⟩ ?_
  refine .head ⟨_, Emitting.step_last (.emitRead (some 1) (some 2)) rfl⟩ ?_
  refine .head ⟨_, Emitting.step_last (.emitCounted 1 (some 2)) rfl⟩ ?_
  exact .single ⟨_, Emitting.step_last (.pinned 1 (some 2)) rfl⟩

theorem crowd_reached (n : Nat) : (crowd n).Reached := by
  induction n with
  | zero =>
    refine .head ⟨.start (setEventCallback (some 1) (some 2)), rfl⟩ ?_
    refine .head ⟨.advance 0, rfl⟩ ?_
    refine .head ⟨.advance 0, rfl⟩ ?_
    refine .head ⟨.advance 0, rfl⟩ ?_
    exact .single ⟨.advance 0, rfl⟩
  | succ n ih => exact Relation.ReflTransGen.trans ih (crowd_grows n)

/-- The crowd after a `Clear` has emptied the slot and is at `call`. -/
def clearedCrowd (n : Nat) (call : EmitterCall UInt64 UInt64) : Emitting UInt64 UInt64 :=
  ⟨{ inflight := UInt32.ofNat n }, (crowd n).calls ++ [call]⟩

/-- A step of a call other than a waiting `Set` registers nothing. -/
theorem Emitting.NextWithout.last {em em' : EventEmitter F C} {cb : F} {ctx : Option C}
    {calls : List (EmitterCall F C)} (call : EmitterCall F C) {call' : EmitterCall F C}
    (hadv : em.advance call = some (em', call'))
    (hcall : call ≠ .setWaits (some cb) ctx) :
    Emitting.NextWithout cb ctx ⟨em, calls ++ [call]⟩ ⟨em', calls ++ [call']⟩ := by
  refine ⟨.advance calls.length, Emitting.step_last call hadv, ?_⟩
  simp only [Emitting.registers, List.getElem?_concat_length]
  cases call <;> simp_all

theorem clear_empties_slot (n : Nat) (cb : UInt64) (ctx : Option UInt64) :
    Relation.ReflTransGen (Emitting.NextWithout cb ctx)
      ⟨(crowd n).emitter, (crowd n).calls ++ [.clearWaits]⟩ (clearedCrowd n .draining) := by
  refine .head (.last .clearWaits rfl (by simp)) ?_
  refine .head (.last .clearLocked rfl (by simp)) ?_
  refine .head (.last .clearHalf rfl (by simp)) ?_
  exact .single (.last .clearDone rfl (by simp))

/-- A count that wraps to zero lets the `Clear` return. -/
theorem clear_returns {n : Nat} (hzero : UInt32.ofNat n = 0) (cb : UInt64)
    (ctx : Option UInt64) :
    Relation.ReflTransGen (Emitting.NextWithout cb ctx)
      ⟨(crowd n).emitter, (crowd n).calls ++ [.clearWaits]⟩ (clearedCrowd n .returned) := by
  refine (clear_empties_slot n cb ctx).tail (.last .draining ?_ (by simp))
  simp only [EventEmitter.advance, hzero, ne_eq, not_true_eq_false, if_false]

theorem running_mem_clearedCrowd {n : Nat} (hpos : n ≠ 0) (call : EmitterCall UInt64 UInt64) :
    .running 1 (some 2) ∈ (clearedCrowd n call).calls := by
  simp only [clearedCrowd, crowd]
  exact List.mem_append_left _ (List.mem_cons_of_mem _ (List.mem_replicate.mpr ⟨hpos, rfl⟩))

end Crowd

/-- One call runs the callback when the `Clear` begins.  The `Clear` polls in vain, the
callback returns, and the next poll lets the `Clear` return. -/
theorem clear_drains_one :
    ∃ s₁ s, (crowd 1).Reached ∧ (crowd 1).step (.start .clear) = some s₁ ∧
      Relation.ReflTransGen (Emitting.Observed 2 1 (some 2)) s₁ s ∧
      s.calls[2]? = some .returned ∧ ∀ call ∈ s.calls, ¬call.Invokes 1 (some 2) := by
  have hreach := crowd_reached 1
  have hbegin : (crowd 1).step (.start .clear) = some ⟨(crowd 1).emitter,
      (crowd 1).calls ++ [.clearWaits]⟩ := rfl
  have hrun : Relation.ReflTransGen (Emitting.Observed 2 1 (some 2))
      ⟨(crowd 1).emitter, (crowd 1).calls ++ [.clearWaits]⟩
      ⟨{}, [.returned, .returned, .returned]⟩ := by
    refine .head ⟨.advance 2, rfl, by decide, by decide⟩ ?_
    refine .head ⟨.advance 2, rfl, by decide, by decide⟩ ?_
    refine .head ⟨.advance 2, rfl, by decide, by decide⟩ ?_
    refine .head ⟨.advance 2, rfl, by decide, by decide⟩ ?_
    refine .head ⟨.advance 2, rfl, by decide, by decide⟩ ?_
    refine .head ⟨.advance 1, rfl, by decide, by decide⟩ ?_
    refine .head ⟨.advance 1, rfl, by decide, by decide⟩ ?_
    exact .single ⟨.advance 2, rfl, by decide, by decide⟩
  exact ⟨_, _, hreach, hbegin, hrun, rfl, clear_drains 1 (some 2) hreach hbegin hrun rfl⟩

/-- With `2 ^ 32` calls in flight the counter reads zero: the `Clear` returns while the
callback runs. -/
theorem clear_returns_over_crowd :
    ¬∀ (cb : UInt64) (ctx : Option UInt64) (s₀ s₁ s : Emitting UInt64 UInt64), s₀.Reached →
      s₀.step (.start .clear) = some s₁ →
      Relation.ReflTransGen (Emitting.NextWithout cb ctx) s₁ s →
      s.calls[s₀.calls.length]? = some .returned →
      ∀ call ∈ s.calls, ¬call.Invokes cb ctx := by
  intro hall
  obtain ⟨n, hzero, hpos⟩ : ∃ n, UInt32.ofNat n = 0 ∧ n ≠ 0 :=
    ⟨2 ^ 32, by decide, by decide⟩
  exact hall 1 (some 2) (crowd n) _ (clearedCrowd n .returned) (crowd_reached n) rfl
    (clear_returns hzero 1 (some 2)) List.getElem?_concat_length _
    (running_mem_clearedCrowd hpos _) ⟨rfl, rfl⟩

end LayerMount.Abi
