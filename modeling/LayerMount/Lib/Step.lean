import Mathlib.Tactic.Common

/-!
# Steps of a machine that can fail

A step reads and changes a state, and gives a result or a failure.  A failed step
keeps the state it reached: undoing is something a program does, not something the
monad does.

`Ensures` is the postcondition of one run.  `Ensures.bind` composes two steps, and
`Ensures.attempt` hands the failure of a step to its caller as a value.  `Yields` speaks of
the runs that succeed and asks nothing of a failure.  `Keeps` is
the special case of a relation between the states before and after that every run
of a step respects; for a preorder it composes without looking at the states in
between (`Keeps.bind`).  `Follows` is the two together: a relation that every run respects, and
what the value of a run that succeeds is like (`Follows.bind`).
-/

namespace LayerMount.Lib

def Step (σ ε α : Type) : Type := σ → Except ε α × σ

namespace Step

variable {σ ε α β : Type}

instance : Monad (Step σ ε) where
  pure a := fun s => (.ok a, s)
  bind m f := fun s =>
    match m s with
    | (.ok a, s') => f a s'
    | (.error e, s') => (.error e, s')

def get : Step σ ε σ := fun s => (.ok s, s)

def modify (f : σ → σ) : Step σ ε Unit := fun s => (.ok (), f s)

def fail (e : ε) : Step σ ε α := fun s => (.error e, s)

/-- Runs a step and hands its failure to the caller as a value. -/
def attempt (m : Step σ ε α) : Step σ ε (Except ε α) := fun s => (.ok (m s).1, (m s).2)

/-- A result or a failure that is already there. -/
def ofExcept (r : Except ε α) : Step σ ε α := fun s => (r, s)

@[simp] theorem pure_apply (a : α) (s : σ) : (pure a : Step σ ε α) s = (.ok a, s) := rfl

theorem bind_apply (m : Step σ ε α) (f : α → Step σ ε β) (s : σ) :
    (m >>= f) s = match m s with
      | (.ok a, s') => f a s'
      | (.error e, s') => (.error e, s') := rfl

@[simp] theorem get_apply (s : σ) : (get : Step σ ε σ) s = (.ok s, s) := rfl

@[simp] theorem modify_apply (f : σ → σ) (s : σ) :
    (modify f : Step σ ε Unit) s = (.ok (), f s) := rfl

@[simp] theorem fail_apply (e : ε) (s : σ) : (fail e : Step σ ε α) s = (.error e, s) := rfl

@[simp] theorem attempt_apply (m : Step σ ε α) (s : σ) :
    attempt m s = (.ok (m s).1, (m s).2) := rfl

@[simp] theorem ofExcept_apply (r : Except ε α) (s : σ) :
    (ofExcept r : Step σ ε α) s = (r, s) := rfl

theorem bind_of_ok {m : Step σ ε α} {f : α → Step σ ε β} {s s' : σ} {a : α}
    (h : m s = (.ok a, s')) : (m >>= f) s = f a s' := by
  rw [bind_apply, h]

@[simp] theorem get_bind (f : σ → Step σ ε β) (s : σ) : (get >>= f) s = f s s := rfl

@[simp] theorem pure_bind_apply (a : α) (f : α → Step σ ε β) (s : σ) :
    (pure a >>= f) s = f a s := rfl

@[simp] theorem modify_bind (g : σ → σ) (f : Unit → Step σ ε β) (s : σ) :
    (modify g >>= f) s = f () (g s) := rfl

@[simp] theorem attempt_bind (m : Step σ ε α) (f : Except ε α → Step σ ε β) (s : σ) :
    (attempt m >>= f) s = f (m s).1 (m s).2 := rfl

/-! ## What one run ensures -/

/-- The run from `s` ends in a result and a state that satisfy `Q`. -/
def Ensures (m : Step σ ε α) (s : σ) (Q : Except ε α → σ → Prop) : Prop := Q (m s).1 (m s).2

theorem Ensures.mono {m : Step σ ε α} {s : σ} {P Q : Except ε α → σ → Prop}
    (h : m.Ensures s P) (hpq : ∀ r s', P r s' → Q r s') : m.Ensures s Q :=
  hpq _ _ h

theorem Ensures.and {m : Step σ ε α} {s : σ} {P Q : Except ε α → σ → Prop}
    (h : m.Ensures s P) (h' : m.Ensures s Q) : m.Ensures s fun r s' => P r s' ∧ Q r s' :=
  ⟨h, h'⟩

/-- Two steps in a row: the second starts where the first ends, and a failure of
the first ends the run. -/
theorem Ensures.bind {m : Step σ ε α} {f : α → Step σ ε β} {s : σ}
    {P : Except ε α → σ → Prop} {Q : Except ε β → σ → Prop} (h : m.Ensures s P)
    (hok : ∀ a s', P (.ok a) s' → (f a).Ensures s' Q)
    (herr : ∀ e s', P (.error e) s' → Q (.error e) s') : (m >>= f).Ensures s Q := by
  rw [Ensures, bind_apply]
  rw [Ensures] at h
  cases hm : m s with
  | mk r s' =>
    rw [hm] at h
    cases r with
    | ok a => exact hok a s' h
    | error e => exact herr e s' h

theorem Ensures.pure {a : α} {s : σ} {Q : Except ε α → σ → Prop} (h : Q (.ok a) s) :
    (pure a : Step σ ε α).Ensures s Q := h

theorem Ensures.fail {e : ε} {s : σ} {Q : Except ε α → σ → Prop} (h : Q (.error e) s) :
    (fail e : Step σ ε α).Ensures s Q := h

theorem Ensures.modify {f : σ → σ} {s : σ} {Q : Except ε Unit → σ → Prop}
    (h : Q (.ok ()) (f s)) : (modify f).Ensures s Q := h

/-- A program that changes the state goes on with the changed state. -/
theorem Ensures.modify_bind {f : σ → σ} {k : Unit → Step σ ε β} {s : σ}
    {Q : Except ε β → σ → Prop} (h : (k ()).Ensures (f s) Q) :
    (Step.modify f >>= k).Ensures s Q := h

theorem Ensures.ofExcept {r : Except ε α} {s : σ} {Q : Except ε α → σ → Prop} (h : Q r s) :
    (ofExcept r).Ensures s Q := h

/-- A program that reads the state goes on with the state it is in. -/
theorem Ensures.get {f : σ → Step σ ε β} {s : σ} {Q : Except ε β → σ → Prop}
    (h : (f s).Ensures s Q) : (Step.get >>= f).Ensures s Q := h

theorem Ensures.ite {c : Prop} [Decidable c] {m n : Step σ ε α} {s : σ}
    {Q : Except ε α → σ → Prop} (hm : c → m.Ensures s Q) (hn : ¬c → n.Ensures s Q) :
    (if c then m else n).Ensures s Q := by
  split
  · exact hm ‹_›
  · exact hn ‹_›

/-- A step whose failure its caller reads. -/
theorem Ensures.attempt_bind {m : Step σ ε α} {f : Except ε α → Step σ ε β} {s : σ}
    {P : Except ε α → σ → Prop} {Q : Except ε β → σ → Prop} (h : m.Ensures s P)
    (hf : ∀ r s', P r s' → (f r).Ensures s' Q) : (Step.attempt m >>= f).Ensures s Q :=
  hf _ _ h

theorem Ensures.attempt {m : Step σ ε α} {s : σ} {Q : Except ε (Except ε α) → σ → Prop}
    (h : m.Ensures s fun r s' => Q (.ok r) s') : (attempt m).Ensures s Q := h

/-! ## What a run that succeeds gives -/

/-- When the run from `s` succeeds, its result and the state it ends in satisfy `Q`. -/
def Yields (m : Step σ ε α) (s : σ) (Q : α → σ → Prop) : Prop :=
  m.Ensures s fun r s' => ∀ a, r = .ok a → Q a s'

theorem Yields.mono {m : Step σ ε α} {s : σ} {P Q : α → σ → Prop} (h : m.Yields s P)
    (hpq : ∀ a s', P a s' → Q a s') : m.Yields s Q :=
  Ensures.mono h fun _ _ hp a ha => hpq _ _ (hp a ha)

theorem Yields.and {m : Step σ ε α} {s : σ} {P Q : α → σ → Prop} (h : m.Yields s P)
    (h' : m.Yields s Q) : m.Yields s fun a s' => P a s' ∧ Q a s' :=
  fun _ ha => ⟨h _ ha, h' _ ha⟩

theorem Ensures.yields {m : Step σ ε α} {s : σ} {P : Except ε α → σ → Prop} {Q : α → σ → Prop}
    (h : m.Ensures s P) (hpq : ∀ a s', P (.ok a) s' → Q a s') : m.Yields s Q :=
  h.mono fun _ _ hp _ ha => hpq _ _ (ha ▸ hp)

/-- Two steps in a row: what the first gives is all the second has to go on. -/
theorem Yields.bind {m : Step σ ε α} {f : α → Step σ ε β} {s : σ} {P : α → σ → Prop}
    {Q : β → σ → Prop} (h : m.Yields s P) (hf : ∀ a s', P a s' → (f a).Yields s' Q) :
    (m >>= f).Yields s Q :=
  Ensures.bind h (fun a s' ha => hf a s' (ha a rfl)) fun _ _ _ _ hr => by cases hr

theorem Yields.pure {a : α} {s : σ} {Q : α → σ → Prop} (h : Q a s) :
    (pure a : Step σ ε α).Yields s Q := by
  intro b hb
  obtain rfl : a = b := by simpa using hb
  exact h

theorem Yields.fail {e : ε} {s : σ} {Q : α → σ → Prop} : (fail e : Step σ ε α).Yields s Q :=
  fun _ h => by cases h

theorem Yields.modify {f : σ → σ} {s : σ} {Q : Unit → σ → Prop} (h : Q () (f s)) :
    (modify f : Step σ ε Unit).Yields s Q :=
  fun _ _ => h

theorem Yields.get {f : σ → Step σ ε β} {s : σ} {Q : β → σ → Prop} (h : (f s).Yields s Q) :
    (Step.get >>= f).Yields s Q := h

theorem Yields.ite {c : Prop} [Decidable c] {m n : Step σ ε α} {s : σ} {Q : α → σ → Prop}
    (hm : c → m.Yields s Q) (hn : ¬c → n.Yields s Q) : (if c then m else n).Yields s Q :=
  Ensures.ite hm hn

/-- A step whose failure its caller reads. -/
theorem Yields.attempt_bind {m : Step σ ε α} {f : Except ε α → Step σ ε β} {s : σ}
    {P : α → σ → Prop} {Q : β → σ → Prop} (h : m.Yields s P)
    (hok : ∀ a s', P a s' → (f (.ok a)).Yields s' Q)
    (herr : ∀ e s', (f (.error e)).Yields s' Q) : (Step.attempt m >>= f).Yields s Q :=
  Ensures.attempt_bind h fun r s' hr =>
    match r with
    | .ok a => hok a s' (hr a rfl)
    | .error e => herr e s'

theorem Yields.apply {m : Step σ ε α} {s s' : σ} {a : α} {Q : α → σ → Prop} (h : m.Yields s Q)
    (hrun : m s = (.ok a, s')) : Q a s' := by
  have hall : ∀ b, (m s).1 = .ok b → Q b (m s).2 := h
  rw [hrun] at hall
  exact hall a rfl

/-! ## What every run keeps -/

/-- Every run relates the state before to the state after. -/
def Keeps (R : σ → σ → Prop) (m : Step σ ε α) : Prop := ∀ s, R s (m s).2

theorem Keeps.modify {R : σ → σ → Prop} {f : σ → σ} (h : ∀ s, R s (f s)) :
    (Step.modify f : Step σ ε Unit).Keeps R := h

theorem Keeps.get {R : σ → σ → Prop} {f : σ → Step σ ε β} (hf : ∀ s, (f s).Keeps R) :
    (Step.get >>= f).Keeps R := fun s => hf s s

theorem Keeps.ite {R : σ → σ → Prop} {c : Prop} [Decidable c] {m n : Step σ ε α}
    (hm : m.Keeps R) (hn : n.Keeps R) : (if c then m else n).Keeps R := by
  split
  · exact hm
  · exact hn

section Reflexive

variable {R : σ → σ → Prop} [Std.Refl R]

theorem Keeps.pure (a : α) : (Pure.pure a : Step σ ε α).Keeps R := fun s => Std.Refl.refl s

theorem Keeps.fail (e : ε) : (Step.fail e : Step σ ε α).Keeps R := fun s => Std.Refl.refl s

theorem Keeps.ofExcept (r : Except ε α) : (Step.ofExcept r : Step σ ε α).Keeps R :=
  fun s => Std.Refl.refl s

end Reflexive

section Transitive

variable {R : σ → σ → Prop} [IsTrans σ R]

theorem Keeps.bind {m : Step σ ε α} {f : α → Step σ ε β} (hm : m.Keeps R)
    (hf : ∀ a, (f a).Keeps R) : (m >>= f).Keeps R := by
  intro s
  rw [bind_apply]
  have hs := hm s
  cases hr : m s with
  | mk r s' =>
    rw [hr] at hs
    cases r with
    | ok a => exact trans_of R hs (hf a s')
    | error e => exact hs

/-- A step whose failure its caller reads. -/
theorem Keeps.attempt {m : Step σ ε α} {f : Except ε α → Step σ ε β} (hm : m.Keeps R)
    (hf : ∀ r, (f r).Keeps R) : (Step.attempt m >>= f).Keeps R :=
  fun s => trans_of R (hm s) (hf (m s).1 (m s).2)

theorem Keeps.attempt_cases {m : Step σ ε α} {f : Except ε α → Step σ ε β} (hm : m.Keeps R)
    (hok : ∀ a, (f (.ok a)).Keeps R) (herr : ∀ e, (f (.error e)).Keeps R) :
    (Step.attempt m >>= f).Keeps R :=
  Keeps.attempt hm fun r => by
    cases r with
    | ok a => exact hok a
    | error e => exact herr e

end Transitive

/-! ## Steps that follow a relation -/

/-- The state moves along `R` whether the step succeeds or fails, and a value that comes back
satisfies `Q` in the state it comes back to. -/
def Follows (R : σ → σ → Prop) (m : Step σ ε α) (s : σ) (Q : α → σ → Prop) : Prop :=
  m.Ensures s fun r s' => R s s' ∧ ∀ a, r = .ok a → Q a s'

theorem Follows.mono {R : σ → σ → Prop} {m : Step σ ε α} {s : σ} {P Q : α → σ → Prop}
    (h : m.Follows R s P) (hpq : ∀ a s', R s s' → P a s' → Q a s') : m.Follows R s Q :=
  Ensures.mono h fun _ _ hr => ⟨hr.1, fun a ha => hpq a _ hr.1 (hr.2 a ha)⟩

theorem Follows.and_yields {R : σ → σ → Prop} {m : Step σ ε α} {s : σ} {P Q : α → σ → Prop}
    (h : m.Follows R s P) (h' : m.Yields s Q) : m.Follows R s fun a s' => P a s' ∧ Q a s' :=
  ⟨h.1, fun a ha => ⟨h.2 a ha, h' a ha⟩⟩

theorem Follows.yields {R : σ → σ → Prop} {m : Step σ ε α} {s : σ} {Q : α → σ → Prop}
    (h : m.Follows R s Q) : m.Yields s Q := h.2

theorem Keeps.follows {R : σ → σ → Prop} {m : Step σ ε α} (h : m.Keeps R) (s : σ) :
    m.Follows R s fun _ _ => True :=
  ⟨h s, fun _ _ => trivial⟩

theorem Follows.keeps {R : σ → σ → Prop} {m : Step σ ε α} {Q : σ → α → σ → Prop}
    (h : ∀ s, m.Follows R s (Q s)) : m.Keeps R :=
  fun s => (h s).1

theorem Follows.modify {R : σ → σ → Prop} {f : σ → σ} {s : σ} {Q : Unit → σ → Prop}
    (hR : R s (f s)) (hQ : Q () (f s)) : (Step.modify f : Step σ ε Unit).Follows R s Q :=
  ⟨hR, fun _ _ => hQ⟩

theorem Follows.get {R : σ → σ → Prop} {f : σ → Step σ ε β} {s : σ} {Q : β → σ → Prop}
    (h : (f s).Follows R s Q) : (Step.get >>= f).Follows R s Q := h

theorem Follows.ite {R : σ → σ → Prop} {c : Prop} [Decidable c] {m n : Step σ ε α} {s : σ}
    {Q : α → σ → Prop} (hm : c → m.Follows R s Q) (hn : ¬c → n.Follows R s Q) :
    (if c then m else n).Follows R s Q :=
  Ensures.ite hm hn

section Reflexive

variable {R : σ → σ → Prop} [Std.Refl R]

theorem Follows.pure {a : α} {s : σ} {Q : α → σ → Prop} (h : Q a s) :
    (Pure.pure a : Step σ ε α).Follows R s Q := by
  refine ⟨Std.Refl.refl s, fun b hb => ?_⟩
  obtain rfl : a = b := by simpa using hb
  exact h

theorem Follows.fail {e : ε} {s : σ} {Q : α → σ → Prop} :
    (Step.fail e : Step σ ε α).Follows R s Q :=
  ⟨Std.Refl.refl s, fun _ h => by cases h⟩

theorem Follows.ofExcept {r : Except ε α} {s : σ} {Q : α → σ → Prop}
    (h : ∀ a, r = .ok a → Q a s) : (Step.ofExcept r).Follows R s Q :=
  ⟨Std.Refl.refl s, h⟩

end Reflexive

section Transitive

variable {R : σ → σ → Prop} [IsTrans σ R]

theorem Follows.bind {m : Step σ ε α} {f : α → Step σ ε β} {s : σ} {P : α → σ → Prop}
    {Q : β → σ → Prop} (h : m.Follows R s P)
    (hf : ∀ a s', R s s' → P a s' → (f a).Follows R s' Q) : (m >>= f).Follows R s Q :=
  Ensures.bind h
    (fun a s' ha => Ensures.mono (hf a s' ha.1 (ha.2 a rfl)) fun _ _ hr =>
      ⟨trans_of R ha.1 hr.1, hr.2⟩)
    fun _ _ he => ⟨he.1, fun _ hr => by cases hr⟩

/-- A step whose failure its caller reads. -/
theorem Follows.attempt_bind {m : Step σ ε α} {f : Except ε α → Step σ ε β} {s : σ}
    {P : α → σ → Prop} {Q : β → σ → Prop} (h : m.Follows R s P)
    (hok : ∀ a s', R s s' → P a s' → (f (.ok a)).Follows R s' Q)
    (herr : ∀ e s', R s s' → (f (.error e)).Follows R s' Q) :
    (Step.attempt m >>= f).Follows R s Q :=
  Ensures.attempt_bind h fun r s' hr =>
    have hf : (f r).Follows R s' Q :=
      match r with
      | .ok a => hok a s' hr.1 (hr.2 a rfl)
      | .error e => herr e s' hr.1
    Ensures.mono hf fun _ _ hq => ⟨trans_of R hr.1 hq.1, hq.2⟩

end Transitive

end Step

end LayerMount.Lib
