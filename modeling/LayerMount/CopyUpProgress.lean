import LayerMount.CopyUpReservation
import Mathlib.Algebra.GroupWithZero.Nat
import Mathlib.Algebra.Order.BigOperators.Group.Finset

/-!
# Copy-ups return

`CopyUpCall.cost` bounds the moves that a call and the calls it makes can still take.
Every move lowers the sum of the costs (`CopyUpStep.cost_lt`), and while a call has not
returned some call can move (`some_call_can_move`): a chain of waiting threads goes up
the tree, so its last thread does not wait.

`copyUp_reservations` puts this beside the results on reservations and commits.
-/

namespace LayerMount

open Lib

variable {s s' : CopyUpProtocol} {t : Nat} {f : CopyUpCall} {rest : List CopyUpCall}

/-! ## Some call can move -/

theorem CopyUpCall.exists_move (s : CopyUpProtocol) (f : CopyUpCall)
    (hown : f.phase ≠ .awaitingParent)
    (hfree : f.phase = .reserving → s.inFlight f.path = false) : ∃ m, f.Can s m := by
  cases hphase : f.phase with
  | starting =>
    cases hup : s.upper f.path with
    | none => exact ⟨_, .earlyMiss hphase hup⟩
    | some c => exact ⟨_, .earlyHit hphase (by rw [hup]; rfl)⟩
  | reserving => exact ⟨_, .reserve hphase (hfree hphase)⟩
  | checking =>
    by_cases hkind : f.kind = .completeLazy
    · by_cases hup : s.upper f.path = some .shell
      · exact ⟨_, .shell hphase hkind hup⟩
      · exact ⟨_, .noShell hphase hkind hup⟩
    · cases hup : s.upper f.path with
      | none => exact ⟨_, .notThere hphase hkind hup⟩
      | some c => exact ⟨_, .alreadyThere hphase hkind (by rw [hup]; rfl)⟩
  | preparing => exact ⟨_, .notPrepared hphase⟩
  | awaitingParent => exact absurd hphase hown
  | parentReady => exact ⟨_, .ready hphase⟩
  | staging => exact ⟨_, .staged hphase⟩
  | committing => exact ⟨_, .notCommitted hphase⟩
  | filling => exact ⟨_, .notFilled hphase⟩
  | releasing ok => exact ⟨_, .finish hphase⟩

/-- The events that no running call makes. -/
def CopyUpEvent.outside : CopyUpEvent → Bool
  | .called _ => true
  | .created _ => true
  | .removed _ => true
  | _ => false

theorem CopyUpMove.event_inside (m : CopyUpMove) (f : CopyUpCall) :
    (m.event f).outside = false := by
  cases m <;> rfl

/-- A path that is in flight belongs to a thread that has a call. -/
theorem CopyUpProtocol.Reserved.holder (h : s.Reserved) {p : RelPath}
    (htaken : s.inFlight p = true) : ∃ t, s.HoldsPath t p := by
  obtain ⟨t, c, hc, hheld, hkey⟩ := (h.sound.taken_iff p).mp htaken
  obtain ⟨f, hf, rfl⟩ := List.mem_map.mp hc
  exact ⟨t, f, hf, hheld, hkey⟩

theorem CopyUpProtocol.Reserved.moves_of_not_waiting (h : s.Reserved) (hwork : s.stack t ≠ [])
    (hwaits : ¬∃ p, s.WaitsFor t p) : ∃ event s', CopyUpStep s event s' ∧ event.outside = false := by
  obtain ⟨f, rest, hstack⟩ := List.exists_cons_of_ne_nil hwork
  have hown : f.phase ≠ .awaitingParent := by
    have hin := h.innermost t
    rw [hstack] at hin
    exact hin
  have hfree : f.phase = .reserving → s.inFlight f.path = false := by
    intro hphase
    cases htaken : s.inFlight f.path with
    | false => rfl
    | true => exact absurd ⟨_, f, rest, hstack, hphase, rfl, htaken⟩ hwaits
  obtain ⟨m, hcan⟩ := f.exists_move s hown hfree
  exact ⟨_, _, .move hstack hcan, m.event_inside f⟩

/-- While a call has not returned, a call can move. -/
theorem CopyUpProtocol.Reserved.some_call_can_move (h : s.Reserved) (hwork : s.stack t ≠ []) :
    ∃ event s', CopyUpStep s event s' ∧ event.outside = false := by
  -- the induction is on the path that the thread waits for: its holder waits for a shorter one
  have hchain : ∀ n, ∀ t p, s.WaitsFor t p → p.length < n →
      ∃ event s', CopyUpStep s event s' ∧ event.outside = false := by
    intro n
    induction n with
    | zero =>
      intro t p _ hlt
      omega
    | succ n ih =>
      intro t p hp hlt
      have htaken : s.inFlight p = true := by
        obtain ⟨-, -, -, -, -, htaken⟩ := hp
        exact htaken
      obtain ⟨t', hholds⟩ := h.holder htaken
      by_cases hwaits : ∃ q, s.WaitsFor t' q
      · obtain ⟨q, hq⟩ := hwaits
        have hup := (h.waits_above hq hholds).2
        exact ih t' q hq (by omega)
      · obtain ⟨g, hg, -⟩ := hholds
        exact h.moves_of_not_waiting (List.ne_nil_of_mem hg) hwaits
  by_cases hwaits : ∃ p, s.WaitsFor t p
  · obtain ⟨p, hp⟩ := hwaits
    exact hchain (p.length + 1) t p hp (by omega)
  · exact h.moves_of_not_waiting hwork hwaits

/-! ## No run of moves goes on forever -/

/-- The moves that a call and the calls it makes can still take. -/
def CopyUpCall.cost (f : CopyUpCall) : Nat :=
  match f.phase with
  | .starting => 9 * f.path.length + 10
  | .reserving => 9 * f.path.length + 9
  | .checking => 9 * f.path.length + 8
  | .preparing => 9 * f.path.length + 7
  | .awaitingParent => 6
  | .parentReady => 5
  | .staging => 4
  | .committing => 3
  | .filling => 3
  | .releasing _ => 2

def stackCost (fs : List CopyUpCall) : Nat := (fs.map CopyUpCall.cost).sum

theorem stackCost_cons (f : CopyUpCall) (fs : List CopyUpCall) :
    stackCost (f :: fs) = f.cost + stackCost fs := by
  simp [stackCost]

theorem stackCost_resume (h : Stacked (f :: rest)) (ok : Bool) :
    stackCost (resume ok rest) ≤ stackCost rest := by
  cases rest with
  | nil => exact Nat.le_refl _
  | cons g rest =>
    have hg : g.cost = 6 := by simp [CopyUpCall.cost, h.caller]
    show stackCost ({ g with phase := if ok then .parentReady else .releasing false } :: rest) ≤ _
    rw [stackCost_cons, stackCost_cons, hg]
    cases ok with
    | false =>
      show 2 + stackCost rest ≤ _
      omega
    | true =>
      show 5 + stackCost rest ≤ _
      omega

/-- A move lowers the cost of its thread and touches no other. -/
theorem CopyUpProtocol.Reserved.stackCost_perform {m : CopyUpMove} (h : s.Reserved)
    (hstack : s.stack t = f :: rest) (hcan : f.Can s m) :
    stackCost ((s.perform t f rest m).stack t) < stackCost (s.stack t) ∧
      ∀ t' ≠ t, (s.perform t f rest m).stack t' = s.stack t' := by
  have hs : Stacked (f :: rest) := by
    rw [← hstack]
    exact h.stacked t
  constructor
  · have hgo : ∀ {next : CopyUpPhase}, ({ f with phase := next } : CopyUpCall).cost < f.cost →
        stackCost ({ f with phase := next } :: rest) < stackCost (f :: rest) := by
      intro next hlt
      rw [stackCost_cons, stackCost_cons]
      omega
    have hreturn : ∀ ok, 0 < f.cost → stackCost (resume ok rest) < stackCost (f :: rest) := by
      intro ok hpos
      have hle := stackCost_resume hs ok
      rw [stackCost_cons]
      omega
    rw [hstack]
    cases hcan with
    | parentMissing hphase hne _ =>
      have hlen : f.path.dropLast.length + 1 = f.path.length := by
        have hpos := List.length_pos_iff.mpr hne
        rw [List.length_dropLast] at hpos ⊢
        omega
      have hcost : f.cost = 9 * f.path.length + 7 := by simp [CopyUpCall.cost, hphase]
      have hnew : ∀ id, (⟨id, .directory, f.path.dropLast, .reserving⟩ : CopyUpCall).cost
          = 9 * f.path.dropLast.length + 9 := fun _ => rfl
      have hself : ({ f with phase := .awaitingParent } : CopyUpCall).cost = 6 := rfl
      simp only [CopyUpProtocol.perform, CopyUpProtocol.setStack, Function.update_self,
        stackCost_cons, hnew, hself, hcost]
      omega
    | earlyHit hphase _ =>
      simpa [CopyUpProtocol.perform, CopyUpProtocol.setStack] using
        hreturn true (by simp [CopyUpCall.cost, hphase])
    | finish hphase =>
      simpa [CopyUpProtocol.perform, CopyUpProtocol.setStack] using
        hreturn _ (by simp [CopyUpCall.cost, hphase])
    | _ hphase =>
      simpa [CopyUpProtocol.perform, CopyUpProtocol.setStack] using
        hgo (by simp [CopyUpCall.cost, hphase])
  · intro t' hne
    cases m <;> simp [CopyUpProtocol.perform, CopyUpProtocol.setStack, CopyUpProtocol.setInFlight,
      CopyUpProtocol.setUpper, hne]

/-- The threads from `n` on have no call. -/
def CopyUpProtocol.Within (s : CopyUpProtocol) (n : Nat) : Prop := ∀ t, n ≤ t → s.stack t = []

def CopyUpProtocol.cost (s : CopyUpProtocol) (n : Nat) : Nat :=
  ∑ t ∈ Finset.range n, stackCost (s.stack t)

theorem CopyUpStep.cost_lt {event : CopyUpEvent} {n : Nat} (hstep : CopyUpStep s event s')
    (hinside : event.outside = false) (h : s.Reserved) (hn : s.Within n) :
    s'.Within n ∧ s'.cost n < s.cost n := by
  cases hstep with
  | call t kind p hidle => cases hinside
  | create q c _ => cases hinside
  | remove q => cases hinside
  | move hstack hcan =>
    rename_i t f rest m
    obtain ⟨hlt, hother⟩ := h.stackCost_perform hstack hcan
    have ht : t < n := by
      by_contra hge
      rw [hn t (Nat.le_of_not_lt hge)] at hstack
      cases hstack
    constructor
    · intro t' ht'
      rw [hother t' (by omega)]
      exact hn t' ht'
    · refine Finset.sum_lt_sum ?_ ⟨t, Finset.mem_range.mpr ht, hlt⟩
      intro t' _
      by_cases heq : t' = t
      · subst heq
        exact Nat.le_of_lt hlt
      · rw [hother t' heq]

/-- A run of moves is no longer than the cost of the state it starts in. -/
theorem CopyUpRun.length_le {events : List CopyUpEvent} {n : Nat} (hrun : CopyUpRun s events s')
    (hinside : ∀ e ∈ events, e.outside = false) (h : s.Reserved) (hn : s.Within n) :
    s'.Within n ∧ events.length + s'.cost n ≤ s.cost n := by
  induction hrun with
  | refl => exact ⟨hn, by simp⟩
  | tail hrun hstep ih =>
    obtain ⟨hwithin, hle⟩ := ih fun e he => hinside e (List.mem_cons_of_mem _ he)
    obtain ⟨hwithin', hlt⟩ :=
      hstep.cost_lt (hinside _ (List.mem_cons_self ..)) (reserved_of_run h hrun) hwithin
    refine ⟨hwithin', ?_⟩
    rw [List.length_cons]
    omega

theorem CopyUpStep.within {event : CopyUpEvent} {n : Nat} (hstep : CopyUpStep s event s')
    (h : s.Reserved) (hn : s.Within n) : ∃ n', s'.Within n' := by
  cases hstep with
  | call t kind p hidle =>
    refine ⟨max n (t + 1), fun t' ht' => ?_⟩
    have hne : t' ≠ t := by omega
    simpa [CopyUpProtocol.setStack, hne] using hn t' (by omega)
  | create q c _ => exact ⟨n, hn⟩
  | remove q => exact ⟨n, hn⟩
  | move hstack hcan =>
    exact ⟨n, (CopyUpStep.cost_lt (.move hstack hcan) (CopyUpMove.event_inside _ _) h hn).1⟩

theorem CopyUpRun.within {events : List CopyUpEvent} {n : Nat} (hrun : CopyUpRun s events s')
    (h : s.Reserved) (hn : s.Within n) : ∃ n', s'.Within n' := by
  induction hrun with
  | refl => exact ⟨n, hn⟩
  | tail hrun hstep ih =>
    obtain ⟨n', hn'⟩ := ih
    exact hstep.within (reserved_of_run h hrun) hn'

/-! ## Calls that have not returned -/

def CopyUpProtocol.Running (s : CopyUpProtocol) (id : Nat) : Prop :=
  ∃ t, ∃ f ∈ s.stack t, f.id = id

/-- A resumed caller keeps its id. -/
theorem running_resume {ok : Bool} {id : Nat} (h : ∃ g ∈ rest, g.id = id) :
    ∃ g ∈ resume ok rest, g.id = id := by
  obtain ⟨g, hg, hid⟩ := h
  cases rest with
  | nil => cases hg
  | cons g₀ rest =>
    rcases List.mem_cons.mp hg with rfl | hg
    · exact ⟨_, List.mem_cons_self .., hid⟩
    · exact ⟨g, List.mem_cons_of_mem _ hg, hid⟩

theorem running_setStack {fs : List CopyUpCall} {id : Nat} (h : s.Running id)
    (hfs : (∃ g ∈ s.stack t, g.id = id) → ∃ g ∈ fs, g.id = id) : (s.setStack t fs).Running id := by
  obtain ⟨t', g, hg, hid⟩ := h
  by_cases heq : t' = t
  · subst heq
    obtain ⟨g', hg', hid'⟩ := hfs ⟨g, hg, hid⟩
    exact ⟨t', g', by simpa [CopyUpProtocol.setStack] using hg', hid'⟩
  · exact ⟨t', g, by simpa [CopyUpProtocol.setStack, heq] using hg, hid⟩

/-- A call stays on a stack until it returns. -/
theorem CopyUpStep.running_or_returned {event : CopyUpEvent} {id : Nat}
    (hstep : CopyUpStep s event s') (h : s.Running id) :
    s'.Running id ∨ ∃ ok, event = .returned id ok := by
  cases hstep with
  | call t kind p hidle =>
    left
    refine running_setStack (s := { s with nextId := s.nextId + 1 }) h ?_
    rintro ⟨g, hg, -⟩
    have hg' : g ∈ s.stack t := hg
    rw [hidle] at hg'
    cases hg'
  | create q c _ => exact Or.inl h
  | remove q => exact Or.inl h
  | move hstack hcan =>
    rename_i t f rest m
    have hgo : ∀ next : CopyUpPhase, (∃ g ∈ s.stack t, g.id = id) →
        ∃ g ∈ ({ f with phase := next } : CopyUpCall) :: rest, g.id = id := by
      rintro next ⟨g, hg, hid⟩
      rw [hstack] at hg
      rcases List.mem_cons.mp hg with rfl | hg
      · exact ⟨_, List.mem_cons_self .., hid⟩
      · exact ⟨g, List.mem_cons_of_mem _ hg, hid⟩
    have hreturn : ∀ ok, f.id ≠ id → (∃ g ∈ s.stack t, g.id = id) →
        ∃ g ∈ resume ok rest, g.id = id := by
      rintro ok hne ⟨g, hg, hid⟩
      rw [hstack] at hg
      rcases List.mem_cons.mp hg with rfl | hg
      · exact absurd hid hne
      · exact running_resume ⟨g, hg, hid⟩
    cases m with
    | finish ok =>
      by_cases hid : f.id = id
      · exact Or.inr ⟨ok, by rw [← hid]; rfl⟩
      · exact Or.inl (running_setStack (s := s.setInFlight f.path false) h (hreturn ok hid))
    | leave =>
      by_cases hid : f.id = id
      · exact Or.inr ⟨true, by rw [← hid]; rfl⟩
      · exact Or.inl (running_setStack h (hreturn true hid))
    | goOn next => exact Or.inl (running_setStack h (hgo next))
    | reserve => exact Or.inl (running_setStack (s := s.setInFlight f.path true) h (hgo _))
    | commit => exact Or.inl (running_setStack (s := s.setUpper f.path _) h (hgo _))
    | fill => exact Or.inl (running_setStack (s := s.setUpper f.path .full) h (hgo _))
    | failFill => exact Or.inl (running_setStack h (hgo _))
    | callParent =>
      refine Or.inl (running_setStack (s := { s with nextId := s.nextId + 1 }) h ?_)
      intro hmem
      obtain ⟨g, hg, hid⟩ := hgo .awaitingParent hmem
      exact ⟨g, List.mem_cons_of_mem _ hg, hid⟩

theorem CopyUpRun.running_or_returned {events : List CopyUpEvent} {id : Nat}
    (hrun : CopyUpRun s events s') (h : s.Running id) :
    s'.Running id ∨ ∃ ok, .returned id ok ∈ events := by
  induction hrun with
  | refl => exact Or.inl h
  | tail hrun hstep ih =>
    rcases ih with hrunning | ⟨ok, hmem⟩
    · rcases hstep.running_or_returned hrunning with hrunning | ⟨ok, rfl⟩
      · exact Or.inl hrunning
      · exact Or.inr ⟨ok, List.mem_cons_self ..⟩
    · exact Or.inr ⟨ok, List.mem_cons_of_mem _ hmem⟩

/-! ## Calls that waited for a commit -/

/-- The call `id` waits for the reservation of `p`. -/
def CopyUpProtocol.Waits (s : CopyUpProtocol) (kind : CopyUpKind) (p : RelPath) (id : Nat) : Prop :=
  ∃ t, ∃ f ∈ s.stack t, f.phase = .reserving ∧ f.id = id ∧ f.kind = kind ∧ f.path = p

theorem CopyUpProtocol.Reserved.eq_of_id (h : s.Reserved) {t' : Nat} {g : CopyUpCall}
    (hf : f ∈ s.stack t) (hg : g ∈ s.stack t') (hid : f.id = g.id) : t = t' ∧ f = g := by
  have ht := h.sound.apart t t' _ (List.mem_map_of_mem hf) _ (List.mem_map_of_mem hg) hid
  subst ht
  have honce := h.sound.once t
  rw [CopyUpProtocol.claims, List.map_map] at honce
  exact ⟨rfl, List.inj_on_of_nodup_map honce hf hg hid⟩

/-- A call that waits for a path the upper holds is served. -/
theorem CopyUpProtocol.Reserved.servedRun (h : s.Reserved) {kind : CopyUpKind} {p : RelPath}
    {id : Nat} (hwaits : s.Waits kind p id) (hthere : (s.upper p).isSome = true) :
    ServedRun s kind p id [] := by
  obtain ⟨t, f, hf, hphase, rfl, rfl, rfl⟩ := hwaits
  have hself : ∀ t', ∀ g ∈ s.stack t', g.id = f.id → g = f :=
    fun t' g hg hid => (h.eq_of_id hg hf hid).2
  refine ⟨⟨hthere, h.sound.fresh t _ (List.mem_map_of_mem hf), ?_⟩, nofun, nofun, ?_, nofun⟩
  · intro t' g hg hid
    rw [hself t' g hg hid]
    exact ⟨rfl, rfl, by simp [CopyUpCall.servedPhase, hphase]⟩
  · intro t' g hg hid hp
    rw [hself t' g hg hid, hphase] at hp
    cases hp

/-- The call that commits is not one that waits. -/
theorem CopyUpStep.waits_of_commit {id id' : Nat} {kind : CopyUpKind} {p q : RelPath}
    (hstep : CopyUpStep s (.committed id p) s') (hwaits : s.Waits kind q id') :
    s'.Waits kind q id' := by
  generalize hevent : CopyUpEvent.committed id p = event at hstep
  obtain ⟨t', g, hg, hphase, hrest⟩ := hwaits
  cases hstep with
  | call => cases hevent
  | create => cases hevent
  | remove => cases hevent
  | move hstack hcan =>
    rename_i t f rest m
    cases hcan with
    | commit hp _ _ =>
      refine ⟨t', g, ?_, hphase, hrest⟩
      by_cases heq : t' = t
      · subst heq
        rw [hstack] at hg
        rcases List.mem_cons.mp hg with rfl | hg
        · rw [hp] at hphase
          cases hphase
        · simp [CopyUpProtocol.perform, CopyUpProtocol.setStack, hg]
      · simpa [CopyUpProtocol.perform, CopyUpProtocol.setStack, CopyUpProtocol.setUpper, heq]
          using hg
    | _ => cases hevent

/-- The call `id` commits nothing, and it returns success unless it is a `CompleteLazyCopyUp`
whose own fill failed. -/
structure FindsCopy (s : CopyUpProtocol) (kind : CopyUpKind) (id : Nat)
    (events : List CopyUpEvent) : Prop where
  commits : ∀ q, .committed id q ∉ events
  returns : ∀ ok, .returned id ok ∈ events →
    ok = true ∨ kind = .completeLazy ∧ .fillFailed id ∈ events
  running : s.Running id ∨ ∃ ok, .returned id ok ∈ events

theorem CopyUpProtocol.Reserved.findsCopy (h : s.Reserved) {kind : CopyUpKind} {p : RelPath}
    {id : Nat} {events : List CopyUpEvent} (hwaits : s.Waits kind p id)
    (hthere : (s.upper p).isSome = true) (hrun : CopyUpRun s events s')
    (hkeep : ∀ e ∈ events, e.removes p = false) : FindsCopy s' kind id events := by
  have hserved := (h.servedRun hwaits hthere).run h hrun hkeep
  refine ⟨hserved.commits, ?_, ?_⟩
  · intro ok hmem
    exact (hserved.returns ok hmem).imp_right fun hfail => ⟨hserved.fills hfail, hfail⟩
  · obtain ⟨t, f, hf, -, hid, -⟩ := hwaits
    exact hrun.running_or_returned ⟨t, f, hf, hid⟩

/-! ## The protocol -/

/-- What holds in every state of every run of copy-ups that starts with no call:

* one call at most holds the reservation of a path, a thread waits only for a proper
  ancestor of what it holds, and no threads wait for each other in a cycle;
* until something removes the entry, one call at most commits at a path and one at most
  fills the shell there;
* a call that waits while another call commits, or while the upper holds the path,
  finds that copy;
* without new calls the calls come to an end, and they stop only when all have returned. -/
theorem copyUp_reservations {s₀ : CopyUpProtocol} {past : List CopyUpEvent} (hidle : s₀.Idle)
    (hpast : CopyUpRun s₀ past s) :
    ((∀ t t' f f', f ∈ s.stack t → f' ∈ s.stack t' → f.holds = true → f'.holds = true →
        f.path = f'.path → t = t' ∧ f = f') ∧
      (∀ t p q, s.WaitsFor t p → s.HoldsPath t q → p <+: q ∧ p ≠ q) ∧
      ∀ t, ¬Relation.TransGen (fun t t' => ∃ p, s.WaitsFor t p ∧ s.HoldsPath t' p) t t) ∧
    (∀ p events u, CopyUpRun s events u → (∀ e ∈ events, e.removes p = false) →
      events.countP (CopyUpEvent.commitsAt p) ≤ 1 ∧ events.countP (CopyUpEvent.fillsAt p) ≤ 1) ∧
    ((∀ p id u, CopyUpStep s (.committed id p) u → ∀ kind id', s.Waits kind p id' →
        ∀ events v, CopyUpRun u events v → (∀ e ∈ events, e.removes p = false) →
          FindsCopy v kind id' events) ∧
      ∀ p, (s.upper p).isSome = true → ∀ kind id, s.Waits kind p id →
        ∀ events v, CopyUpRun s events v → (∀ e ∈ events, e.removes p = false) →
          FindsCopy v kind id events) ∧
    ∃ bound, ∀ events u, CopyUpRun s events u → (∀ e ∈ events, e.outside = false) →
      events.length ≤ bound ∧
      ((∀ event v, CopyUpStep u event v → event.outside = true) → ∀ t, u.stack t = []) := by
  have hreserved := reserved_of_run (reserved_of_idle hidle) hpast
  refine ⟨⟨?_, ?_, hreserved.no_waiting_cycle⟩, ?_, ⟨?_, ?_⟩, ?_⟩
  · intro t t' f f' hf hf' hholds hholds' hpath
    exact hreserved.eq_of_id hf hf' (hreserved.one_holder hf hf' hholds hholds' hpath).2
  · intro t p q hwaits hholds
    obtain ⟨habove, hlt⟩ := hreserved.waits_above hwaits hholds
    refine ⟨habove, ?_⟩
    rintro rfl
    omega
  · intro p events u hrun hkeep
    exact ⟨one_commit hrun hkeep, one_fill hrun hkeep⟩
  · intro p id u hcommit kind id' hwaits events v hrun hkeep
    have hthere := (hcommit.commits (decide_eq_true rfl)).2
    exact (hcommit.reserved hreserved).findsCopy (hcommit.waits_of_commit hwaits) hthere
      hrun hkeep
  · intro p hthere kind id hwaits events v hrun hkeep
    exact hreserved.findsCopy hwaits hthere hrun hkeep
  · obtain ⟨n, hn⟩ := hpast.within (reserved_of_idle hidle) (n := 0) fun t _ => hidle.1 t
    refine ⟨s.cost n, fun events u hrun hinside => ⟨?_, ?_⟩⟩
    · have hle := (hrun.length_le hinside hreserved hn).2
      omega
    · intro hstuck t
      by_contra hwork
      obtain ⟨event, v, hstep, hin⟩ := (reserved_of_run hreserved hrun).some_call_can_move hwork
      rw [hstuck event v hstep] at hin
      cases hin

/-- The layers before any call, with nothing in the upper. -/
def noCalls : CopyUpProtocol := ⟨fun _ => none, fun _ => false, fun _ => [], 0⟩

theorem noCalls_idle : noCalls.Idle := ⟨fun _ => rfl, fun _ => rfl⟩

/-- `CopyUpFile` waits while `CopyUpMetadataOnly` commits the same path. -/
theorem copyUp_reservations_two_calls :
    ∃ past s u, CopyUpRun noCalls past s ∧ CopyUpStep s (.committed 0 [['a']]) u ∧
      s.Waits .file [['a']] 1 ∧
      ∀ events v, CopyUpRun u events v → (∀ e ∈ events, e.removes [['a']] = false) →
        FindsCopy v .file 1 events := by
  have hpast : ∃ past s u, CopyUpRun noCalls past s ∧ CopyUpStep s (.committed 0 [['a']]) u ∧
      s.Waits .file [['a']] 1 := by
    refine ⟨_, _, _, .tail (.tail (.tail (.tail (.tail (.tail (.tail (.tail .refl
        (.call 0 .metadataOnly [['a']] rfl))
        (.call 1 .file [['a']] rfl))
        (.move (t := 0) rfl (.earlyMiss rfl rfl)))
        (.move (t := 0) rfl (.reserve rfl rfl)))
        (.move (t := 0) rfl (.notThere rfl nofun rfl)))
        (.move (t := 0) rfl (.parentThere rfl (Or.inl rfl))))
        (.move (t := 0) rfl (.ready rfl)))
        (.move (t := 0) rfl (.staged rfl)),
      .move (t := 0) (f := ⟨0, .metadataOnly, [['a']], .committing⟩) rfl
        (.commit rfl rfl (Or.inl rfl)), ?_⟩
    exact ⟨1, _, List.mem_cons_self .., rfl, rfl, rfl, rfl⟩
  obtain ⟨past, s, u, hrun, hcommit, hwaits⟩ := hpast
  have hfinds := (copyUp_reservations noCalls_idle hrun).2.2.1.1 _ _ _ hcommit _ _ hwaits
  exact ⟨past, s, u, hrun, hcommit, hwaits, hfinds⟩

/-- A `CompleteLazyCopyUp` that waited for the commit of a shell fails when it cannot fill
that shell. -/
theorem waited_call_fails :
    ∃ past s u events v, CopyUpRun noCalls past s ∧ CopyUpStep s (.committed 0 [['a']]) u ∧
      s.Waits .completeLazy [['a']] 1 ∧ CopyUpRun u events v ∧
      (∀ e ∈ events, e.removes [['a']] = false) ∧ .returned 1 false ∈ events := by
  refine ⟨_, _, _, _, _,
    .tail (.tail (.tail (.tail (.tail (.tail (.tail (.tail .refl
      (.call 0 .metadataOnly [['a']] rfl))
      (.call 1 .completeLazy [['a']] rfl))
      (.move (t := 0) rfl (.earlyMiss rfl rfl)))
      (.move (t := 0) rfl (.reserve rfl rfl)))
      (.move (t := 0) rfl (.notThere rfl nofun rfl)))
      (.move (t := 0) rfl (.parentThere rfl (Or.inl rfl))))
      (.move (t := 0) rfl (.ready rfl)))
      (.move (t := 0) rfl (.staged rfl)),
    .move (t := 0) (f := ⟨0, .metadataOnly, [['a']], .committing⟩) rfl
      (.commit rfl rfl (Or.inl rfl)),
    ⟨1, _, List.mem_cons_self .., rfl, rfl, rfl, rfl⟩,
    .tail (.tail (.tail (.tail (.tail .refl
      (.move (t := 0) rfl (.finish rfl)))
      (.move (t := 1) rfl (.reserve rfl rfl)))
      (.move (t := 1) rfl (.shell rfl rfl rfl)))
      (.move (t := 1) rfl (.notFilled rfl)))
      (.move (t := 1) rfl (.finish rfl)), ?_, ?_⟩
  · decide
  · decide

end LayerMount
