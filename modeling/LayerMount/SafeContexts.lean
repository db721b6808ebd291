import LayerMount.Handles
import LayerMount.IsolatedRename

/-!
# Contexts that write to no lower layer

A host handle is the other way to a file: one that is open on a file of a lower must not be
written through.  `SafeContext` is what keeps that so: a context whose path is on the upper has no
handle on a file that a lower owns, and a writable one has its path there.  This module shows that
opening, copying up and filling keep every context safe, and that a context is on the upper after
`EnsureInUpperLayer` (`ensureInUpperLayer_follows`).
-/

namespace LayerMount

open Lib

variable {e f g : Engine} {p q : RelPath} {t : Tree} {id : FileId} {h : Nat} {α β : Type}
  {ctx : FileContext} {lowers : List Place}

/-! ## Contexts -/

structure SafeContext (lowers : List Place) (ctx : FileContext) : Prop where
  writable : ctx.writable = true → ∃ p, ctx.actualPath = .upper p
  handle : ∀ p id, ctx.actualPath = .upper p → ctx.handle = some (.file id) → ¬Owns lowers id

/-- A context without a handle, that is writable only on the upper. -/
theorem safeContext_of_closed (hwritable : ctx.writable = true → ∃ p, ctx.actualPath = .upper p)
    (hclosed : ctx.handle = none) : SafeContext lowers ctx :=
  ⟨hwritable, fun _ _ _ hid => by rw [hclosed] at hid; cases hid⟩

/-- The layers are separate and every context is safe. -/
structure Engine.Confined (e : Engine) : Prop where
  separate : e.Separate
  contexts : ∀ ctx, some ctx ∈ e.contexts → SafeContext e.lowers ctx

structure Preserved (e g : Engine) : Prop where
  lowers : g.lowers = e.lowers
  files : ∀ id, Owns e.lowers id → fileAt g.files id = fileAt e.files id
  confined : g.Confined

/-- What a call on a confined engine does. -/
def Guarded (e g : Engine) : Prop := e.Confined → Preserved e g

instance : Std.Refl Guarded := ⟨fun _ he => ⟨rfl, fun _ _ => rfl, he⟩⟩

theorem Preserved.trans (h : Preserved e f) (h' : Preserved f g) : Preserved e g where
  lowers := h'.lowers.trans h.lowers
  files id hid := (h'.files id (h.lowers ▸ hid)).trans (h.files id hid)
  confined := h'.confined

instance : IsTrans Engine Guarded := ⟨fun _ _ _ h h' he => (h he).trans (h' (h he).confined)⟩

/-- The operation keeps the engine confined, from every state and with every result. -/
abbrev Guards (m : Op α) : Prop := Step.Keeps Guarded m

/-- What an operation on a confined engine follows, it keeps. -/
theorem Guards.of_follows {m : Op α} {Q : Engine → α → Engine → Prop}
    (h : ∀ e, e.Confined → m.Follows Guarded e (Q e)) : Guards m :=
  fun e he => (h e he).1 he

theorem Isolated.guarded (h : Isolated e g) : Guarded e g := by
  intro he
  obtain ⟨hlowers, hcontexts, -, hseparate, hfiles⟩ := h he.separate
  refine ⟨hlowers, hfiles, hseparate, ?_⟩
  rw [hcontexts, hlowers]
  exact he.contexts

theorem follows_guarded {m : Op α} {Q : α → Engine → Prop} (h : m.Follows Isolated e Q) :
    m.Follows Guarded e Q :=
  ⟨h.1.guarded, h.2⟩

theorem isolates_guards {m : Op α} (h : Isolates m) : Guards m := fun e => (h e).guarded

theorem isolated_contexts (contexts : List (Option FileContext)) :
    e.Separate → ({ e with contexts } : Engine).Separate :=
  fun ⟨hupper, hlowers, hlinks, horigins⟩ => ⟨hupper, hlowers, hlinks, horigins⟩

/-- A change of the contexts alone. -/
theorem guarded_contexts {contexts : List (Option FileContext)}
    (hsafe : e.Confined → ∀ ctx, some ctx ∈ contexts → SafeContext e.lowers ctx) :
    Guarded e { e with contexts } :=
  fun he => ⟨rfl, fun _ _ => rfl, isolated_contexts contexts he.separate, hsafe he⟩

theorem mem_modify {l : List (Option FileContext)} {change : FileContext → FileContext}
    (hmem : some ctx ∈ l.modify h (Option.map change)) :
    some ctx ∈ l ∨ ∃ old, l.getD h none = some old ∧ ctx = change old := by
  obtain ⟨i, hi⟩ := List.mem_iff_getElem?.mp hmem
  by_cases heq : h = i
  · rw [← heq, List.getElem?_modify_eq] at hi
    rw [List.getD_eq_getElem?_getD]
    cases hslot : l[h]? with
    | none => rw [hslot] at hi; cases hi
    | some slot =>
      cases slot with
      | none => rw [hslot] at hi; cases hi
      | some old =>
        rw [hslot] at hi
        exact .inr ⟨old, rfl, (Option.some.inj (Option.some.inj hi)).symm⟩
  · rw [List.getElem?_modify_ne _ _ heq] at hi
    exact .inl (List.mem_of_getElem? hi)

theorem mem_of_getD (hctx : e.contexts.getD h none = some ctx) : some ctx ∈ e.contexts := by
  rw [List.getD_eq_getElem?_getD] at hctx
  refine List.mem_of_getElem? (i := h) ?_
  cases hslot : e.contexts[h]? with
  | none => rw [hslot] at hctx; cases hctx
  | some slot => rw [hslot] at hctx; exact congrArg some hctx

/-- The context `h` changes to one that is safe. -/
theorem guarded_modify {change : FileContext → FileContext}
    (hsafe : ∀ old, e.contexts.getD h none = some old → SafeContext e.lowers old →
      e.Separate → SafeContext e.lowers (change old)) :
    Guarded e { e with contexts := e.contexts.modify h (Option.map change) } := by
  refine guarded_contexts fun he ctx hmem => ?_
  rcases mem_modify hmem with hmem | ⟨old, hold, rfl⟩
  · exact he.contexts ctx hmem
  · exact hsafe old hold (he.contexts old (mem_of_getD hold)) he.separate

namespace Context

/-! ## Handles -/

/-- The context `h` has its path on the upper. -/
def OnUpper (h : Nat) (e : Engine) : Prop :=
  ∀ ctx, e.contexts.getD h none = some ctx → ∃ p, ctx.actualPath = .upper p

/-- The context `h` has no handle. -/
def Closed (h : Nat) (e : Engine) : Prop :=
  ∀ ctx, e.contexts.getD h none = some ctx → ctx.handle = none

theorem get_follows (h : Nat) (e : Engine) :
    (get h).Follows Guarded e fun ctx g => g = e ∧ e.contexts.getD h none = some ctx := by
  apply Step.Follows.get
  cases hctx : e.contexts.getD h none with
  | none => exact Step.Follows.fail
  | some ctx => exact Step.Follows.pure ⟨rfl, rfl⟩

/-- What the changed context is like. -/
theorem getD_modify {change : FileContext → FileContext}
    (hctx : (e.contexts.modify h (Option.map change)).getD h none = some ctx) :
    ∃ old, e.contexts.getD h none = some old ∧ ctx = change old := by
  rw [List.getD_eq_getElem?_getD, List.getElem?_modify_eq] at hctx
  rw [List.getD_eq_getElem?_getD]
  cases hslot : e.contexts[h]? with
  | none => rw [hslot] at hctx; cases hctx
  | some slot =>
    rw [hslot] at hctx
    cases slot with
    | none => cases hctx
    | some old => exact ⟨old, rfl, (Option.some.inj hctx).symm⟩

/-- A change of flags that keeps the path and the handle. -/
theorem modifyFlags_follows {change : FileContext → FileContext} {P : FileContext → Prop}
    (hpath : ∀ ctx, (change ctx).actualPath = ctx.actualPath)
    (hhandle : ∀ ctx, (change ctx).handle = ctx.handle)
    (hwritable : ∀ ctx, (change ctx).writable = ctx.writable)
    (hkeep : ∀ ctx, P ctx → P (change ctx))
    (hP : ∀ ctx, e.contexts.getD h none = some ctx → P ctx) :
    (modify h change).Follows Guarded e fun _ g =>
      ∀ ctx, g.contexts.getD h none = some ctx → P ctx := by
  refine Step.Follows.modify (guarded_modify fun old _ hold _ => ⟨?_, ?_⟩) fun ctx hctx => ?_
  · rw [hwritable, hpath]
    exact hold.writable
  · rw [hhandle, hpath]
    exact hold.handle
  · obtain ⟨old, hold, rfl⟩ := getD_modify hctx
    exact hkeep old (hP old hold)

theorem modifyFlags_guards {change : FileContext → FileContext}
    (hpath : ∀ ctx, (change ctx).actualPath = ctx.actualPath)
    (hhandle : ∀ ctx, (change ctx).handle = ctx.handle)
    (hwritable : ∀ ctx, (change ctx).writable = ctx.writable) : Guards (modify h change) :=
  fun _ => (modifyFlags_follows (P := fun _ => True) hpath hhandle hwritable (fun _ _ => trivial)
    fun _ _ => trivial).1

theorem closeHandle_follows (h : Nat) (e : Engine) :
    (closeHandle h).Follows Guarded e fun _ g => Closed h g := by
  refine Step.Follows.modify (guarded_modify fun old _ hold _ => ?_) fun ctx hctx => ?_
  · exact safeContext_of_closed hold.writable rfl
  · obtain ⟨old, -, rfl⟩ := getD_modify hctx
    rfl

/-- The handle that opens on an upper path is on a file of the upper. -/
theorem safeContext_opened (he : e.Separate) (hsafe : SafeContext e.lowers ctx)
    (ht : placeOf e ctx.actualPath = some t) :
    SafeContext e.lowers
      { ctx with handle := some (hostHandleOn t), handleNeedsReopen := false } := by
  refine ⟨hsafe.writable, fun p id hp hid => he.fileOf_upperAt (p := p) ?_⟩
  have hp : ctx.actualPath = .upper p := hp
  rw [hp] at ht
  rw [show e.upperAt p = some t from ht]
  cases t with
  | node v children => cases hid
  | leaf v =>
    cases v with
    | file i => exact congrArg some (HostHandle.file.inj (Option.some.inj hid))
    | deadLink => cases hid
    | marker => cases hid

/-- Opening keeps where the path of the context is. -/
theorem openHandle_follows (h : Nat) (e : Engine) :
    (openHandle h).Follows Guarded e fun _ g => OnUpper h e → OnUpper h g := by
  have hclose : (closeHandle h).Follows Guarded e fun _ g => OnUpper h e → OnUpper h g := by
    refine Step.Follows.modify (guarded_modify fun old _ hold _ =>
      safeContext_of_closed hold.writable rfl) fun hup ctx hctx => ?_
    obtain ⟨old, hold, rfl⟩ := getD_modify hctx
    exact hup old hold
  refine Step.Follows.bind hclose fun _ f _ hf => ?_
  refine Step.Follows.bind (get_follows h f) fun ctx f' _ hctx => ?_
  obtain ⟨rfl, hctx⟩ := hctx
  apply Step.Follows.get
  cases ht : placeOf f' ctx.actualPath with
  | none => exact Step.Follows.fail
  | some t =>
    refine Step.Follows.modify (guarded_modify fun old hold hsafe he => ?_) fun hup ctx hctx' => ?_
    · obtain rfl := Option.some.inj (hold.symm.trans hctx)
      exact safeContext_opened he hsafe ht
    · obtain ⟨old, hold, rfl⟩ := getD_modify hctx'
      exact hf hup old hold

theorem openHandle_guards (h : Nat) : Guards (openHandle h) := fun e => (openHandle_follows h e).1

theorem ensureHandleReady_follows (h : Nat) (e : Engine) :
    (ensureHandleReady h).Follows Guarded e fun _ g => OnUpper h e → OnUpper h g := by
  refine Step.Follows.bind (get_follows h e) fun ctx f _ hctx => ?_
  obtain ⟨rfl, -⟩ := hctx
  exact Step.Follows.ite (fun _ => Step.Follows.pure id) fun _ => openHandle_follows h f

/-- Reopening closes the handle first, so a change before it may as well. -/
theorem modify_reopenHandle (change : FileContext → FileContext) :
    (do
      modify h change
      reopenHandle h : Op Unit) e = (do
      modify h fun ctx => { change ctx with handle := none }
      reopenHandle h : Op Unit) e := by
  have hclose : (e.contexts.modify h (Option.map change)).modify h
        (Option.map fun ctx => { ctx with handle := none })
      = (e.contexts.modify h (Option.map fun ctx => { change ctx with handle := none })).modify h
        (Option.map fun ctx => { ctx with handle := none }) := by
    rw [List.modify_modify_eq, List.modify_modify_eq, Option.map_comp_map, Option.map_comp_map]
    rfl
  simp only [modify, reopenHandle, openHandle, closeHandle, Op.modify, Step.modify_bind, hclose]

/-- The context moves to the upper and opens there. -/
theorem moveToUpper_follows (h : Nat) (p : RelPath) (e : Engine) :
    (do
      modify h fun ctx => { ctx with actualPath := .upper p, writable := true }
      reopenHandle h : Op Unit).Follows Guarded e fun _ g => OnUpper h g := by
  rw [Step.Follows, Step.Ensures, modify_reopenHandle]
  refine Step.Follows.bind (P := fun _ g => OnUpper h g) (Step.Follows.modify (guarded_modify
    fun old _ _ _ => safeContext_of_closed (fun _ => ⟨p, rfl⟩) rfl) fun ctx hctx => ?_)
    fun _ f _ hf => (openHandle_follows h f).mono fun _ _ _ hup => hup hf
  obtain ⟨old, -, rfl⟩ := getD_modify hctx
  exact ⟨p, rfl⟩

/-! ## Copy-up through a context -/

theorem fillShell_guards (p : RelPath) (h : Nat) : Guards (fillShell p h) :=
  Step.Keeps.bind (isolates_guards (CopyUp.completeLazyCopyUp_isolates p)) fun _ =>
    modifyFlags_guards (fun _ => rfl) (fun _ => rfl) fun _ => rfl

theorem readMetacopyFlag_guards (p : RelPath) (h : Nat) : Guards (readMetacopyFlag p h) :=
  Step.Keeps.get fun _ => modifyFlags_guards (fun _ => rfl) (fun _ => rfl) fun _ => rfl

theorem get_guards (h : Nat) : Guards (get h) := fun e => (get_follows h e).1

theorem fillShellForDataAccess_guards (p : RelPath) (h : Nat) :
    Guards (fillShellForDataAccess p h) :=
  Step.Keeps.bind (get_guards h) fun _ =>
    Step.Keeps.ite (fillShell_guards p h) (Step.Keeps.pure ())

/-- A step on the layers keeps the contexts. -/
theorem isolates_follows {m : Op α} (hm : Isolates m) (he : e.Confined) :
    m.Follows Guarded e fun _ g => g.contexts = e.contexts :=
  ⟨(hm e).guarded, fun _ _ => (hm e he.separate).contexts⟩

theorem onUpper_of_contexts (hcontexts : g.contexts = e.contexts) (hup : OnUpper h e) :
    OnUpper h g := by
  rw [OnUpper, hcontexts]
  exact hup

theorem closed_of_contexts (hcontexts : g.contexts = e.contexts) (hclosed : Closed h e) :
    Closed h g := by
  rw [Closed, hcontexts]
  exact hclosed

theorem fillShell_follows (he : e.Confined) (p : RelPath) (hup : OnUpper h e) :
    (fillShell p h).Follows Guarded e fun _ g => OnUpper h g := by
  refine Step.Follows.bind (isolates_follows (CopyUp.completeLazyCopyUp_isolates p) he)
    fun _ f _ hf => ?_
  exact modifyFlags_follows (fun _ => rfl) (fun _ => rfl) (fun _ => rfl) (fun _ hp => hp)
    (onUpper_of_contexts hf hup)

theorem ensureMetacopyMaterialized_follows (he : e.Confined) (hup : OnUpper h e) :
    (ensureMetacopyMaterialized h).Follows Guarded e fun _ g => OnUpper h g := by
  refine Step.Follows.bind (get_follows h e) fun ctx f _ hctx => ?_
  obtain ⟨rfl, -⟩ := hctx
  refine Step.Follows.ite (fun _ => Step.Follows.pure hup) fun _ => ?_
  exact Step.Follows.bind (fillShell_follows he _ hup) fun _ g _ hg =>
    (openHandle_follows h g).mono fun _ _ _ hup => hup hg

theorem copyUpForHandle_follows (he : e.Confined) (hclosed : Closed h e) (p : RelPath)
    (shellOnlyAboveBytes : Option Nat) :
    (copyUpForHandle p h shellOnlyAboveBytes).Follows Guarded e fun _ g => Closed h g := by
  refine Step.Follows.bind (get_follows h e) fun ctx f _ hctx => ?_
  obtain ⟨rfl, -⟩ := hctx
  refine Step.Follows.ite (fun _ => ?_) fun _ => ?_
  · exact (isolates_follows (CopyUp.copyUpDirectory_isolates p) he).mono fun _ _ _ hg =>
      closed_of_contexts hg hclosed
  · refine Step.Follows.bind (isolates_follows (CopyUp.copyUpFileOrShell_isolates p _) he)
      fun copied g _ hg => ?_
    have hclosed := closed_of_contexts hg hclosed
    refine Step.Follows.ite (fun _ => ?_) fun _ => Step.Follows.pure hclosed
    exact modifyFlags_follows (fun _ => rfl) (fun _ => rfl) (fun _ => rfl) (fun _ hp => hp) hclosed

theorem copyUpForHandle_guards (p : RelPath) (h : Nat) (shellOnlyAboveBytes : Option Nat) :
    Guards (copyUpForHandle p h shellOnlyAboveBytes) :=
  Step.Keeps.bind (get_guards h) fun _ =>
    Step.Keeps.ite (isolates_guards (CopyUp.copyUpDirectory_isolates p)) <|
      Step.Keeps.bind (isolates_guards (CopyUp.copyUpFileOrShell_isolates p _)) fun _ =>
        Step.Keeps.ite (modifyFlags_guards (fun _ => rfl) (fun _ => rfl) fun _ => rfl)
          (Step.Keeps.pure ())

/-- After `EnsureInUpperLayer` the context is on the upper. -/
theorem ensureInUpperLayer_follows (he : e.Confined) (h : Nat) :
    (ensureInUpperLayer h).Follows Guarded e fun _ g => OnUpper h g := by
  refine Step.Follows.bind (get_follows h e) fun ctx f _ hctx => ?_
  obtain ⟨rfl, hctx⟩ := hctx
  have hself : ∀ {p}, ctx.actualPath = .upper p → OnUpper h f := by
    intro p hp ctx' hctx'
    obtain rfl := Option.some.inj (hctx.symm.trans hctx')
    exact ⟨p, hp⟩
  refine Step.Follows.ite (fun hready => ?_) fun _ => ?_
  · simp only [Bool.and_eq_true] at hready
    obtain ⟨p, hp⟩ := (he.contexts ctx (mem_of_getD hctx)).writable hready.1.1
    exact Step.Follows.pure (hself hp)
  · refine Step.Follows.bind (isolates_follows (existsInUpper_isolates _) he) fun held k _ hk => ?_
    refine Step.Follows.ite (fun _ => Step.Follows.ite (fun hp => ?_) fun _ => ?_) fun _ => ?_
    · exact Step.Follows.pure (onUpper_of_contexts hk (hself hp))
    · refine Step.Follows.bind ((readMetacopyFlag_guards _ h).follows k) fun _ k _ _ => ?_
      refine Step.Follows.bind ((fillShellForDataAccess_guards _ h).follows k) fun _ k _ _ => ?_
      exact moveToUpper_follows h _ k
    · refine Step.Follows.bind ((copyUpForHandle_guards _ h none).follows k) fun _ k _ _ => ?_
      refine Step.Follows.bind ((fillShellForDataAccess_guards _ h).follows k) fun _ k _ _ => ?_
      exact moveToUpper_follows h _ k

/-! ## Open, create and close -/

/-- The new context is safe, and what it opens with keeps the engine confined. -/
theorem withNew_guards {rest : Nat → Op Unit} (hwritable : ctx.writable = true →
    ∃ p, ctx.actualPath = .upper p) (hclosed : ctx.handle = none)
    (hrest : ∀ h e, e.Confined → Closed h e → (rest h).Follows Guarded e fun _ _ => True) :
    Guards (withNew ctx rest) := by
  intro e he
  have hnew : (Op.modify fun e => { e with contexts := e.contexts ++ [some ctx] }).Follows Guarded e
      fun _ g => Closed e.contexts.length g := by
    refine Step.Follows.modify (guarded_contexts fun he old hmem => ?_) fun old hold => ?_
    · rcases List.mem_append.mp hmem with hmem | hmem
      · exact he.contexts old hmem
      · obtain rfl := Option.some.inj (List.mem_singleton.mp hmem)
        exact safeContext_of_closed hwritable hclosed
    · have hold : (e.contexts ++ [some ctx]).getD e.contexts.length none = some old := hold
      rw [List.getD_eq_getElem?_getD, List.getElem?_concat_length] at hold
      obtain rfl := Option.some.inj hold
      exact hclosed
  have hall : (withNew ctx rest).Follows Guarded e fun _ _ => True := by
    refine Step.Follows.get (Step.Follows.bind hnew fun _ f hf hclosed => ?_)
    refine Step.Follows.attempt_bind (hrest _ f (hf he).confined hclosed)
      (fun _ _ _ _ => Step.Follows.pure trivial) fun status g _ => ?_
    refine Step.Follows.bind (P := fun _ _ => True) (Step.Follows.modify ?_ trivial)
      fun _ _ _ _ => Step.Follows.fail
    refine guarded_contexts fun he old hmem => ?_
    rcases List.mem_or_eq_of_mem_set hmem with hmem | hmem
    · exact he.contexts old hmem
    · cases hmem
  exact hall.1 he

end Context

end LayerMount
