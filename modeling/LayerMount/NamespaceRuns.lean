import LayerMount.NamespaceCalls

/-!
# Runs of calls as runs of namespace changes

A create that succeeds puts an entry, a delete removes a subtree and a rename moves one
(`created_graft`, `deleted_graft`, `renamed_graft`).  `changesOf` reads the changes off a run, and
over any orderly run the kinds of the view are those that the changes give (`run_kinds`).
-/

namespace LayerMount

open Lib Lib.Namespace

variable {e f g : Engine} {d p q : RelPath} {n : Name} {h : Nat} {ctx : FileContext}

/-! ## Creates, deletes and renames -/

theorem kindAt_eq_map (e : Engine) : kindAt e = Namespace.map Shown.kind (viewAt e) := rfl

/-- A new entry has nothing below it. -/
theorem Created.nothing_below {directory : Bool} (hc : Created e g d n directory) (m : Name)
    (r : RelPath) : viewAt g (d ++ [n] ++ m :: r) = none := by
  cases directory with
  | false => exact viewAt_below_file (by simp) hc.shown m r
  | true =>
    have hempty : directoryEmptinessStatus g (d ++ [n]) = .ok () := by
      rw [directoryEmptinessStatus, hc.empty rfl]
      rfl
    rw [List.append_cons]
    exact viewAt_none_below (by simp) (viewAt_none_of_empty hempty m) r

/-- What a create shows at its path. -/
def shownNew (directory : Bool) : Shown := if directory then .directory else .file []

theorem Created.put {directory : Bool} (hc : Created e g d n directory) :
    viewAt g = (Change.put (d ++ [n]) (shownNew directory)).apply (viewAt e) := by
  refine eq_graft (fun r => ?_) hc.kept
  cases r with
  | nil => exact (congrArg (viewAt g) (List.append_nil _)).trans hc.shown
  | cons m r => exact hc.nothing_below m r

theorem Deleted.remove (hd : Deleted e g p) : viewAt g = (Change.remove p).apply (viewAt e) :=
  eq_graft hd.gone hd.kept

theorem Renamed.move (hr : Renamed e g p q) : viewAt g = (Change.move p q).apply (viewAt e) := by
  refine eq_graft hr.moved fun r hq => ?_
  by_cases hp : p <+: r
  · obtain ⟨x, rfl⟩ := hp
    rw [graft_at, hr.gone]
    rfl
  · rw [graft_off hp, hr.kept r hp hq]

/-- A create, when it succeeds, puts an entry at a free path. -/
theorem createPath_puts [HostCase] (he : e.Wf) (request : Context.CreateRequest) :
    (Context.createPath request).Yields e fun _ g =>
      viewAt e (viewPathOf request.path).norm = none ∧
        viewAt g = (Change.put (viewPathOf request.path).norm
          (shownNew request.directory)).apply (viewAt e) := by
  refine (createPath_ensures request he).yields fun h g hg => ?_
  rcases hg with ⟨d, n, hp, hfree, hcreated⟩ | ⟨⟨status, hfail⟩, -⟩
  · rw [hp]
    exact ⟨hfree h rfl, Created.put hcreated⟩
  · cases hfail

theorem deletePath_removes [HostCase] (path : CallerPath) (e : Engine) :
    (deletePath path).Yields e fun _ g => Deletable e (viewPathOf path).norm ∧
      viewAt g = (Change.remove (viewPathOf path).norm).apply (viewAt e) :=
  (deletePath_deletes path e).yields fun _ _ hg => ⟨(hg rfl).1, (hg rfl).2.2.remove⟩

theorem renamePath_moves [HostCase] (he : e.Wf) (oldPath newPath : CallerPath)
    (hne : (viewPathOf oldPath).norm ≠ (viewPathOf newPath).norm) (replace : Bool) :
    (Rename.renamePath oldPath newPath replace).Yields e fun _ g =>
      viewAt g = (Change.move (viewPathOf oldPath).norm (viewPathOf newPath).norm).apply
        (viewAt e) :=
  (renamePath_yields he oldPath newPath hne replace).mono fun _ _ hg => hg.2.move

/-! ## Deletes and renames of a context -/

namespace Context

theorem get_yields (h : Nat) (e : Engine) :
    (get h).Yields e fun ctx g => g = e ∧ e.contexts.getD h none = some ctx :=
  (get_follows_eq h e).yields

/-- No call on a context that is not there succeeds. -/
theorem absent_yields {α : Type} {rest : FileContext → Op α} {Q : α → Engine → Prop}
    (hctx : e.contexts.getD h none = none) : (get h >>= rest).Yields e Q :=
  Step.Yields.bind (get_yields h e) fun _ _ hf => by cases hctx.symm.trans hf.2

theorem delete_removes (hctx : e.contexts.getD h none = some ctx) (hroot : ctx.relativePath ≠ []) :
    (delete h).Yields e fun _ g =>
      viewAt g = (Change.remove ctx.relativePath).apply (viewAt e) := by
  refine Step.Yields.bind (get_yields h e) fun ctx' f hf => ?_
  obtain ⟨rfl, hctx'⟩ := hf
  obtain rfl := Option.some.inj (hctx.symm.trans hctx')
  refine Step.Yields.bind (P := fun _ g => Looked f g ∧ Deletable f ctx.relativePath)
    ((canDeleteEntry_ensures hroot f).yields fun _ _ hg => ⟨hg.1, (hg.2 rfl).1⟩) fun _ g hg => ?_
  obtain ⟨hlooked, hdel⟩ := hg
  obtain ⟨d, n, hp⟩ : ∃ d n, ctx.relativePath = d ++ [n] :=
    ⟨_, _, (List.dropLast_append_getLast hroot).symm⟩
  have hclosed : (modify h fun ctx => { ctx with handle := none, handleNeedsReopen := false }).Yields
      g fun _ k => SameLayers f k :=
    Step.Yields.modify (hlooked.toUntouched.sameLayers.trans (sameLayers_contexts g _))
  refine Step.Yields.bind hclosed fun _ k hk => ?_
  have hview := hk.viewAt
  rw [hp] at hdel ⊢
  refine (removeEntry_deletes (by rw [hview]; exact hdel.shown)).yields fun _ j hj => ?_
  exact (hj rfl).remove.trans (congrArg (Change.remove (d ++ [n])).apply (funext hview))

theorem rename_moves [HostCase] (he : e.Wf) (hctx : e.contexts.getD h none = some ctx)
    {path : CallerPath} (hself : (⟨ctx.relativePath⟩ : CallerPath) ≠ viewPathOf path)
    (hne : ctx.relativePath ≠ (viewPathOf path).norm) (replace : Bool) :
    (rename h path replace).Yields e fun _ g =>
      viewAt g = (Change.move ctx.relativePath (viewPathOf path).norm).apply (viewAt e) := by
  refine Step.Yields.bind (get_yields h e) fun ctx' f hf => ?_
  obtain ⟨rfl, hctx'⟩ := hf
  obtain rfl := Option.some.inj (hctx.symm.trans hctx')
  refine Step.Yields.bind (walkCallerPath_follows_kinds path .keep f).yields fun _ f' hf' => ?_
  obtain ⟨rfl, hf'⟩ := hf'
  refine Step.Yields.ite (fun hsame => absurd hsame hself) fun _ => ?_
  refine Step.Yields.bind (P := fun checked g => Untouched f' g ∧
    RenameChecked f' ctx.relativePath (viewPathOf path).norm replace checked)
    ((checkRename_ensures _ _ replace f').yields fun checked g hg =>
      ⟨hg.1.toUntouched, hg.2 checked rfl⟩) fun checked g hg => ?_
  obtain ⟨hg, hchecked⟩ := hg
  have hdot := dot_not_mem_viewPath path hchecked.parses
  have hchecked := hchecked.untouched hg
  have hlayers := hf'.sameLayers.trans hg.sameLayers
  apply Step.Yields.get
  have hclose : (closeHandle h).Yields g fun _ k => SameLayers f k ∧
      RenameChecked k ctx.relativePath (viewPathOf path).norm replace checked :=
    Step.Yields.modify ⟨hlayers.trans (sameLayers_contexts g _), renameChecked_contexts hchecked _⟩
  refine Step.Yields.bind hclose fun _ k hk => ?_
  obtain ⟨hk, hchecked⟩ := hk
  refine Step.Yields.attempt_bind (hchecked.renames (hk.wf he) hne hdot _) (fun renamed j hj => ?_)
    fun status j => ?_
  · refine Step.Yields.modify ?_
    have hmoved := hj.move.trans (congrArg (Change.move _ _).apply (funext hk.viewAt))
    exact (funext (sameLayers_contexts j _).viewAt).trans hmoved
  · exact Step.Yields.bind (P := fun _ _ => True) (Step.Yields.modify trivial) fun _ _ _ =>
      Step.Yields.fail

end Context

/-! ## Calls -/

/-- What a context is asked for, by its path. -/
def onContext (e : Engine) (h : Nat) (change : RelPath → Change Name EntryKind) :
    Change Name EntryKind :=
  match e.contexts.getD h none with
  | some ctx => change ctx.relativePath
  | none => .keep

theorem onContext_some {change : RelPath → Change Name EntryKind}
    (hctx : e.contexts.getD h none = some ctx) :
    onContext e h change = change ctx.relativePath := by
  rw [onContext, hctx]

theorem onContext_none {change : RelPath → Change Name EntryKind}
    (hctx : e.contexts.getD h none = none) : onContext e h change = .keep := by
  rw [onContext, hctx]

/-- The change that a call asks for. -/
def Call.asks [HostCase] (e : Engine) : Call → Change Name EntryKind
  | .create request => .put (viewPathOf request.path).norm (shownNew request.directory).kind
  | .delete path => .remove (viewPathOf path).norm
  | .deleteContext h => onContext e h .remove
  | .rename oldPath newPath _ => .move (viewPathOf oldPath).norm (viewPathOf newPath).norm
  | .renameContext h path _ => onContext e h fun p => .move p (viewPathOf path).norm
  | _ => .keep

/-- The change that a call makes: a call that fails makes none. -/
def Call.change [HostCase] (e : Engine) (call : Call) : Change Name EntryKind :=
  match (call.run e).1 with
  | .ok _ => call.asks e
  | .error _ => .keep

/-- The call succeeds, or leaves the upper as it was. -/
def Call.Settles [HostCase] (e : Engine) (call : Call) : Prop :=
  ∀ status, (call.run e).1 = .error status → (call.run e).2.upper = e.upper

/-- The calls that the namespace explains.  A write is through a context whose path still shows, a
rename is to another path, a marker is not written by hand, and no change of a name breaks off. -/
def Call.Orderly [HostCase] (e : Engine) : Call → Prop
  | .create request => Settles e (.create request)
  | .delete path => Settles e (.delete path)
  | .deleteContext h => Settles e (.deleteContext h) ∧
      ∀ ctx, e.contexts.getD h none = some ctx → ctx.relativePath ≠ []
  | .rename oldPath newPath replace => Settles e (.rename oldPath newPath replace) ∧
      (viewPathOf oldPath).norm ≠ (viewPathOf newPath).norm
  | .renameContext h path replace => Settles e (.renameContext h path replace) ∧
      ∀ ctx, e.contexts.getD h none = some ctx → ctx.relativePath ≠ (viewPathOf path).norm ∧
        ctx.relativePath ≠ (viewPathOf path).text
  | .write h _ => Fresh h e
  | .overwrite h _ => Fresh h e
  | .setInfo h _ => Fresh h e
  | .createWhiteout _ => False
  | .setOpaque _ => False
  | _ => True

theorem answering_keepsKinds {α : Type} {m : Op α} (hm : KeepsKinds m) (answer : α → Answer) :
    KeepsKinds (answering m answer) :=
  Step.Keeps.bind hm fun _ => Step.Keeps.pure _

theorem answering_sameKinds {α : Type} {m : Op α} (hm : SameKinds e (m e).2)
    (answer : α → Answer) : SameKinds e (answering m answer e).2 := by
  have hfollows : m.Follows SameKinds e fun _ _ => True := ⟨hm, fun _ _ => trivial⟩
  exact (Step.Follows.bind hfollows fun a f _ _ =>
    Step.Follows.pure (a := answer a) (Q := fun _ _ => True) trivial).1

theorem answering_yields {α : Type} {m : Op α} {Q : Engine → Prop} (hm : m.Yields e fun _ g => Q g)
    (answer : α → Answer) : (answering m answer).Yields e fun _ g => Q g :=
  Step.Yields.bind hm fun _ _ hg => Step.Yields.pure hg

/-- A call that keeps the kinds and asks for no change. -/
theorem Call.change_of_kept [HostCase] {call : Call} (hasks : call.asks e = .keep)
    (hkept : SameKinds e (call.run e).2) :
    kindAt (call.run e).2 = (call.change e).apply (kindAt e) := by
  have hkeep : call.change e = .keep := by
    rw [Call.change]
    split
    · exact hasks
    · rfl
  rw [hkeep]
  exact funext hkept

/-- A call that changes the view as it asks when it succeeds. -/
theorem Call.change_of_yields [HostCase] {call : Call} {c : Change Name Shown} (he : e.Confined)
    (hsettles : call.Settles e) (hasks : call.asks e = c.map Shown.kind)
    (hyields : call.run.Yields e fun _ g => viewAt g = c.apply (viewAt e)) :
    kindAt (call.run e).2 = (call.change e).apply (kindAt e) := by
  rw [Call.change]
  split
  · rename_i answer hok
    rw [kindAt_eq_map, hyields answer hok, Change.map_apply, hasks]
    rfl
  · rename_i status herr
    exact funext (sameKinds_of_upper (hsettles status herr) (call_guards call e he).lowers)

theorem call_kinds [HostCase] (he : e.Confined) {call : Call} (horderly : call.Orderly e) :
    kindAt (call.run e).2 = (call.change e).apply (kindAt e) := by
  have hwf := he.separate.wf
  cases call with
  | resolve path =>
    exact Call.change_of_kept rfl (answering_keepsKinds (resolveAt_keepsKinds path) _ e)
  | openPath path access finalLink =>
    exact Call.change_of_kept rfl
      (answering_sameKinds (Context.openPath_sameKinds hwf path access finalLink) _)
  | create request =>
    exact Call.change_of_yields (c := .put _ (shownNew request.directory)) he horderly rfl
      (answering_yields ((createPath_puts hwf request).mono fun _ _ hg => hg.2) _)
  | close h =>
    exact Call.change_of_kept rfl (answering_keepsKinds (Context.close_keepsKinds h) _ e)
  | cleanup h =>
    exact Call.change_of_kept rfl (answering_keepsKinds (Context.cleanup_keepsKinds h) _ e)
  | read h offset length =>
    exact Call.change_of_kept rfl
      (answering_keepsKinds (Context.read_keepsKinds h offset length) _ e)
  | write h request =>
    exact Call.change_of_kept rfl
      (answering_sameKinds (Context.write_follows_kinds hwf horderly request).1 _)
  | overwrite h request =>
    exact Call.change_of_kept rfl
      (answering_sameKinds (Context.overwrite_follows_kinds hwf horderly request).1 _)
  | setInfo h request =>
    exact Call.change_of_kept rfl
      (answering_sameKinds (Context.setInfo_follows_kinds hwf horderly request).1 _)
  | setSecurity path =>
    exact Call.change_of_kept rfl (answering_sameKinds (setSecurity_sameKinds hwf path) _)
  | ensureInUpper path =>
    exact Call.change_of_kept rfl
      (answering_sameKinds (ensurePathInUpperLayer_sameKinds hwf path) _)
  | delete path =>
    exact Call.change_of_yields (c := .remove _) he horderly rfl
      (answering_yields ((deletePath_removes path e).mono fun _ _ hg => hg.2) _)
  | deleteContext h =>
    obtain ⟨hsettles, hroot⟩ := horderly
    cases hctx : e.contexts.getD h none with
    | none =>
      exact Call.change_of_yields (c := .keep) he hsettles (onContext_none hctx)
        (answering_yields (Context.absent_yields hctx) _)
    | some ctx =>
      exact Call.change_of_yields (c := .remove ctx.relativePath) he hsettles
        (onContext_some hctx)
        (answering_yields (Context.delete_removes hctx (hroot ctx hctx)) _)
  | rename oldPath newPath replace =>
    exact Call.change_of_yields (c := .move _ _) he horderly.1 rfl
      (answering_yields (renamePath_moves hwf oldPath newPath horderly.2 replace) _)
  | renameContext h path replace =>
    obtain ⟨hsettles, hother⟩ := horderly
    cases hctx : e.contexts.getD h none with
    | none =>
      exact Call.change_of_yields (c := .keep) he hsettles
        (by rw [Call.asks, onContext_none hctx]; rfl)
        (answering_yields (Context.absent_yields hctx) _)
    | some ctx =>
      obtain ⟨hne, hself⟩ := hother ctx hctx
      exact Call.change_of_yields (c := .move ctx.relativePath _) he hsettles
        (by rw [Call.asks, onContext_some hctx]; rfl)
        (answering_yields
          (Context.rename_moves hwf hctx (fun h => hself (congrArg CallerPath.text h)) hne replace) _)
  | updatePath h path =>
    exact Call.change_of_kept rfl (answering_keepsKinds (Context.updatePath_keepsKinds h path) _ e)
  | createWhiteout path => exact horderly.elim
  | setOpaque path => exact horderly.elim

/-! ## Runs -/

/-- The changes that a run of calls makes. -/
def Engine.changes [HostCase] (e : Engine) : List Call → List (Change Name EntryKind)
  | [] => []
  | call :: rest => call.change e :: Engine.changes (call.run e).2 rest

/-- Every call of the run is orderly in the state that it meets. -/
def Engine.Orderly [HostCase] (e : Engine) : List Call → Prop
  | [] => True
  | call :: rest => call.Orderly e ∧ Engine.Orderly (call.run e).2 rest

/-- Over any orderly run of calls, the kinds of the merged view are those of a namespace to which
the calls that succeeded were applied one after another. -/
theorem run_kinds [HostCase] (he : e.Confined) (calls : List Call) (horderly : e.Orderly calls) :
    kindAt (e.run calls) = Change.applyAll (e.changes calls) (kindAt e) := by
  induction calls generalizing e with
  | nil => rfl
  | cons call rest ih =>
    obtain ⟨hcall, hrest⟩ := horderly
    rw [Engine.run, Engine.changes, Change.applyAll_cons, ← call_kinds he hcall]
    exact ih (call_guards call e he).confined hrest

theorem settles_of_isOk [HostCase] {call : Call} (hok : (call.run e).1.isOk = true) :
    call.Settles e := by
  intro status herr
  rw [herr] at hok
  cases hok

/-- A write through a handle, the rename of the directory above it, a delete, and a new directory in
place of what it removed. -/
def twoLayersNames : List Call :=
  [.openPath ⟨[['a'], ['c']]⟩ { readData := true, writeData := true } .follow,
    .write 0 { bytes := [7] }, .rename ⟨[['a']]⟩ ⟨[['z']]⟩ false, .delete ⟨[['z'], ['b']]⟩,
    .create { path := ⟨[['z'], ['b']]⟩, directory := true }]

open AsciiCase

theorem twoLayersNames_fresh : Fresh 0 (twoLayers.run (twoLayersNames.take 1)) := by
  have hcontexts : (twoLayers.run (twoLayersNames.take 1)).contexts = [some
      { handle := some (.file 2), actualPath := .upper [['a'], ['c']]
        relativePath := [['a'], ['c']], isDirectory := false, writable := true
        grantedAccess := { readData := true, writeData := true } }] := by decide +kernel
  intro ctx hctx
  rw [hcontexts] at hctx
  obtain rfl := Option.some.inj hctx
  exact ⟨by decide +kernel, fun hdir => by cases hdir⟩

theorem twoLayersNames_orderly : twoLayers.Orderly twoLayersNames :=
  ⟨trivial, twoLayersNames_fresh, ⟨settles_of_isOk (by decide +kernel), by decide⟩,
    settles_of_isOk (by decide +kernel), settles_of_isOk (by decide +kernel), trivial⟩

theorem run_kinds_twoLayers :
    twoLayers.changes twoLayersNames = [.keep, .keep, .move [['a']] [['z']],
      .remove [['z'], ['b']], .put [['z'], ['b']] .directory] ∧
    kindAt (twoLayers.run twoLayersNames) = Change.applyAll (twoLayers.changes twoLayersNames)
      (kindAt twoLayers) :=
  ⟨by decide +kernel, run_kinds twoLayers_confined twoLayersNames twoLayersNames_orderly⟩

/-- A path that a delete removed stays gone over every orderly run in which nothing is put at or
below it and nothing is moved at, above or below it. -/
theorem deleted_stays_gone [HostCase] {path : CallerPath} (he : e.Confined)
    (hdelete : deletePath path e = (.ok (), f)) (calls : List Call) (horderly : f.Orderly calls)
    (hreaches : ∀ change ∈ f.changes calls, ¬change.Reaches (viewPathOf path).norm)
    (r : RelPath) : viewAt (f.run calls) ((viewPathOf path).norm ++ r) = none := by
  have hf : f.Confined := by
    have hguards := (isolates_guards (deletePath_isolates path) e he).confined
    rwa [hdelete] at hguards
  have hgone : Gone (kindAt f) (viewPathOf path).norm := by
    obtain ⟨-, hremoved⟩ := (deletePath_removes path e).apply hdelete
    rw [kindAt_eq_map, hremoved, Change.map_apply]
    exact gone_graft_empty _ _
  have hrun := Change.gone_applyAll _ hgone hreaches
  rw [← run_kinds hf calls horderly] at hrun
  exact Option.map_eq_none_iff.mp (congrFun hrun r)

/-- The lower's file goes, its directory moves away, and the root gets a new file. -/
def afterDelete : Engine := (deletePath ⟨[['a'], ['c']]⟩ twoLayers).2

def afterDeleteCalls : List Call :=
  [.rename ⟨[['a']]⟩ ⟨[['z']]⟩ false, .create { path := ⟨[['n']]⟩ }]

theorem deleted_stays_gone_twoLayers :
    viewAt (afterDelete.run afterDeleteCalls) [['a'], ['c']] = none := by
  have hdelete : deletePath ⟨[['a'], ['c']]⟩ twoLayers = (.ok (), afterDelete) := rfl
  have hchanges : afterDelete.changes afterDeleteCalls
      = [.move [['a']] [['z']], .put [['n']] .file] := by decide +kernel
  have horderly : afterDelete.Orderly afterDeleteCalls :=
    ⟨⟨settles_of_isOk (by decide +kernel), by decide⟩, settles_of_isOk (by decide +kernel), trivial⟩
  refine deleted_stays_gone twoLayers_confined hdelete afterDeleteCalls horderly ?_ []
  rw [hchanges]
  decide

/-! ## Changes that undo each other -/

theorem gone_of_viewAt (hp : p ≠ []) (hfree : viewAt e p = none) : Gone (viewAt e) p :=
  funext (viewAt_none_below hp hfree)

/-- A rename that replaces nothing, and the rename back, leave the whole view as it was, whatever
the layers hold of it. -/
theorem rename_back [HostCase] {oldPath newPath : CallerPath} {replace : Bool} (he : e.Confined)
    (hthere : Rename.renamePath oldPath newPath false e = (.ok (), f))
    (hback : Rename.renamePath newPath oldPath replace f = (.ok (), g))
    (hne : (viewPathOf oldPath).norm ≠ (viewPathOf newPath).norm) (r : RelPath) :
    viewAt g r = viewAt e r := by
  have hf : f.Confined := by
    have hguards := isolates_guards (Rename.renamePath_isolates oldPath newPath false) e he
    rw [hthere] at hguards
    exact hguards.confined
  obtain ⟨⟨checked, hchecked⟩, hthere⟩ :=
    (renamePath_yields he.separate.wf oldPath newPath hne false).apply hthere
  have hback := (renamePath_moves hf.separate.wf newPath oldPath hne.symm replace).apply hback
  obtain ⟨v, -, -, hreplace⟩ := hchecked.source
  have hfree : viewAt e (viewPathOf newPath).norm = none := by
    rcases hreplace hne with hfree | ⟨hfalse, -⟩
    · exact hfree
    · cases hfalse
  have hapart := hchecked.apart hne
  have hgone := gone_of_viewAt hchecked.new_ne hfree
  exact congrFun (hback.trans ((congrArg _ hthere.move).trans
    (Change.move_back hapart.1 hapart.2 hgone))) r

theorem rename_back_twoLayers :
    viewAt (Rename.renamePath ⟨[['z']]⟩ ⟨[['a']]⟩ true
      (Rename.renamePath ⟨[['a']]⟩ ⟨[['z']]⟩ false twoLayers).2).2 [['a'], ['c']]
        = some (.file [2]) :=
  have hthere : Rename.renamePath ⟨[['a']]⟩ ⟨[['z']]⟩ false twoLayers
      = (.ok (), (Rename.renamePath ⟨[['a']]⟩ ⟨[['z']]⟩ false twoLayers).2) := rfl
  have hback : Rename.renamePath ⟨[['z']]⟩ ⟨[['a']]⟩ true
      (Rename.renamePath ⟨[['a']]⟩ ⟨[['z']]⟩ false twoLayers).2 = (.ok (), _) := rfl
  (rename_back twoLayers_confined hthere hback (by decide) [['a'], ['c']]).trans (by decide +kernel)

/-- A create and the delete of the new entry leave the whole view as it was: what the entry covered,
or a whiteout hid, stays hidden. -/
theorem create_then_delete [HostCase] {request : Context.CreateRequest} {path : CallerPath}
    (he : e.Wf) (hcreate : Context.createPath request e = (.ok h, f))
    (hdelete : deletePath path f = (.ok (), g))
    (hpath : (viewPathOf path).norm = (viewPathOf request.path).norm) (r : RelPath) :
    viewAt g r = viewAt e r := by
  obtain ⟨hfree, hput⟩ := (createPath_puts he request).apply hcreate
  obtain ⟨hdeletable, hremoved⟩ := (deletePath_removes path f).apply hdelete
  rw [hpath] at hdeletable hremoved
  exact congrFun (hremoved.trans ((congrArg _ hput).trans
    (Change.remove_put _ (gone_of_viewAt hdeletable.ne_nil hfree)))) r

/-- The lower's directory at `h` is whited out. -/
def whitedDirectory : Engine where
  upper := some (.node {} [(['.', 'w', 'h', '.', 'h'], .leaf .marker)])
  lowers := [some (.node {} [(['h'], .node {} [(['x'], .leaf (.file 0))])])]
  files := [{ data := [1] }]

theorem whitedDirectory_wf : whitedDirectory.Wf where
  upper := by
    refine namesBelow_node fun c hc => ?_
    rw [List.mem_singleton.mp hc]
    exact namesBelow_marker
  lowers := by
    intro o ho
    rw [List.mem_singleton.mp ho]
    refine namesBelow_node fun c hc => ?_
    rw [List.mem_singleton.mp hc]
    refine namesBelow_node fun c hc => ?_
    rw [List.mem_singleton.mp hc]
    exact namesBelow_leaf Nat.zero_lt_one
  origins := by
    intro f hf origin horigin
    rw [List.mem_singleton.mp hf] at horigin
    cases horigin

theorem create_then_delete_whitedDirectory :
    viewAt (deletePath ⟨[['h']]⟩ (Context.createPath { path := ⟨[['h']]⟩, directory := true }
      whitedDirectory).2).2 [['h'], ['x']] = none :=
  have hcreate : Context.createPath { path := ⟨[['h']]⟩, directory := true } whitedDirectory
      = (.ok 0, (Context.createPath { path := ⟨[['h']]⟩, directory := true } whitedDirectory).2) :=
    rfl
  (create_then_delete whitedDirectory_wf hcreate rfl rfl [['h'], ['x']]).trans (by decide +kernel)

end LayerMount
