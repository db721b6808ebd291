import LayerMount.HostPath
import LayerMount.Lib.Links
import LayerMount.Lib.PathTree

/-!
# The entries of the host

What Windows holds and what it answers about a path: a tree of entries, the name that a
directory holds an entry under, and where a link leads.  The case of a name, short names
and the form of a path that is not extended are the host's own.

An entry that goes takes what is below it and nothing else (`entryAt_remove`).  An entry
that comes hides none (`entryAt_add`), so a path leads where it led (`find_add`).
-/

namespace LayerMount.WorkDir

open Lib PathText

/-- What a handle on the entry itself reads, and where the entry leads.  Only an entry
whose tag is a name surrogate leads elsewhere. -/
structure HostEntry where
  directory : Bool
  reparsePoint : Bool := false
  nameSurrogate : Bool := false
  target : Option Location := none
  link_of_target : target.isSome = true → reparsePoint = true ∧ nameSurrogate = true := by simp
  deriving DecidableEq, Repr

abbrev HostTree := PathTree WideString HostEntry HostEntry

def treeEntry (tree : Option HostTree) (loc : Location) : Option HostEntry :=
  (PathTree.entryAt tree loc).map (Sum.elim id id)

structure Host where
  tree : Option HostTree
  /-- The name under which a directory holds what it finds for a name. -/
  storedName : Location → WideString → WideString
  storedName_self : ∀ loc name, (treeEntry tree (loc ++ [name])).isSome = true →
    storedName loc name = name
  names_ok : ∀ loc name, (treeEntry tree (loc ++ [name])).isSome = true → EntryName name

/-- The links that one open follows. -/
def kMaxLinks : Nat := 63

/-- What Windows makes of the text of a path. -/
structure PathReader extends CaseFold where
  fullPathName : WideString → Option WideString
  /-- Where a path that has no extended form leads, such as a device path. -/
  otherPath : WideString → Option Location
  /-- `GetFinalPathNameByHandleW` of a handle on the entry there. -/
  finalPathName : Location → Option WideString
  final_form : ∀ loc text, finalPathName loc = some text → IsFinalPath text loc

namespace Host

def entryAt (h : Host) (loc : Location) : Option HostEntry := treeEntry h.tree loc

def find (h : Host) : Lookup WideString HostEntry := fun loc name =>
  (h.entryAt (loc ++ [h.storedName loc name])).map fun e => (h.storedName loc name, e)

def names (h : Host) (loc : Location) : List WideString :=
  match PathTree.sub h.tree loc with
  | none => []
  | some t => t.names

def isNode (h : Host) (loc : Location) : Bool :=
  match PathTree.sub h.tree loc with
  | some (.node _ _) => true
  | _ => false

/-- Where the entry of a path is, and the entry: an open that follows no link at the last
name. -/
def locate (h : Host) (path : Location) : Option (Location × HostEntry) :=
  Lib.locate HostEntry.target h.find kMaxLinks path

/-- Where a path leads: an open that follows every link. -/
def resolve (h : Host) (path : Location) : Option Location :=
  Lib.resolve HostEntry.target h.find kMaxLinks path

theorem find_of_entryAt {h : Host} {loc : Location} {name : WideString} {e : HostEntry}
    (he : h.entryAt (loc ++ [name]) = some e) : h.find loc name = some (name, e) := by
  have hself : h.storedName loc name = name := h.storedName_self loc name (by
    show (h.entryAt (loc ++ [name])).isSome = true
    rw [he, Option.isSome_some])
  unfold find
  rw [hself, he, Option.map_some]

theorem entryAt_isSome_of_mem_names {h : Host} {loc : Location} {name : WideString}
    (hname : name ∈ h.names loc) : (h.entryAt (loc ++ [name])).isSome = true := by
  unfold names at hname
  unfold entryAt treeEntry PathTree.entryAt
  rw [PathTree.sub_append]
  cases hsub : PathTree.sub h.tree loc with
  | none =>
    rw [hsub] at hname
    exact absurd hname List.not_mem_nil
  | some t =>
    rw [hsub] at hname
    have hchild := PathTree.mem_names_iff.mp hname
    rw [PathTree.sub_cons, PathTree.sub_nil, Option.isSome_map, Option.isSome_map]
    exact hchild

/-! ## An entry goes -/

theorem treeEntry_put_none (tree : Option HostTree) (loc q : Location) :
    treeEntry (PathTree.put tree loc none) q = if loc <+: q then none else treeEntry tree q := by
  split
  · next hbelow =>
    obtain ⟨rest, rfl⟩ := hbelow
    unfold treeEntry PathTree.entryAt
    rw [PathTree.sub_put_none]
    rfl
  · next hbelow =>
    unfold treeEntry
    rw [PathTree.entryAt_put_elsewhere hbelow]

theorem treeEntry_of_put_none {tree : Option HostTree} {loc q : Location}
    (hentry : (treeEntry (PathTree.put tree loc none) q).isSome = true) :
    (treeEntry tree q).isSome = true := by
  rw [treeEntry_put_none] at hentry
  split at hentry
  · exact absurd hentry nofun
  · exact hentry

def remove (h : Host) (loc : Location) : Host where
  tree := PathTree.put h.tree loc none
  storedName := h.storedName
  storedName_self place name hentry := h.storedName_self place name (treeEntry_of_put_none hentry)
  names_ok place name hentry := h.names_ok place name (treeEntry_of_put_none hentry)

theorem entryAt_remove (h : Host) (loc q : Location) :
    (h.remove loc).entryAt q = if loc <+: q then none else h.entryAt q :=
  treeEntry_put_none h.tree loc q

/-! ## An entry comes -/

/-- An entry with nothing below it. -/
def newTree (e : HostEntry) : HostTree := if e.directory then .node e [] else .leaf e

theorem treeEntry_newTree (e : HostEntry) (q : Location) :
    treeEntry (some (newTree e)) q = if q = [] then some e else none := by
  unfold newTree treeEntry PathTree.entryAt
  cases q with
  | nil =>
    rw [PathTree.sub_nil, if_pos rfl]
    split <;> rfl
  | cons n q =>
    rw [PathTree.sub_cons, if_neg (List.cons_ne_nil _ _)]
    split
    · show ((PathTree.sub none q).map PathTree.entry).map (Sum.elim id id) = none
      rw [PathTree.sub_none]
      rfl
    · show ((PathTree.sub none q).map PathTree.entry).map (Sum.elim id id) = none
      rw [PathTree.sub_none]
      rfl

/-- Nothing is below a place that holds nothing. -/
theorem treeEntry_below {tree : Option HostTree} {loc : Location}
    (hnone : treeEntry tree loc = none) (rest : Location) : treeEntry tree (loc ++ rest) = none := by
  unfold treeEntry PathTree.entryAt at hnone ⊢
  rw [Option.map_eq_none_iff, Option.map_eq_none_iff] at hnone
  rw [PathTree.sub_append, hnone, PathTree.sub_none]
  rfl

theorem treeEntry_put_new {tree : Option HostTree} {loc : Location}
    (hput : PathTree.CanPut tree loc) (hnone : treeEntry tree loc = none) (e : HostEntry)
    (q : Location) :
    treeEntry (PathTree.put tree loc (some (newTree e))) q
      = if q = loc then some e else treeEntry tree q := by
  by_cases hbelow : loc <+: q
  · obtain ⟨rest, rfl⟩ := hbelow
    have hput' : treeEntry (PathTree.put tree loc (some (newTree e))) (loc ++ rest)
        = treeEntry (some (newTree e)) rest := by
      unfold treeEntry
      rw [PathTree.entryAt_put_append hput]
    rw [hput', treeEntry_newTree, treeEntry_below hnone]
    by_cases hrest : rest = []
    · rw [if_pos hrest, if_pos (by rw [hrest, List.append_nil])]
    · rw [if_neg hrest, if_neg fun heq => hrest (List.append_right_eq_self.mp heq)]
  · have hne : q ≠ loc := fun heq => hbelow (heq ▸ List.prefix_rfl)
    rw [if_neg hne]
    unfold treeEntry
    rw [PathTree.entryAt_put_elsewhere hbelow]

theorem canPut_of_isNode {h : Host} {loc : Location} (hnode : h.isNode loc = true)
    (name : WideString) : PathTree.CanPut h.tree (loc ++ [name]) := by
  unfold isNode at hnode
  refine .inr ?_
  rw [List.dropLast_concat]
  cases hsub : PathTree.sub h.tree loc with
  | none =>
    rw [hsub] at hnode
    exact absurd hnode nofun
  | some t =>
    rw [hsub] at hnode
    cases t with
    | leaf v => exact absurd hnode nofun
    | node v children => exact ⟨v, children, rfl⟩

section

variable {h : Host} {loc : Location} {name : WideString}

/-- `name` is free in the directory there. -/
structure Free (h : Host) (loc : Location) (name : WideString) : Prop where
  name_ok : EntryName name
  not_found : h.find loc name = none
  node : h.isNode loc = true

def isFree (h : Host) (loc : Location) (name : WideString) : Bool :=
  isEntryName name && (h.find loc name).isNone && h.isNode loc

theorem free_of_isFree (hfree : h.isFree loc name = true) : Free h loc name := by
  unfold isFree at hfree
  rw [Bool.and_eq_true, Bool.and_eq_true, isEntryName_iff, Option.isNone_iff_eq_none] at hfree
  exact ⟨hfree.1.1, hfree.1.2, hfree.2⟩

theorem Free.entryAt (hfree : Free h loc name) : h.entryAt (loc ++ [name]) = none := by
  cases he : h.entryAt (loc ++ [name]) with
  | none => rfl
  | some e => exact absurd (find_of_entryAt he) (by rw [hfree.not_found]; exact nofun)

theorem Free.treeEntry_put (hfree : Free h loc name) (e : HostEntry) (q : Location) :
    treeEntry (PathTree.put h.tree (loc ++ [name]) (some (newTree e))) q
      = if q = loc ++ [name] then some e else h.entryAt q :=
  treeEntry_put_new (canPut_of_isNode hfree.node name) hfree.entryAt e q

/-- A new entry of a directory, found under its name. -/
def add (e : HostEntry) (hfree : Free h loc name) : Host where
  tree := PathTree.put h.tree (loc ++ [name]) (some (newTree e))
  storedName place m := if place = loc ∧ m = name then name else h.storedName place m
  storedName_self place m hentry := by
    split
    · next hsame => exact hsame.2.symm
    · next hother =>
      rw [hfree.treeEntry_put] at hentry
      split at hentry
      · next heq =>
        obtain ⟨hplace, hm⟩ := List.append_inj' heq rfl
        exact absurd ⟨hplace, List.singleton_inj.mp hm⟩ hother
      · exact h.storedName_self place m hentry
  names_ok place m hentry := by
    rw [hfree.treeEntry_put] at hentry
    split at hentry
    · next heq =>
      have hm := List.singleton_inj.mp (List.append_inj' heq rfl).2
      rw [hm]
      exact hfree.name_ok
    · exact h.names_ok place m hentry

theorem entryAt_add (e : HostEntry) (hfree : Free h loc name) (q : Location) :
    (add e hfree).entryAt q = if q = loc ++ [name] then some e else h.entryAt q :=
  hfree.treeEntry_put e q

/-- What is found without the new entry is found with it. -/
theorem find_add (e : HostEntry) (hfree : Free h loc name) : h.find.Extends (add e hfree).find := by
  intro place m found hfound
  have hother : ¬ (place = loc ∧ m = name) := by
    rintro ⟨rfl, rfl⟩
    rw [hfree.not_found] at hfound
    exact absurd hfound nofun
  have hstored : (add e hfree).storedName place m = h.storedName place m := if_neg hother
  unfold find at hfound ⊢
  rw [hstored, entryAt_add]
  split
  · next heq =>
    rw [heq, hfree.entryAt] at hfound
    exact absurd hfound nofun
  · exact hfound

end

end Host

end LayerMount.WorkDir
