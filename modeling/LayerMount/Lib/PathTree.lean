import Mathlib.Tactic.Common

/-!
# Trees addressed by paths

A tree of named children, with leaves of one type and inner nodes of another.
A place is a path from the root, and what a place holds is an optional subtree:
`sub` reads it and `put` replaces it, the empty subtree included.  A leaf has no
children, so nothing can be put below one.

`sub_put_append` and `entryAt_put_elsewhere` are the two halves of what a `put`
does: below the place it is the new subtree, and everywhere else every entry stays.
-/

namespace LayerMount.Lib

inductive PathTree (N L D : Type) where
  | leaf (v : L)
  | node (v : D) (children : List (N × PathTree N L D))

namespace PathTree

variable {N L D : Type} [DecidableEq N]

/-- What is at the root of a tree, without what is below. -/
def entry : PathTree N L D → L ⊕ D
  | leaf v => .inl v
  | node v _ => .inr v

def child : PathTree N L D → N → Option (PathTree N L D)
  | leaf _, _ => none
  | node _ children, n => children.lookup n

def names : PathTree N L D → List N
  | leaf _ => []
  | node _ children => children.map Prod.fst

def setChild (n : N) (s : Option (PathTree N L D)) : PathTree N L D → PathTree N L D
  | leaf v => leaf v
  | node v children =>
    let others := children.filter fun e => !(e.1 == n)
    node v (match s with
      | none => others
      | some c => (n, c) :: others)

/-- What is at a path below a place. -/
def sub : Option (PathTree N L D) → List N → Option (PathTree N L D)
  | o, [] => o
  | none, _ :: _ => none
  | some t, n :: p => sub (t.child n) p

/-- Replaces what is at a path below a place. -/
def put : Option (PathTree N L D) → List N → Option (PathTree N L D) →
    Option (PathTree N L D)
  | _, [], s => s
  | none, _ :: _, _ => none
  | some t, n :: p, s => some (t.setChild n (put (t.child n) p s))

mutual

/-- The number of levels of a tree. -/
def height : PathTree N L D → Nat
  | leaf _ => 0
  | node _ children => heightOfChildren children + 1

def heightOfChildren : List (N × PathTree N L D) → Nat
  | [] => 0
  | (_, t) :: rest => max t.height (heightOfChildren rest)

end

mutual

/-- The paths of the entries below the root, each directory before what is in it. -/
def pathsBelow : PathTree N L D → List (List N)
  | leaf _ => []
  | node _ children => pathsOfChildren children

def pathsOfChildren : List (N × PathTree N L D) → List (List N)
  | [] => []
  | (n, t) :: rest => [n] :: t.pathsBelow.map (n :: ·) ++ pathsOfChildren rest

end

mutual

/-- No two entries of a directory have one name. -/
def Distinct : PathTree N L D → Prop
  | leaf _ => True
  | node _ children => (children.map Prod.fst).Nodup ∧ DistinctChildren children

def DistinctChildren : List (N × PathTree N L D) → Prop
  | [] => True
  | (_, t) :: rest => t.Distinct ∧ DistinctChildren rest

end

mutual

/-- What is left below the root when the entries go that `keep` does not hold of, each with
what is below it.  An inner node that `enters` does not hold of goes or stays as a whole. -/
def prune (enters : D → Bool) (keep : List N → Bool) : PathTree N L D → PathTree N L D
  | leaf v => leaf v
  | node v children =>
    if enters v then node v (pruneChildren enters keep children) else node v children

def pruneChildren (enters : D → Bool) (keep : List N → Bool) :
    List (N × PathTree N L D) → List (N × PathTree N L D)
  | [] => []
  | (n, t) :: rest =>
    if keep [n] then (n, t.prune enters fun p => keep (n :: p)) :: pruneChildren enters keep rest
    else pruneChildren enters keep rest

end

/-- The entry at a path below a place. -/
def entryAt (o : Option (PathTree N L D)) (p : List N) : Option (L ⊕ D) :=
  (sub o p).map entry

/-! ## Children -/

theorem mem_names_iff {t : PathTree N L D} {n : N} :
    n ∈ t.names ↔ (t.child n).isSome = true := by
  cases t with
  | leaf v => simp [names, child]
  | node v children =>
    simp only [names, child]
    induction children with
    | nil => simp
    | cons c children ih =>
      rw [List.map_cons, List.mem_cons, ih, List.lookup_cons]
      by_cases h : n = c.1
      · subst h
        simp
      · have hne : (n == c.1) = false := beq_eq_false_iff_ne.mpr h
        simp [h, hne]

private theorem lookup_filter_self (n : N) (children : List (N × PathTree N L D)) :
    (children.filter fun e => !(e.1 == n)).lookup n = none := by
  induction children with
  | nil => rfl
  | cons c children ih =>
    obtain ⟨k, t⟩ := c
    rw [List.filter_cons]
    cases hk : k == n with
    | true => simpa [hk] using ih
    | false =>
      have hne : (n == k) = false := by rw [BEq.comm, hk]
      simp only [Bool.not_false, if_true, List.lookup_cons, hne]
      exact ih

private theorem lookup_filter_ne {m n : N} (h : m ≠ n)
    (children : List (N × PathTree N L D)) :
    (children.filter fun e => !(e.1 == n)).lookup m = children.lookup m := by
  induction children with
  | nil => rfl
  | cons c children ih =>
    obtain ⟨k, t⟩ := c
    rw [List.filter_cons, List.lookup_cons]
    cases hk : k == n with
    | true =>
      have hne : (m == k) = false := by
        rw [eq_of_beq hk]
        exact beq_eq_false_iff_ne.mpr h
      simp only [Bool.not_true, Bool.false_eq_true, if_false, hne]
      exact ih
    | false => simp only [Bool.not_false, if_true, List.lookup_cons, ih]

theorem mem_of_child {v : D} {children : List (N × PathTree N L D)} {n : N} {t : PathTree N L D}
    (h : (node v children).child n = some t) : (n, t) ∈ children := by
  rw [child] at h
  obtain ⟨before, after, rfl, -⟩ := List.lookup_eq_some_iff.mp h
  simp

theorem child_setChild_self {v : D} {children : List (N × PathTree N L D)} (n : N)
    (s : Option (PathTree N L D)) : ((node v children).setChild n s).child n = s := by
  cases s with
  | none => exact lookup_filter_self n children
  | some c => simp [setChild, child]

theorem child_setChild_ne {m n : N} (h : m ≠ n) (s : Option (PathTree N L D))
    (t : PathTree N L D) : (t.setChild n s).child m = t.child m := by
  cases t with
  | leaf v => rfl
  | node v children =>
    cases s with
    | none => exact lookup_filter_ne h children
    | some c =>
      have hne : (m == n) = false := beq_eq_false_iff_ne.mpr h
      simp only [setChild, child, List.lookup_cons, hne]
      exact lookup_filter_ne h children

@[simp] theorem entry_setChild (n : N) (s : Option (PathTree N L D)) (t : PathTree N L D) :
    (t.setChild n s).entry = t.entry := by
  cases t <;> rfl

/-! ## Places -/

@[simp] theorem sub_nil (o : Option (PathTree N L D)) : sub o [] = o := by
  cases o <;> rfl

@[simp] theorem sub_none (p : List N) : sub (none : Option (PathTree N L D)) p = none := by
  cases p <;> rfl

theorem sub_cons (t : PathTree N L D) (n : N) (p : List N) :
    sub (some t) (n :: p) = sub (t.child n) p := rfl

theorem sub_append (o : Option (PathTree N L D)) (p q : List N) :
    sub o (p ++ q) = sub (sub o p) q := by
  induction p generalizing o with
  | nil => simp
  | cons n p ih =>
    cases o with
    | none => simp
    | some t => exact ih (t.child n)

theorem sub_leaf (v : L) (n : N) (p : List N) :
    sub (some (leaf v : PathTree N L D)) (n :: p) = none := by
  rw [sub_cons]
  exact sub_none p

@[simp] theorem put_nil (o s : Option (PathTree N L D)) : put o [] s = s := by
  cases o <;> rfl

theorem put_cons (t : PathTree N L D) (n : N) (p : List N) (s : Option (PathTree N L D)) :
    put (some t) (n :: p) s = some (t.setChild n (put (t.child n) p s)) := rfl

/-- Something can be put at `p`: the place above `p` is an inner node. -/
def CanPut (o : Option (PathTree N L D)) (p : List N) : Prop :=
  p = [] ∨ ∃ v children, sub o p.dropLast = some (node v children)

theorem CanPut.tail {t : PathTree N L D} {n m : N} {p : List N}
    (h : CanPut (some t) (n :: m :: p)) : CanPut (t.child n) (m :: p) := by
  rcases h with h | ⟨v, children, h⟩
  · cases h
  · exact .inr ⟨v, children, by simpa [sub_cons] using h⟩

theorem sub_put_append {o : Option (PathTree N L D)} {p : List N} (h : CanPut o p)
    (s : Option (PathTree N L D)) (q : List N) : sub (put o p s) (p ++ q) = sub s q := by
  induction p generalizing o with
  | nil => simp
  | cons n p ih =>
    cases o with
    | none =>
      rcases h with h | ⟨v, children, h⟩
      · cases h
      · simp at h
    | some t =>
      cases p with
      | nil =>
        rcases h with h | ⟨v, children, h⟩
        · cases h
        · obtain rfl : t = node v children := by simpa using h
          rw [put_cons, List.cons_append, sub_cons, child_setChild_self]
          simp
      | cons m p =>
        have htail := h.tail
        cases t with
        | leaf v =>
          rcases htail with h' | ⟨v', children, h'⟩
          · cases h'
          · simp [child] at h'
        | node v children =>
          rw [put_cons, List.cons_append, sub_cons, child_setChild_self]
          exact ih htail

/-- What is taken away is gone, whatever was there. -/
theorem sub_put_none (o : Option (PathTree N L D)) (p q : List N) :
    sub (put o p none) (p ++ q) = none := by
  induction p generalizing o with
  | nil => simp
  | cons n p ih =>
    cases o with
    | none => rfl
    | some t =>
      cases t with
      | leaf v => exact sub_leaf v n _
      | node v children =>
        rw [put_cons, List.cons_append, sub_cons, child_setChild_self]
        exact ih _

/-- What is replaced again is replaced once. -/
theorem put_put (o : Option (PathTree N L D)) (p : List N) (s s' : Option (PathTree N L D)) :
    put (put o p s) p s' = put o p s' := by
  induction p generalizing o with
  | nil => rw [put_nil, put_nil]
  | cons n p ih =>
    cases o with
    | none => rfl
    | some t =>
      cases t with
      | leaf v => rfl
      | node v children =>
        rw [put_cons, put_cons, put_cons, child_setChild_self, ih]
        cases hs : put (child (node v children) n) p s with
        | none => simp [setChild]
        | some c => simp [setChild]

/-- Every entry that is not at or below the replaced place stays. -/
theorem entryAt_put_elsewhere {o : Option (PathTree N L D)} {p q : List N}
    (hpq : ¬p <+: q) (s : Option (PathTree N L D)) :
    entryAt (put o p s) q = entryAt o q := by
  induction p generalizing o q with
  | nil => exact absurd List.nil_prefix hpq
  | cons n p ih =>
    cases o with
    | none => rfl
    | some t =>
      cases q with
      | nil => simp [put_cons, entryAt]
      | cons m q =>
        simp only [entryAt]
        rw [put_cons, sub_cons, sub_cons]
        by_cases hmn : m = n
        · subst hmn
          rw [List.cons_prefix_cons] at hpq
          cases t with
          | leaf v => rfl
          | node v children =>
            rw [child_setChild_self]
            exact ih (fun h => hpq ⟨rfl, h⟩)
        · rw [child_setChild_ne hmn]

theorem entryAt_put_append {o : Option (PathTree N L D)} {p : List N} (h : CanPut o p)
    (s : Option (PathTree N L D)) (q : List N) :
    entryAt (put o p s) (p ++ q) = entryAt s q := by
  rw [entryAt, sub_put_append h, entryAt]

/-- Below the replaced place are the entries of what was put, or nothing could be put. -/
theorem entryAt_put_or (o : Option (PathTree N L D)) (p : List N) (s : Option (PathTree N L D))
    (q : List N) : entryAt (put o p s) (p ++ q) = entryAt s q ∨
      entryAt (put o p s) (p ++ q) = entryAt o (p ++ q) := by
  induction p generalizing o with
  | nil => exact .inl (by rw [put_nil, List.nil_append])
  | cons n p ih =>
    cases o with
    | none => exact .inr rfl
    | some t =>
      cases t with
      | leaf v => exact .inr rfl
      | node v children =>
        simp only [entryAt, List.cons_append, put_cons, sub_cons, child_setChild_self]
        exact ih _

/-! ## Pruned trees -/

omit [DecidableEq N] in
@[simp] theorem entry_prune (enters : D → Bool) (keep : List N → Bool) (t : PathTree N L D) :
    (t.prune enters keep).entry = t.entry := by
  cases t with
  | leaf v => rw [prune]
  | node v children =>
    rw [prune]
    split <;> rfl

private theorem lookup_pruneChildren (enters : D → Bool) (keep : List N → Bool) (n : N)
    (children : List (N × PathTree N L D)) :
    (pruneChildren enters keep children).lookup n =
      if keep [n] then (children.lookup n).map (prune enters fun p => keep (n :: p)) else none := by
  induction children with
  | nil => simp [pruneChildren]
  | cons c rest ih =>
    obtain ⟨m, t⟩ := c
    by_cases hm : n = m
    · subst hm
      by_cases hkeep : keep [n] = true
      · simp [pruneChildren, hkeep]
      · simp [pruneChildren, hkeep, ih]
    · have hne : (n == m) = false := beq_eq_false_iff_ne.mpr hm
      by_cases hkeep : keep [m] = true
      · simp [pruneChildren, hkeep, List.lookup_cons, hne, ih]
      · simp [pruneChildren, hkeep, List.lookup_cons, hne, ih]

/-- A child of a pruned tree is the tree's child, pruned or as it was. -/
theorem child_prune (enters : D → Bool) (keep : List N → Bool) (t : PathTree N L D) (n : N) :
    (t.prune enters keep).child n = none ∨ (t.prune enters keep).child n = t.child n ∨
      (t.prune enters keep).child n = (t.child n).map (prune enters fun p => keep (n :: p)) := by
  cases t with
  | leaf v => exact .inl (by rw [prune, child])
  | node v children =>
    rw [prune]
    split
    · rw [child, lookup_pruneChildren]
      split
      · exact .inr (.inr rfl)
      · exact .inl rfl
    · exact .inr (.inl rfl)

/-- Pruning takes entries away and changes none. -/
theorem entryAt_prune (enters : D → Bool) (keep : List N → Bool) (t : PathTree N L D)
    (p : List N) : entryAt (some (t.prune enters keep)) p = none ∨
      entryAt (some (t.prune enters keep)) p = entryAt (some t) p := by
  induction p generalizing t keep with
  | nil => exact .inr (by simp [entryAt])
  | cons n p ih =>
    rw [entryAt, entryAt, sub_cons, sub_cons]
    rcases child_prune enters keep t n with hgone | hsame | hpruned
    · rw [hgone]
      exact .inl (by rw [sub_none]; rfl)
    · rw [hsame]
      exact .inr rfl
    · rw [hpruned]
      cases hchild : t.child n with
      | none => exact .inr rfl
      | some c => exact ih _ c

/-! ## The entries of a tree -/

/-- What is found below a name has that name among the children. -/
private theorem mem_of_sub_lookup {children : List (N × PathTree N L D)} {n : N} {q : List N}
    (h : (sub (children.lookup n) q).isSome = true) : n ∈ children.map Prod.fst := by
  cases hc : children.lookup n with
  | none => simp [hc] at h
  | some c =>
    obtain ⟨before, after, rfl, -⟩ := List.lookup_eq_some_iff.mp hc
    simp

mutual

theorem mem_pathsBelow_iff (t : PathTree N L D) (h : t.Distinct) (p : List N) :
    p ∈ t.pathsBelow ↔ p ≠ [] ∧ (sub (some t) p).isSome = true := by
  cases t with
  | leaf v =>
    cases p with
    | nil => simp [pathsBelow]
    | cons n p => simp [pathsBelow, sub_leaf]
  | node v children =>
    rw [Distinct] at h
    rw [pathsBelow, mem_pathsOfChildren_iff children h.1 h.2]
    cases p with
    | nil => simp
    | cons n p => simp [sub_cons, child]

theorem mem_pathsOfChildren_iff (children : List (N × PathTree N L D))
    (hnames : (children.map Prod.fst).Nodup) (h : DistinctChildren children) (p : List N) :
    p ∈ pathsOfChildren children ↔
      ∃ n q, p = n :: q ∧ (sub (children.lookup n) q).isSome = true := by
  match children with
  | [] => simp [pathsOfChildren]
  | (m, t) :: rest =>
    rw [List.map_cons, List.nodup_cons] at hnames
    rw [DistinctChildren] at h
    rw [pathsOfChildren, List.cons_append, List.mem_cons, List.mem_append, List.mem_map,
      mem_pathsOfChildren_iff rest hnames.2 h.2]
    have hlookup : ∀ n, n ≠ m → ((m, t) :: rest).lookup n = rest.lookup n := by
      intro n hn
      rw [List.lookup_cons, beq_eq_false_iff_ne.mpr hn]
    have hself : ((m, t) :: rest).lookup m = some t := by simp
    constructor
    · rintro (rfl | ⟨q, hq, rfl⟩ | ⟨n, q, rfl, hq⟩)
      · exact ⟨m, [], rfl, by simp [hself]⟩
      · exact ⟨m, q, rfl, by rw [hself]; exact ((mem_pathsBelow_iff t h.1 q).mp hq).2⟩
      · have hn : n ≠ m := by
          rintro rfl
          apply hnames.1
          exact mem_of_sub_lookup hq
        exact ⟨n, q, rfl, by rwa [hlookup n hn]⟩
    · rintro ⟨n, q, rfl, hq⟩
      by_cases hn : n = m
      · subst hn
        rw [hself] at hq
        cases q with
        | nil => exact Or.inl rfl
        | cons k q =>
          exact Or.inr (Or.inl ⟨k :: q, (mem_pathsBelow_iff t h.1 _).mpr ⟨by simp, hq⟩, rfl⟩)
      · rw [hlookup n hn] at hq
        exact Or.inr (Or.inr ⟨n, q, rfl, hq⟩)

end

omit [DecidableEq N] in
mutual

theorem nodup_pathsBelow (t : PathTree N L D) (h : t.Distinct) : t.pathsBelow.Nodup := by
  cases t with
  | leaf v => simp [pathsBelow]
  | node v children =>
    rw [Distinct] at h
    rw [pathsBelow]
    exact nodup_pathsOfChildren children h.1 h.2

theorem nodup_pathsOfChildren (children : List (N × PathTree N L D))
    (hnames : (children.map Prod.fst).Nodup) (h : DistinctChildren children) :
    (pathsOfChildren children).Nodup := by
  classical
  match children with
  | [] => simp [pathsOfChildren]
  | (m, t) :: rest =>
    rw [List.map_cons, List.nodup_cons] at hnames
    rw [DistinctChildren] at h
    have hfirst : ([m] :: t.pathsBelow.map (m :: ·)).Nodup := by
      rw [List.nodup_cons]
      constructor
      · intro hmem
        obtain ⟨q, hq, heq⟩ := List.mem_map.mp hmem
        have hnil : q = [] := by simpa using heq
        exact ((mem_pathsBelow_iff t h.1 q).mp hq).1 hnil
      · exact List.Pairwise.map (m :: ·) (fun _ _ hne heq => hne (List.cons.inj heq).2)
          (nodup_pathsBelow t h.1)
    rw [pathsOfChildren, List.nodup_append]
    refine ⟨hfirst, nodup_pathsOfChildren rest hnames.2 h.2, ?_⟩
    -- a path of the first child starts with its name, and no later child has that name
    intro p hp q hq heq
    subst heq
    have hhead : p.head? = some m := by
      rcases List.mem_cons.mp hp with rfl | hp
      · rfl
      · obtain ⟨q, -, rfl⟩ := List.mem_map.mp hp
        rfl
    obtain ⟨n, q, rfl, hsub⟩ := (mem_pathsOfChildren_iff rest hnames.2 h.2 p).mp hq
    obtain rfl : n = m := by simpa using hhead
    exact hnames.1 (mem_of_sub_lookup hsub)

end

end PathTree

end LayerMount.Lib
