import Mathlib.Data.List.Basic

/-!
# Paths through links

A place is where the walk of a path leads, name by name from one root.  A directory
answers a name with the name that it holds the entry under, and an entry that is a link
leads to a path that is walked from the root again.

`resolve` follows a link anywhere in the path, and `locate` follows every link but one at
the last name.  Answers that stay keep where a path leads (`locate_mono`), what is found in
a place is found at a path that leads there (`locate_concat`), and a path that leads
somewhere has one above that does (`resolve_above`).
-/

namespace LayerMount.Lib

variable {N E : Type}

/-- What the directory at a place answers a name with: the name it holds the entry under,
and the entry. -/
abbrev Lookup (N E : Type) := List N → N → Option (N × E)

/-- Every answer of one stays in the other. -/
def Lookup.Extends (before after : Lookup N E) : Prop :=
  ∀ place n found, before place n = some found → after place n = some found

theorem Lookup.Extends.refl (find : Lookup N E) : find.Extends find := fun _ _ _ h => h

theorem Lookup.Extends.trans {a b c : Lookup N E} (hab : a.Extends b) (hbc : b.Extends c) :
    a.Extends c := fun place n found h => hbc place n found (hab place n found h)

section

variable (target : E → Option (List N)) (find : Lookup N E)

/-- The walk from a place, up to the first link.  `follow` is where a path from the root
leads. -/
def walk (follow : List N → Option (List N)) : List N → List N → Option (List N)
  | place, [] => some place
  | place, n :: rest =>
    match find place n with
    | none => none
    | some (held, e) =>
      match target e with
      | none => walk follow (place ++ [held]) rest
      | some path => follow (path ++ rest)

/-- Where a path leads, over at most `links` links. -/
def resolve : Nat → List N → Option (List N)
  | 0, path => walk target find (fun _ => none) [] path
  | links + 1, path => walk target find (resolve links) [] path

/-- Where the entry of a path is, and the entry. -/
def locate (links : Nat) (path : List N) : Option (List N × E) :=
  match path.getLast? with
  | none => none
  | some n =>
    (resolve target find links path.dropLast).bind fun place =>
      (find place n).map fun (held, e) => (place ++ [held], e)

end

variable {target : E → Option (List N)} {find before after : Lookup N E}

theorem walk_mono (h : before.Extends after) {follow follow' : List N → Option (List N)}
    (hfollow : ∀ path place, follow path = some place → follow' path = some place)
    {start path place : List N} (hwalk : walk target before follow start path = some place) :
    walk target after follow' start path = some place := by
  induction path generalizing start with
  | nil => exact hwalk
  | cons n rest ih =>
    unfold walk at hwalk ⊢
    cases hfind : before start n with
    | none =>
      rw [hfind] at hwalk
      exact absurd hwalk nofun
    | some found =>
      rw [hfind] at hwalk
      rw [h start n found hfind]
      cases htarget : target found.2 with
      | none =>
        simp only [htarget] at hwalk ⊢
        exact ih hwalk
      | some path =>
        simp only [htarget] at hwalk ⊢
        exact hfollow _ _ hwalk

theorem resolve_mono (h : before.Extends after) {links : Nat} {path place : List N}
    (hres : resolve target before links path = some place) :
    resolve target after links path = some place := by
  induction links generalizing path place with
  | zero => exact walk_mono h (fun _ _ hnone => hnone) hres
  | succ links ih => exact walk_mono h (fun _ _ hfollow => ih hfollow) hres

theorem locate_mono (h : before.Extends after) {links : Nat} {path : List N}
    {found : List N × E} (hloc : locate target before links path = some found) :
    locate target after links path = some found := by
  unfold locate at hloc ⊢
  cases hlast : path.getLast? with
  | none =>
    rw [hlast] at hloc
    exact absurd hloc nofun
  | some n =>
    simp only [hlast, Option.bind_eq_some_iff, Option.map_eq_some_iff] at hloc ⊢
    obtain ⟨place, hplace, held, hheld, hfound⟩ := hloc
    exact ⟨place, resolve_mono h hplace, held, h place n held hheld, hfound⟩

/-- A walk goes on to an entry that is no link. -/
theorem walk_concat {follow : List N → Option (List N)} {start path place : List N} {n held : N}
    {e : E} (hfollow : ∀ path, follow path = some place → follow (path ++ [n]) =
      some (place ++ [held]))
    (hwalk : walk target find follow start path = some place)
    (hfind : find place n = some (held, e)) (hplain : target e = none) :
    walk target find follow start (path ++ [n]) = some (place ++ [held]) := by
  induction path generalizing start with
  | nil =>
    cases hwalk
    rw [List.nil_append, walk, hfind]
    simp only [hplain, walk]
  | cons m rest ih =>
    rw [List.cons_append]
    unfold walk at hwalk ⊢
    cases hm : find start m with
    | none =>
      rw [hm] at hwalk
      exact absurd hwalk nofun
    | some found =>
      rw [hm] at hwalk
      cases htarget : target found.2 with
      | none =>
        simp only [htarget] at hwalk ⊢
        exact ih hwalk
      | some path =>
        simp only [htarget] at hwalk ⊢
        rw [← List.append_assoc]
        exact hfollow _ hwalk

theorem resolve_concat {links : Nat} {path place : List N} {n held : N} {e : E}
    (hres : resolve target find links path = some place)
    (hfind : find place n = some (held, e)) (hplain : target e = none) :
    resolve target find links (path ++ [n]) = some (place ++ [held]) := by
  induction links generalizing path with
  | zero => exact walk_concat (fun _ h => absurd h nofun) hres hfind hplain
  | succ links ih => exact walk_concat (fun _ h => ih h) hres hfind hplain

/-- A walk that leads somewhere leads to the directory above, which holds the last name. -/
theorem walk_above {follow : List N → Option (List N)} {start path place : List N} {n : N}
    (hfollow : ∀ path place, follow (path ++ [n]) = some place →
      ∃ above held e, follow path = some above ∧ find above n = some (held, e) ∧
        (target e = none → place = above ++ [held]))
    (hwalk : walk target find follow start (path ++ [n]) = some place) :
    ∃ above held e, walk target find follow start path = some above ∧
      find above n = some (held, e) ∧ (target e = none → place = above ++ [held]) := by
  induction path generalizing start with
  | nil =>
    rw [List.nil_append, walk] at hwalk
    cases hn : find start n with
    | none =>
      rw [hn] at hwalk
      exact absurd hwalk nofun
    | some found =>
      refine ⟨start, found.1, found.2, rfl, hn, ?_⟩
      intro hplain
      simp only [hn, hplain, walk, Option.some.injEq] at hwalk
      exact hwalk.symm
  | cons m rest ih =>
    rw [List.cons_append] at hwalk
    unfold walk at hwalk ⊢
    cases hm : find start m with
    | none =>
      rw [hm] at hwalk
      exact absurd hwalk nofun
    | some found =>
      rw [hm] at hwalk
      cases htarget : target found.2 with
      | none =>
        simp only [htarget] at hwalk ⊢
        exact ih hwalk
      | some path =>
        simp only [htarget] at hwalk ⊢
        rw [← List.append_assoc] at hwalk
        exact hfollow _ _ hwalk

theorem resolve_above {links : Nat} {path place : List N} {n : N}
    (hres : resolve target find links (path ++ [n]) = some place) :
    ∃ above held e, resolve target find links path = some above ∧
      find above n = some (held, e) ∧ (target e = none → place = above ++ [held]) := by
  induction links generalizing path place with
  | zero => exact walk_above (fun _ _ h => absurd h nofun) hres
  | succ links ih => exact walk_above (fun _ _ h => ih h) hres

/-- What is found at a path is the answer of the directory that the path above leads to. -/
theorem locate_concat_iff {links : Nat} {path place : List N} {n : N} {e : E} :
    locate target find links (path ++ [n]) = some (place, e) ↔
      ∃ above held, resolve target find links path = some above ∧
        find above n = some (held, e) ∧ place = above ++ [held] := by
  unfold locate
  rw [List.getLast?_concat, List.dropLast_concat]
  simp only [Option.bind_eq_some_iff, Option.map_eq_some_iff, Prod.mk.injEq, Prod.exists]
  constructor
  · rintro ⟨above, habove, held, e', hfind, rfl, rfl⟩
    exact ⟨above, held, habove, hfind, rfl⟩
  · rintro ⟨above, held, habove, hfind, rfl⟩
    exact ⟨above, habove, held, e, hfind, rfl, rfl⟩

theorem locate_of_resolve {links : Nat} {path place : List N} {n held : N} {e : E}
    (hres : resolve target find links path = some place) (hfind : find place n = some (held, e)) :
    locate target find links (path ++ [n]) = some (place ++ [held], e) := by
  unfold locate
  rw [List.getLast?_concat, List.dropLast_concat]
  simp only [hres, hfind, Option.bind_some, Option.map_some]

/-- A path that leads to an entry that is no link leads to its place. -/
theorem resolve_of_locate {links : Nat} {path place : List N} {e : E}
    (hloc : locate target find links path = some (place, e)) (hplain : target e = none) :
    resolve target find links path = some place := by
  unfold locate at hloc
  cases hlast : path.getLast? with
  | none =>
    rw [hlast] at hloc
    exact absurd hloc nofun
  | some n =>
    simp only [hlast, Option.bind_eq_some_iff, Option.map_eq_some_iff] at hloc
    obtain ⟨above, habove, found, hfound, heq⟩ := hloc
    cases heq
    have hpath : path.dropLast ++ [n] = path := List.dropLast_append_getLast? n hlast
    rw [← hpath]
    exact resolve_concat habove hfound hplain

/-- What is in a place is found at a path that leads there. -/
theorem locate_concat {links : Nat} {path place : List N} {e e' : E} {n held : N}
    (hloc : locate target find links path = some (place, e)) (hplain : target e = none)
    (hfind : find place n = some (held, e')) :
    locate target find links (path ++ [n]) = some (place ++ [held], e') :=
  locate_of_resolve (resolve_of_locate hloc hplain) hfind

end LayerMount.Lib
