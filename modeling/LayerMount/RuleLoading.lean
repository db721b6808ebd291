import LayerMount.ProcessTracker
import Mathlib.Data.List.Forall2

/-!
# Loading the access rules

`LoadRules` of `ProcessTracker.cpp`.  The parse of the file is inside its guard, the reads of
the fields behind it are not: a rule that is no object, or a field of another type, ends the
call with the exception of the JSON library.  The list of the new rules is the loop's own until
every rule is read, so the tracker has its old rules then.

`loadRules_allOrNothing_iff` says on which files the call is all or nothing: on those of which
every rule is an object with fields of the documented types.  The parser of the JSON library is
a parameter.
-/

namespace LayerMount

open Lib

/-! ## The source -/

/-- How a call that loads a file ends. -/
inductive LoadEnd (α : Type) where
  | returns (result : α)
  | throws
  deriving DecidableEq, Repr

/-- The body of the loop, with `none` for an exception of the JSON library. -/
def ruleFromJson (ruleJson : Json) : Option AccessRule := do
  let processName ← ruleJson.value Json.getString (ascii "processName") (ascii "*")
  let pathPattern ← ruleJson.value Json.getString (ascii "pathPattern") (ascii "*")
  let allowRead ← ruleJson.value Json.getBool (ascii "allowRead") true
  let allowWrite ← ruleJson.value Json.getBool (ascii "allowWrite") true
  let allowExecute ← ruleJson.value Json.getBool (ascii "allowExecute") true
  let allowDelete ← ruleJson.value Json.getBool (ascii "allowDelete") true
  pure
    { processNamePattern := utf8ToWide processName
      pathPattern := utf8ToWide pathPattern
      allowRead, allowWrite, allowExecute, allowDelete }

/-- The loop over the rules. -/
def rulesFromJson : List Json → Option (List AccessRule)
  | [] => some []
  | ruleJson :: rest => do
    let rule ← ruleFromJson ruleJson
    let newRules ← rulesFromJson rest
    pure (rule :: newRules)

/-- `j.contains("rules")` and `j["rules"].is_array()`, with the array. -/
def arrayField (j : Json) (key : Utf8String) : Option (List Json) :=
  match j with
  | .object fields =>
    match Json.find key fields with
    | some (.array items) => some items
    | _ => none
  | _ => none

/-- `LoadRules` with the bytes that the stream of the file gives, or `none` where it does
not open. -/
def loadRules (parse : List UInt8 → Option Json) (tracker : ProcessTracker)
    (file : Option (List UInt8)) : LoadEnd Bool × ProcessTracker :=
  match file with
  | none => (.returns false, tracker)
  | some content =>
    match parse content with
    | none => (.returns false, tracker)
    | some j =>
      match arrayField j (ascii "rules") with
      | none => (.returns false, tracker)
      | some items =>
        match rulesFromJson items with
        | none => (.throws, tracker)
        | some newRules => (.returns true, { tracker with rules := newRules })

/-! ## What a file gives -/

/-- A rule of the file and the rule it is, field by field with the defaults. -/
structure RuleGiven (ruleJson : Json) (rule : AccessRule) : Prop where
  processName : ∃ text, ruleJson.Gives Json.getString (ascii "processName") (ascii "*") text ∧
    rule.processNamePattern = utf8ToWide text
  pathPattern : ∃ text, ruleJson.Gives Json.getString (ascii "pathPattern") (ascii "*") text ∧
    rule.pathPattern = utf8ToWide text
  allowRead : ruleJson.Gives Json.getBool (ascii "allowRead") true rule.allowRead
  allowWrite : ruleJson.Gives Json.getBool (ascii "allowWrite") true rule.allowWrite
  allowExecute : ruleJson.Gives Json.getBool (ascii "allowExecute") true rule.allowExecute
  allowDelete : ruleJson.Gives Json.getBool (ascii "allowDelete") true rule.allowDelete

/-- An object whose texts, where it has them, are strings, and whose permissions are
booleans. -/
structure RuleTyped (ruleJson : Json) : Prop where
  processName : ruleJson.Takes Json.getString (ascii "processName")
  pathPattern : ruleJson.Takes Json.getString (ascii "pathPattern")
  allowRead : ruleJson.Takes Json.getBool (ascii "allowRead")
  allowWrite : ruleJson.Takes Json.getBool (ascii "allowWrite")
  allowExecute : ruleJson.Takes Json.getBool (ascii "allowExecute")
  allowDelete : ruleJson.Takes Json.getBool (ascii "allowDelete")

/-- The file opens and is a document with an array of rules. -/
def HasRules (parse : List UInt8 → Option Json) (file : Option (List UInt8))
    (items : List Json) : Prop :=
  ∃ content j, file = some content ∧ parse content = some j ∧
    ∃ fields, j = .object fields ∧ Json.find (ascii "rules") fields = some (.array items)

/-- The rules of the file are the tracker's, or the call fails and the tracker is as it was. -/
def LoadsAllOrNothing (parse : List UInt8 → Option Json) (tracker : ProcessTracker)
    (file : Option (List UInt8)) : Prop :=
  (∃ items rules, HasRules parse file items ∧ List.Forall₂ RuleGiven items rules ∧
      loadRules parse tracker file = (.returns true, { tracker with rules })) ∨
    loadRules parse tracker file = (.returns false, tracker)

/-! ## The reads of a rule -/

theorem ruleFromJson_eq_some_iff {ruleJson : Json} {rule : AccessRule} :
    ruleFromJson ruleJson = some rule ↔ RuleGiven ruleJson rule := by
  constructor
  · intro h
    simp only [ruleFromJson, bind, pure, Option.bind_eq_some_iff, Json.value_eq_some_iff] at h
    obtain ⟨name, hname, path, hpath, r, hr, w, hw, x, hx, d, hd, hrule⟩ := h
    cases Option.some.inj hrule
    exact ⟨⟨name, hname, rfl⟩, ⟨path, hpath, rfl⟩, hr, hw, hx, hd⟩
  · intro h
    obtain ⟨⟨name, hname, heqName⟩, ⟨path, hpath, heqPath⟩, hr, hw, hx, hd⟩ := h
    rw [← Json.value_eq_some_iff] at hname hpath hr hw hx hd
    simp only [ruleFromJson, hname, hpath, hr, hw, hx, hd, bind, Option.bind, pure,
      ← heqName, ← heqPath]

theorem ruleTyped_iff {ruleJson : Json} : RuleTyped ruleJson ↔ (ruleFromJson ruleJson).isSome := by
  constructor
  · intro h
    obtain ⟨name, hname⟩ := h.processName.value (ascii "*")
    obtain ⟨path, hpath⟩ := h.pathPattern.value (ascii "*")
    obtain ⟨r, hr⟩ := h.allowRead.value true
    obtain ⟨w, hw⟩ := h.allowWrite.value true
    obtain ⟨x, hx⟩ := h.allowExecute.value true
    obtain ⟨d, hd⟩ := h.allowDelete.value true
    simp [ruleFromJson, hname, hpath, hr, hw, hx, hd]
  · intro h
    obtain ⟨rule, hrule⟩ := Option.isSome_iff_exists.mp h
    obtain ⟨⟨name, hname, -⟩, ⟨path, hpath, -⟩, hr, hw, hx, hd⟩ :=
      ruleFromJson_eq_some_iff.mp hrule
    exact ⟨hname.takes, hpath.takes, hr.takes, hw.takes, hx.takes, hd.takes⟩

theorem rulesFromJson_eq_some_iff {items : List Json} {rules : List AccessRule} :
    rulesFromJson items = some rules ↔ List.Forall₂ RuleGiven items rules := by
  induction items generalizing rules with
  | nil => simp [rulesFromJson, List.forall₂_nil_left_iff, eq_comm]
  | cons ruleJson rest ih =>
    simp only [rulesFromJson, bind, pure, Option.bind_eq_some_iff, ruleFromJson_eq_some_iff, ih,
      List.forall₂_cons_left_iff]
    constructor
    · rintro ⟨rule, hrule, newRules, hrest, heq⟩
      exact ⟨rule, newRules, hrule, hrest, (Option.some.inj heq).symm⟩
    · rintro ⟨rule, newRules, hrule, hrest, heq⟩
      exact ⟨rule, hrule, newRules, hrest, congrArg some heq.symm⟩

/-- One rule that does not read ends the loop. -/
theorem rulesFromJson_isSome_iff {items : List Json} :
    (rulesFromJson items).isSome ↔ ∀ ruleJson ∈ items, RuleTyped ruleJson := by
  induction items with
  | nil => simp [rulesFromJson]
  | cons ruleJson rest ih =>
    rw [List.forall_mem_cons, ← ih, ruleTyped_iff]
    cases hrule : ruleFromJson ruleJson <;> cases hrest : rulesFromJson rest <;>
      simp [rulesFromJson, hrule, hrest]

/-! ## The call -/

section Call

variable {parse : List UInt8 → Option Json} {tracker : ProcessTracker}
  {file : Option (List UInt8)} {items : List Json}

theorem arrayField_eq_some_iff {j : Json} {key : Utf8String} :
    arrayField j key = some items ↔
      ∃ fields, j = .object fields ∧ Json.find key fields = some (.array items) := by
  unfold arrayField
  cases j with
  | object fields =>
    simp only [Json.object.injEq, exists_eq_left']
    split
    · next hfind => simp [hfind]
    · next hnone =>
      simp only [reduceCtorEq, false_iff]
      exact fun hfind => hnone items hfind
  | null | bool | number | string | array => simp

/-- With an array of rules, the loop over them decides. -/
theorem loadRules_of_hasRules (h : HasRules parse file items) (tracker : ProcessTracker) :
    (rulesFromJson items = none ∧ loadRules parse tracker file = (.throws, tracker)) ∨
      ∃ rules, rulesFromJson items = some rules ∧
        loadRules parse tracker file = (.returns true, { tracker with rules }) := by
  obtain ⟨content, j, rfl, hparse, harray⟩ := h
  rw [← arrayField_eq_some_iff] at harray
  unfold loadRules
  cases hrules : rulesFromJson items with
  | none =>
    left
    simp only [hparse, harray, hrules, and_self]
  | some rules =>
    right
    refine ⟨rules, rfl, ?_⟩
    simp only [hparse, harray, hrules]

/-- Without one, the call fails. -/
theorem loadRules_of_not_hasRules (h : ∀ items, ¬ HasRules parse file items) :
    loadRules parse tracker file = (.returns false, tracker) := by
  unfold loadRules
  cases hfile : file with
  | none => rfl
  | some content =>
    dsimp only
    cases hparse : parse content with
    | none => rfl
    | some j =>
      dsimp only
      cases harray : arrayField j (ascii "rules") with
      | none => rfl
      | some items =>
        exact absurd ⟨content, j, hfile, hparse, arrayField_eq_some_iff.mp harray⟩ (h items)

theorem HasRules.unique {items' : List Json} (h : HasRules parse file items)
    (h' : HasRules parse file items') : items = items' := by
  obtain ⟨content, j, hfile, hparse, fields, hj, hfind⟩ := h
  obtain ⟨content', j', hfile', hparse', fields', hj', hfind'⟩ := h'
  cases Option.some.inj (hfile.symm.trans hfile')
  cases Option.some.inj (hparse.symm.trans hparse')
  cases Json.object.inj (hj.symm.trans hj')
  exact Json.array.inj (Option.some.inj (hfind.symm.trans hfind'))

/-- Whatever the file, a call that does not return `true` leaves the tracker as it was. -/
theorem loadRules_unchanged
    (h : (loadRules parse tracker file).1 ≠ .returns true) :
    (loadRules parse tracker file).2 = tracker := by
  by_cases hrules : ∃ items, HasRules parse file items
  · obtain ⟨items, hitems⟩ := hrules
    obtain ⟨-, hload⟩ | ⟨rules, -, hload⟩ := loadRules_of_hasRules hitems tracker
    · rw [hload]
    · rw [hload] at h
      exact absurd rfl h
  · rw [loadRules_of_not_hasRules (not_exists.mp hrules)]

end Call

/-- Loading is all or nothing exactly when every rule of the file, if it has rules, is an object
with fields of the documented types. -/
theorem loadRules_allOrNothing_iff (parse : List UInt8 → Option Json) (tracker : ProcessTracker)
    (file : Option (List UInt8)) :
    LoadsAllOrNothing parse tracker file ↔
      ∀ items, HasRules parse file items → ∀ ruleJson ∈ items, RuleTyped ruleJson := by
  constructor
  · intro h items hitems
    rw [← rulesFromJson_isSome_iff]
    obtain ⟨hnone, hload⟩ | ⟨rules, hsome, -⟩ := loadRules_of_hasRules hitems tracker
    · -- The exception is neither of the two ends.
      obtain ⟨_, _, -, -, hend⟩ | hend := h <;>
        exact absurd (congrArg Prod.fst (hload.symm.trans hend)) (by simp)
    · rw [hsome]
      rfl
  · intro h
    by_cases hrules : ∃ items, HasRules parse file items
    · obtain ⟨items, hitems⟩ := hrules
      have hsome := rulesFromJson_isSome_iff.mpr (h items hitems)
      obtain ⟨hnone, -⟩ | ⟨rules, hread, hload⟩ :=
        loadRules_of_hasRules hitems tracker
      · rw [hnone] at hsome
        exact absurd hsome (by simp)
      · exact .inl ⟨items, rules, hitems, rulesFromJson_eq_some_iff.mp hread, hload⟩
    · exact .inr (loadRules_of_not_hasRules (not_exists.mp hrules))

/-- The text of a file with a number for a rule, and what the parser makes of it. -/
def numberForRule : List UInt8 := ascii "\x7b\"rules\":[1]\x7d"

def parseNumberForRule (content : List UInt8) : Option Json :=
  if content = numberForRule then some (.object [(ascii "rules", .array [.number 1])]) else none

/-- The call on such a file ends with an exception. -/
theorem loadRules_number_throws :
    ¬ ∀ tracker, LoadsAllOrNothing parseNumberForRule tracker (some numberForRule) := by
  intro h
  have hload : loadRules parseNumberForRule ⟨[], ⟨[], 0, 0, 0⟩⟩ (some numberForRule)
      = (.throws, ⟨[], ⟨[], 0, 0, 0⟩⟩) := by
    simp [loadRules, parseNumberForRule, arrayField, Json.find, rulesFromJson, ruleFromJson,
      Json.value]
  obtain ⟨_, _, -, -, hend⟩ | hend := h ⟨[], ⟨[], 0, 0, 0⟩⟩ <;>
    exact absurd (congrArg Prod.fst (hload.symm.trans hend)) (by simp)

end LayerMount
