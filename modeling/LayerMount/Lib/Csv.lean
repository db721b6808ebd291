import Mathlib.Tactic.Common
import Mathlib.Data.List.Forall2

/-!
# Comma-separated values

The records of RFC 4180, read by a state machine one character at a time: a field is
plain, or stands between quotes with its own quotes doubled, and a record ends at one
character.  Characters are of any type; plain is whatever is none of the four marks.

`parse_lines` says that fields written in either form, joined to lines, read back.
-/

namespace LayerMount.Lib.Csv

variable {α : Type} [DecidableEq α]

structure Dialect (α : Type) where
  comma : α
  quote : α
  lineEnd : α
  carriageReturn : α
  comma_ne_lineEnd : comma ≠ lineEnd
  quote_ne_comma : quote ≠ comma
  quote_ne_lineEnd : quote ≠ lineEnd
  quote_ne_carriageReturn : quote ≠ carriageReturn

inductive Place where
  | fieldStart
  | unquoted
  | quoted
  /-- After a quote inside quotes, which ends the field or is the first of two. -/
  | closing
  deriving DecidableEq, Repr

structure Reader (α : Type) where
  place : Place := .fieldStart
  field : List α := []
  record : List (List α) := []
  records : List (List (List α)) := []

namespace Reader

def endField (r : Reader α) : Reader α :=
  { r with place := .fieldStart, field := [], record := r.record ++ [r.field] }

def endRecord (r : Reader α) : Reader α := { records := r.records ++ [r.record ++ [r.field]] }

def step (d : Dialect α) (r : Reader α) (c : α) : Option (Reader α) :=
  match r.place with
  | .quoted =>
    if c = d.quote then some { r with place := .closing }
    else some { r with field := r.field ++ [c] }
  | .closing =>
    if c = d.quote then some { r with place := .quoted, field := r.field ++ [c] }
    else if c = d.comma then some r.endField
    else if c = d.lineEnd then some r.endRecord
    else none
  | .fieldStart | .unquoted =>
    if c = d.comma then some r.endField
    else if c = d.lineEnd then some r.endRecord
    else if c = d.carriageReturn then none
    else if c = d.quote then if r.place = .fieldStart then some { r with place := .quoted } else none
    else some { r with place := .unquoted, field := r.field ++ [c] }

theorem step_comma {r : Reader α} (d : Dialect α) (hplace : r.place ≠ .quoted) :
    r.step d d.comma = some r.endField := by
  unfold step
  split
  · next h => exact absurd h hplace
  · rw [if_neg d.quote_ne_comma.symm, if_pos rfl]
  · rw [if_pos rfl]
  · rw [if_pos rfl]

theorem step_lineEnd {r : Reader α} (d : Dialect α) (hplace : r.place ≠ .quoted) :
    r.step d d.lineEnd = some r.endRecord := by
  unfold step
  split
  · next h => exact absurd h hplace
  · rw [if_neg d.quote_ne_lineEnd.symm, if_neg d.comma_ne_lineEnd.symm, if_pos rfl]
  · rw [if_neg d.comma_ne_lineEnd.symm, if_pos rfl]
  · rw [if_neg d.comma_ne_lineEnd.symm, if_pos rfl]

/-- The last record may go without its end. -/
def finish (r : Reader α) : Option (List (List (List α))) :=
  if r.place = .quoted then none
  else if r.place = .fieldStart ∧ r.record = [] then some r.records
  else some r.endRecord.records

end Reader

def parse (d : Dialect α) (text : List α) : Option (List (List (List α))) :=
  (text.foldlM (Reader.step d) {}).bind Reader.finish

def Plain (d : Dialect α) (c : α) : Prop :=
  c ≠ d.comma ∧ c ≠ d.quote ∧ c ≠ d.lineEnd ∧ c ≠ d.carriageReturn

/-- A text with its quotes doubled. -/
def doubled (d : Dialect α) (text : List α) : List α :=
  text.flatMap fun c => if c = d.quote then [d.quote, d.quote] else [c]

/-- `raw` is a way to write `field`. -/
inductive Writes (d : Dialect α) : List α → List α → Prop where
  | plain {field : List α} (h : ∀ c ∈ field, Plain d c) : Writes d field field
  | quoted (field : List α) : Writes d (d.quote :: (doubled d field ++ [d.quote])) field

namespace Writes

variable {d : Dialect α}

/-- The induction is on the text; the place moves with its first character. -/
theorem run_plain {field : List α} (h : ∀ c ∈ field, Plain d c) {r : Reader α}
    (hplace : r.place = .fieldStart ∨ r.place = .unquoted) :
    field.foldlM (Reader.step d) r = some
      { r with place := if field = [] then r.place else .unquoted, field := r.field ++ field } := by
  induction field generalizing r with
  | nil =>
    rw [List.append_nil]
    rfl
  | cons c field ih =>
    rw [List.forall_mem_cons] at h
    obtain ⟨⟨hcomma, hquote, hend, hreturn⟩, hrest⟩ := h
    have hstep : r.step d c = some { r with place := .unquoted, field := r.field ++ [c] } := by
      unfold Reader.step
      obtain hp | hp := hplace
      · simp only [hp, if_neg hcomma, if_neg hend, if_neg hreturn, if_neg hquote]
      · simp only [hp, if_neg hcomma, if_neg hend, if_neg hreturn, if_neg hquote]
    rw [List.foldlM_cons, hstep]
    show field.foldlM (Reader.step d) _ = _
    rw [ih hrest (.inr rfl)]
    simp

theorem run_doubled (field : List α) {r : Reader α} (hplace : r.place = .quoted) :
    (doubled d field).foldlM (Reader.step d) r = some { r with field := r.field ++ field } := by
  induction field generalizing r with
  | nil =>
    rw [List.append_nil]
    rfl
  | cons c field ih =>
    have hone : (if c = d.quote then [d.quote, d.quote] else [c]).foldlM (Reader.step d) r
        = some { r with field := r.field ++ [c] } := by
      split
      · next hquote =>
        subst hquote
        simp [Reader.step, hplace]
      · next hquote => simp [Reader.step, hplace, hquote]
    show ((if c = d.quote then [d.quote, d.quote] else [c]) ++ doubled d field).foldlM _ r = _
    rw [List.foldlM_append, hone]
    have hnext : ({ r with field := r.field ++ [c] } : Reader α).place = .quoted := hplace
    show (doubled d field).foldlM (Reader.step d) _ = _
    rw [ih hnext]
    simp

/-- What a written field leaves: it is read, and the next mark ends it. -/
theorem run {raw field : List α} (h : Writes d raw field) {r : Reader α}
    (hplace : r.place = .fieldStart) (hfield : r.field = []) :
    ∃ r' : Reader α, raw.foldlM (Reader.step d) r = some r' ∧ r'.place ≠ .quoted ∧
      r'.field = field ∧ r'.record = r.record ∧ r'.records = r.records := by
  cases h with
  | plain hplain =>
    refine ⟨_, run_plain hplain (.inl hplace), ?_, ?_, rfl, rfl⟩
    · show (if raw = [] then r.place else Place.unquoted) ≠ .quoted
      rw [hplace]
      split
      · decide
      · decide
    · show r.field ++ raw = raw
      rw [hfield, List.nil_append]
  | quoted =>
    have hopen : r.step d d.quote = some { r with place := .quoted } := by
      unfold Reader.step
      simp only [hplace, if_neg d.quote_ne_comma, if_neg d.quote_ne_lineEnd,
        if_neg d.quote_ne_carriageReturn, if_true]
    refine ⟨{ r with place := .closing, field := r.field ++ field }, ?_, ?_, ?_, rfl, rfl⟩
    · rw [List.foldlM_cons, hopen]
      show (doubled d field ++ [d.quote]).foldlM (Reader.step d) _ = _
      rw [List.foldlM_append, run_doubled field rfl]
      simp [Reader.step]
    · exact Place.noConfusion
    · show r.field ++ field = field
      rw [hfield, List.nil_append]

end Writes

/-! ## Lines -/

/-- The fields of a record, each with its mark. -/
def line (d : Dialect α) : List (List α) → List α
  | [] => []
  | [raw] => raw ++ [d.lineEnd]
  | raw :: raws => raw ++ d.comma :: line d raws

theorem run_line {d : Dialect α} {raws fields : List (List α)}
    (hwrites : List.Forall₂ (Writes d) raws fields) (hne : raws ≠ []) {r : Reader α}
    (hplace : r.place = .fieldStart) (hfield : r.field = []) :
    (line d raws).foldlM (Reader.step d) r
      = some { records := r.records ++ [r.record ++ fields] } := by
  induction hwrites generalizing r with
  | nil => exact absurd rfl hne
  | @cons raw field raws fields hwrite hrest ih =>
    obtain ⟨r', hrun, hopen, hread, hrecord, hrecords⟩ := hwrite.run hplace hfield
    cases hrest with
    | nil =>
      show (raw ++ [d.lineEnd]).foldlM (Reader.step d) r = _
      rw [List.foldlM_append, hrun]
      show [d.lineEnd].foldlM (Reader.step d) r' = _
      rw [List.foldlM_cons, Reader.step_lineEnd d hopen]
      show some r'.endRecord = _
      rw [Reader.endRecord, hread, hrecord, hrecords]
    | @cons next _ nexts _ hnext hrest =>
      show (raw ++ d.comma :: line d (next :: nexts)).foldlM (Reader.step d) r = _
      rw [List.foldlM_append, hrun]
      show (d.comma :: line d (next :: nexts)).foldlM (Reader.step d) r' = _
      rw [List.foldlM_cons, Reader.step_comma d hopen]
      show (line d (next :: nexts)).foldlM (Reader.step d) r'.endField = _
      rw [ih (List.cons_ne_nil _ _) rfl rfl]
      show some ({ records := r'.records ++ [(r'.record ++ [r'.field]) ++ _] } : Reader α) = _
      rw [hread, hrecord, hrecords, List.append_assoc]
      rfl

/-- Lines of written fields read back.  The induction is on the lines. -/
theorem run_lines {d : Dialect α} {lines records : List (List (List α))}
    (h : List.Forall₂ (fun raws fields => raws ≠ [] ∧ List.Forall₂ (Writes d) raws fields)
      lines records) (done : List (List (List α))) :
    (lines.flatMap (line d)).foldlM (Reader.step d) { records := done }
      = some { records := done ++ records } := by
  induction h generalizing done with
  | nil =>
    rw [List.append_nil]
    rfl
  | @cons raws fields lines records hline _ ih =>
    rw [List.flatMap_cons, List.foldlM_append, run_line hline.2 hline.1 rfl rfl]
    show (lines.flatMap (line d)).foldlM (Reader.step d) _ = _
    rw [ih, List.append_assoc]
    rfl

theorem parse_lines {d : Dialect α} {lines records : List (List (List α))}
    (h : List.Forall₂ (fun raws fields => raws ≠ [] ∧ List.Forall₂ (Writes d) raws fields)
      lines records) : parse d (lines.flatMap (line d)) = some records := by
  unfold parse
  rw [run_lines h []]
  rfl

end LayerMount.Lib.Csv
