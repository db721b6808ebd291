import LayerMount.AccessLog
import LayerMount.Lib.Csv

/-!
# The exported log reads back

`ExportLogAsCsv` as lines of written fields.  `CsvEscape` writes a text, or the text behind
an apostrophe where it starts like a formula; so a reader of RFC 4180 gets one record for
each entry, and no field of it is a formula.
-/

namespace LayerMount

open Lib

/-- RFC 4180 with lines that end at LF. -/
def rfc4180 : Csv.Dialect UInt8 where
  comma := comma
  quote := quote
  lineEnd := lineFeed
  carriageReturn := carriageReturn
  comma_ne_lineEnd := by decide
  quote_ne_comma := by decide
  quote_ne_lineEnd := by decide
  quote_ne_carriageReturn := by decide

/-! ## Fields -/

/-- What is read back of an escaped text. -/
def csvValue (field : Utf8String) : Utf8String :=
  if needsFormulaEscape field then apostrophe :: field else field

theorem breaksField_eq_false {b : UInt8} (h : breaksField b = false) : Csv.Plain rfc4180 b := by
  unfold breaksField at h
  simp only [Bool.or_eq_false_iff, decide_eq_false_iff_not] at h
  obtain ⟨⟨⟨hcomma, hquote⟩, hend⟩, hreturn⟩ := h
  exact ⟨hcomma, hquote, hend, hreturn⟩

theorem csvEscape_writes (field : Utf8String) :
    Csv.Writes rfc4180 (csvEscape field) (csvValue field) := by
  unfold csvEscape
  split
  · next h =>
    rw [Bool.not_eq_true', Bool.or_eq_false_iff] at h
    rw [csvValue, h.1, if_neg Bool.false_ne_true]
    apply Csv.Writes.plain
    intro b hb
    exact breaksField_eq_false (Bool.eq_false_iff.mpr (List.any_eq_false.mp h.2 b hb))
  · have hquoted := Csv.Writes.quoted (d := rfc4180) (csvValue field)
    unfold csvValue at hquoted ⊢
    split
    · next hformula =>
      rw [if_pos hformula] at hquoted
      exact hquoted
    · next hformula =>
      rw [if_neg hformula] at hquoted
      exact hquoted

theorem csvValue_cases (field : Utf8String) :
    csvValue field = field ∨ csvValue field = apostrophe :: field := by
  unfold csvValue
  split
  · exact .inr rfl
  · exact .inl rfl

/-- The apostrophe is in front of every text that starts like a formula. -/
theorem csvValue_no_formula (field : Utf8String) : needsFormulaEscape (csvValue field) = false := by
  unfold csvValue
  split
  · rfl
  · next h => exact Bool.eq_false_iff.mpr h

/-- A text of bytes that no field needs an escape for. -/
def Harmless (field : Utf8String) : Prop :=
  ∀ b ∈ field, breaksField b = false ∧ startsFormula b = false

instance (field : Utf8String) : Decidable (Harmless field) :=
  List.decidableBAll _ field

theorem Harmless.writes {field : Utf8String} (h : Harmless field) :
    Csv.Writes rfc4180 field field :=
  .plain fun b hb => breaksField_eq_false (h b hb).1

theorem Harmless.no_formula {field : Utf8String} (h : Harmless field) :
    needsFormulaEscape field = false := by
  cases field with
  | nil => rfl
  | cons b rest => exact (h b List.mem_cons_self).2

theorem harmless_digit {c : Char} (h : c.isDigit) : Harmless (String.utf8EncodeChar c) := by
  have hall : ∀ n ∈ List.range' 48 10, Harmless (String.utf8EncodeChar (Char.ofNat n)) := by
    decide
  have hrange : 48 ≤ c.toNat ∧ c.toNat ≤ 57 := by
    simpa [Char.isDigit, UInt32.le_iff_toNat_le] using h
  have hc := hall c.toNat (List.mem_range'_1.mpr (by omega))
  rwa [Char.ofNat_toNat] at hc

theorem harmless_decimal (n : Nat) : Harmless (decimal n) := by
  intro b hb
  obtain ⟨c, hc, hb⟩ := List.mem_flatMap.mp hb
  exact harmless_digit (Nat.isDigit_of_mem_toDigits (by decide) (by decide) hc) b hb

theorem harmless_allowed (allowed : Bool) :
    Harmless (ascii (if allowed then "true" else "false")) := by
  cases allowed
  · decide
  · decide

/-- A field that reads back as its text, or as the text behind an apostrophe, and is no
formula. -/
def ReadsBack (field text : Utf8String) : Prop :=
  (field = text ∨ field = apostrophe :: text) ∧ needsFormulaEscape field = false

theorem readsBack_csvValue (text : Utf8String) : ReadsBack (csvValue text) text :=
  ⟨csvValue_cases text, csvValue_no_formula text⟩

theorem Harmless.readsBack {text : Utf8String} (h : Harmless text) : ReadsBack text text :=
  ⟨.inl rfl, h.no_formula⟩

/-! ## Rows -/

section

variable (formatTimestamp : Int → Utf8String)

/-- The seven columns of an entry, with `f` on those that are escaped. -/
def columns (f : Utf8String → Utf8String) (e : AccessLogEntry) : List Utf8String :=
  [f (formatTimestamp e.timestamp), decimal e.pid.toNat, f (wideToUtf8 e.processName),
    f (wideToUtf8 e.filePath), f (wideToUtf8 (operationName e.operation)),
    ascii (if e.allowed then "true" else "false"), f (wideToUtf8 e.reason)]

theorem columns_forall₂ {R : Utf8String → Utf8String → Prop} {f g : Utf8String → Utf8String}
    (hescaped : ∀ text, R (f text) (g text)) (hplain : ∀ text, Harmless text → R text text)
    (e : AccessLogEntry) :
    List.Forall₂ R (columns formatTimestamp f e) (columns formatTimestamp g e) := by
  unfold columns
  exact .cons (hescaped _) (.cons (hplain _ (harmless_decimal _)) (.cons (hescaped _)
    (.cons (hescaped _) (.cons (hescaped _) (.cons (hplain _ (harmless_allowed _))
      (.cons (hescaped _) .nil))))))

theorem csvRow_eq (e : AccessLogEntry) :
    csvRow formatTimestamp e = Csv.line rfc4180 (columns formatTimestamp csvEscape e) := by
  simp [csvRow, columns, Csv.line, rfc4180]

/-- A written row, as the reader of lines wants it. -/
theorem row_writes (e : AccessLogEntry) :
    columns formatTimestamp csvEscape e ≠ [] ∧ List.Forall₂ (Csv.Writes rfc4180)
      (columns formatTimestamp csvEscape e) (columns formatTimestamp csvValue e) :=
  ⟨List.cons_ne_nil _ _, columns_forall₂ formatTimestamp csvEscape_writes
    (fun _ h => h.writes) e⟩

end

def headerFields : List Utf8String :=
  ["Timestamp", "PID", "ProcessName", "FilePath", "Operation", "Allowed", "Reason"].map ascii

theorem csvHeader_eq : csvHeader = Csv.line rfc4180 headerFields := by decide

theorem header_writes :
    headerFields ≠ [] ∧ List.Forall₂ (Csv.Writes rfc4180) headerFields headerFields := by
  have hharmless : ∀ field ∈ headerFields, Harmless field := by decide
  exact ⟨by decide, List.forall₂_same.mpr fun field hfield => (hharmless field hfield).writes⟩

/-- The export is its header and one line for each entry. -/
theorem exportLogAsCsv_eq (formatTimestamp : Int → Utf8String) (log : AccessLog) :
    exportLogAsCsv formatTimestamp log = (headerFields ::
      (getRecentEntries log log.logCapacity).map (columns formatTimestamp csvEscape)).flatMap
        (Csv.line rfc4180) := by
  unfold exportLogAsCsv
  rw [List.flatMap_cons, List.flatMap_map, csvHeader_eq]
  congr 1
  apply List.flatMap_congr
  intro e _
  exact csvRow_eq formatTimestamp e

theorem exportLogAsCsv_parse (formatTimestamp : Int → Utf8String) (log : AccessLog) :
    Csv.parse rfc4180 (exportLogAsCsv formatTimestamp log) = some (headerFields ::
      (getRecentEntries log log.logCapacity).map (columns formatTimestamp csvValue)) := by
  rw [exportLogAsCsv_eq]
  apply Csv.parse_lines
  refine .cons header_writes ?_
  rw [List.forall₂_map_left_iff, List.forall₂_map_right_iff, List.forall₂_same]
  intro e _
  exact row_writes formatTimestamp e

/-- The export of any log reads as a header and one record of seven fields for each of its
entries, in order.  Each field is the logged text, or the text behind an apostrophe, and none
starts like a formula. -/
theorem exportLogAsCsv_readsBack (formatTimestamp : Int → Utf8String) {capacity : Nat}
    {log : AccessLog} (hpos : 1 ≤ capacity) (h : AccessLog.ofCapacity capacity = some log)
    (added : List AccessLogEntry) :
    ∃ records, Csv.parse rfc4180
        (exportLogAsCsv formatTimestamp (added.foldl addLogEntry log))
          = some (headerFields :: records) ∧
      List.Forall₂ (fun record e => record.length = 7 ∧
          List.Forall₂ ReadsBack record (columns formatTimestamp id e))
        records (added.rtake (min added.length capacity)) := by
  obtain ⟨hnew, hcapacity⟩ := AccessLog.logged_ofCapacity hpos h
  have hrun := hnew.run added
  rw [List.nil_append] at hrun
  have hsame := (AccessLog.logCapacity_run log added).trans hcapacity
  refine ⟨_, exportLogAsCsv_parse formatTimestamp _, ?_⟩
  rw [hrun.getRecentEntries_eq, hsame, Nat.min_eq_right (Nat.min_le_right _ _),
    List.forall₂_map_left_iff, List.forall₂_same]
  intro e _
  exact ⟨rfl, columns_forall₂ formatTimestamp readsBack_csvValue (fun _ h => h.readsBack) e⟩

/-- A file whose name is a formula with a quote, a comma and a line break. -/
def formulaEntry : AccessLogEntry := { pid := 4, filePath := encodeUtf16 "=1+\"a\",\nb".toList }

theorem exportLogAsCsv_readsBack_formula :
    ∃ records, Csv.parse rfc4180 (exportLogAsCsv (fun _ => ascii "-1") ([formulaEntry].foldl
        addLogEntry { logBuffer := List.replicate 2 {}, logCapacity := 2 }))
          = some (headerFields :: records) ∧
      List.Forall₂ (fun record e => record.length = 7 ∧
          List.Forall₂ ReadsBack record (columns (fun _ => ascii "-1") id e))
        records [formulaEntry] :=
  exportLogAsCsv_readsBack (fun _ => ascii "-1") (by decide : 1 ≤ 2) rfl [formulaEntry]

end LayerMount
