import LayerMount.WideText
import LayerMount.Lib.Json
import Mathlib.Data.List.Infix

/-!
# The process tracker

`ProcessTracker.cpp`: the rules that allow or deny an operation, the log of the accesses in a
circular buffer, and the export of the log as CSV.

What the engine asks the host about a process is one name for each process id.  A text
of a time is what `FormatTimestamp` makes of it, for the export a parameter.  The locks
are left out: each function runs under its own.  `IsExecuteOp` is false of every
operation, as in the source.
-/

namespace LayerMount

open Lib

/-! ## Operations -/

inductive OperationType where
  | create
  | openEntry
  | read
  | write
  | overwrite
  | delete
  | rename
  | getInfo
  | setInfo
  | setSize
  | getSecurity
  | setSecurity
  | readDirectory
  | flush
  | cleanup
  | close
  deriving DecidableEq, Repr

namespace OperationType

def isReadOp : OperationType → Bool
  | openEntry | read | getInfo | getSecurity | readDirectory => true
  | _ => false

def isWriteOp : OperationType → Bool
  | create | write | overwrite | setInfo | setSize | setSecurity | flush | rename => true
  | _ => false

def isDeleteOp (op : OperationType) : Bool := op = delete

def isExecuteOp (_ : OperationType) : Bool := false

/-- `OperationName`. -/
def name : OperationType → String
  | create => "Create"
  | openEntry => "Open"
  | read => "Read"
  | write => "Write"
  | overwrite => "Overwrite"
  | delete => "Delete"
  | rename => "Rename"
  | getInfo => "GetInfo"
  | setInfo => "SetInfo"
  | setSize => "SetSize"
  | getSecurity => "GetSecurity"
  | setSecurity => "SetSecurity"
  | readDirectory => "ReadDirectory"
  | flush => "Flush"
  | cleanup => "Cleanup"
  | close => "Close"

end OperationType

/-- `OperationName` as the source's wide literal. -/
def operationName (op : OperationType) : WideString := encodeUtf16 op.name.toList

/-! ## Rules -/

structure AccessRule where
  processNamePattern : WideString
  pathPattern : WideString
  allowRead : Bool := true
  allowWrite : Bool := true
  allowExecute : Bool := true
  allowDelete : Bool := true
  deriving DecidableEq, Repr

/-- The branches of `WildcardMatch` on the folded texts. -/
def matchFolded (lowerPattern lowerText : WideString) : Bool :=
  match lowerPattern.idxOf? kStar with
  | none => lowerPattern = lowerText
  | some starPos =>
    if starPos = 0 ∧ starPos = lowerPattern.length - 1 ∧ lowerPattern.length = 1 then true
    else if starPos = 0 ∧ starPos = lowerPattern.length - 1 then
      -- *middle*
      decide ((lowerPattern.drop 1).take (lowerPattern.length - 2) <:+: lowerText)
    else if starPos = 0 then
      -- *suffix
      let suffix := lowerPattern.drop 1
      if lowerText.length < suffix.length then false
      else lowerText.drop (lowerText.length - suffix.length) = suffix
    else if starPos = lowerPattern.length - 1 then
      -- prefix*
      let start := lowerPattern.take starPos
      if lowerText.length < start.length then false
      else lowerText.take start.length = start
    else false

/-- `WildcardMatch`. -/
def wildcardMatch (F : CaseFold) (pattern text : WideString) : Bool :=
  if pattern = [kStar] then true
  else if pattern.isEmpty then text.isEmpty
  else matchFolded (F.fold pattern) (F.fold text)

/-- What the loop of `CheckAccess` decides: whether the operation is allowed, and why
not. -/
structure AccessDecision where
  allowed : Bool := true
  reason : WideString := []
  deriving DecidableEq, Repr

def AccessRule.denied (rule : AccessRule) : AccessDecision :=
  { allowed := false
    reason := encodeUtf16 "Denied by rule: ".toList ++ rule.processNamePattern ++
      encodeUtf16 " / ".toList ++ rule.pathPattern }

/-- What a matching rule decides. -/
def AccessRule.decision (rule : AccessRule) (op : OperationType) : AccessDecision :=
  if op.isReadOp && !rule.allowRead then rule.denied
  else if op.isWriteOp && !rule.allowWrite then rule.denied
  else if op.isDeleteOp && !rule.allowDelete then rule.denied
  else if op.isExecuteOp && !rule.allowExecute then rule.denied
  else {}

/-- The loop of `CheckAccess` over the rules.  The first match ends it. -/
def evaluateRules (F : CaseFold) (processName path : WideString) (op : OperationType) :
    List AccessRule → AccessDecision
  | [] => {}
  | rule :: rest =>
    if !wildcardMatch F rule.processNamePattern processName then
      evaluateRules F processName path op rest
    else if !wildcardMatch F rule.pathPattern path then evaluateRules F processName path op rest
    else rule.decision op

/-! ## The log -/

structure AccessLogEntry where
  pid : UInt32 := 0
  processName : WideString := []
  filePath : WideString := []
  operation : OperationType := .openEntry
  /-- Ticks of the system clock. -/
  timestamp : Int := 0
  allowed : Bool := true
  reason : WideString := []
  deriving DecidableEq, Repr

/-- `size_t` arithmetic. -/
def sizeT (n : Nat) : Nat := n % 2 ^ 64

/-- `PTRDIFF_MAX`, which no vector's size exceeds. -/
def kMaxVectorSize : Nat := 2 ^ 63 - 1

structure AccessLog where
  logBuffer : List AccessLogEntry
  logHead : Nat := 0
  logCount : Nat := 0
  logCapacity : Nat

/-- The constructor, whose resize throws when no vector is that long. -/
def AccessLog.ofCapacity (logCapacity : Nat) : Option AccessLog :=
  if kMaxVectorSize < logCapacity then none
  else some { logBuffer := List.replicate logCapacity {}, logCapacity }

def addLogEntry (log : AccessLog) (entry : AccessLogEntry) : AccessLog :=
  { log with
    logBuffer := log.logBuffer.set log.logHead entry
    logHead := sizeT (log.logHead + 1) % log.logCapacity
    logCount := if log.logCount < log.logCapacity then log.logCount + 1 else log.logCount }

/-- The indices that `GetRecentEntries` reads, in order.  The subtraction wraps. -/
def recentIndices (log : AccessLog) (count : Nat) : List Nat :=
  let actual := min count log.logCount
  if actual = 0 then []
  else
    let start := sizeT (sizeT (log.logHead + log.logCapacity) + (2 ^ 64 - actual)) % log.logCapacity
    (List.range actual).map fun i => sizeT (start + i) % log.logCapacity

def getRecentEntries (log : AccessLog) (count : Nat) : List AccessLogEntry :=
  (recentIndices log count).map fun i => log.logBuffer.getD i {}

/-! ## Calls -/

structure ProcessTracker where
  rules : List AccessRule := []
  log : AccessLog

/-- `LM_EVT_ACCESS_DENIED`. -/
structure AccessDenied where
  path : WideString
  reason : WideString
  pid : UInt32
  deriving DecidableEq, Repr

/-- What one `CheckAccess` gives: its answer, the tracker after it, and the event it emits. -/
structure AccessCheck where
  allowed : Bool
  tracker : ProcessTracker
  event : Option AccessDenied

def checkAccess (F : CaseFold) (resolveProcess : UInt32 → WideString) (tracker : ProcessTracker)
    (pid : UInt32) (relativePath : WideString) (op : OperationType) (now : Int) : AccessCheck :=
  let processName := resolveProcess pid
  let decision := evaluateRules F processName relativePath op tracker.rules
  let entry : AccessLogEntry :=
    { pid, processName, filePath := relativePath, operation := op, timestamp := now
      allowed := decision.allowed, reason := decision.reason }
  { allowed := decision.allowed
    tracker := { tracker with log := addLogEntry tracker.log entry }
    event := if decision.allowed then none else some ⟨relativePath, decision.reason, pid⟩ }

/-- `LogAccess`. -/
def logAccess (resolveProcess : UInt32 → WideString) (tracker : ProcessTracker) (pid : UInt32)
    (relativePath : WideString) (op : OperationType) (now : Int) : ProcessTracker :=
  { tracker with
    log := addLogEntry tracker.log
      { pid, processName := resolveProcess pid, filePath := relativePath, operation := op
        timestamp := now } }

/-! ## The export -/

def quote : UInt8 := 0x22

def comma : UInt8 := 0x2C

def lineFeed : UInt8 := 0x0A

def carriageReturn : UInt8 := 0x0D

def apostrophe : UInt8 := 0x27

/-- A first character that a spreadsheet takes for the start of a formula. -/
def startsFormula (b : UInt8) : Bool :=
  b = 0x3D || b = 0x2B || b = 0x2D || b = 0x40 || b = 0x09 || b = carriageReturn

def needsFormulaEscape : Utf8String → Bool
  | [] => false
  | b :: _ => startsFormula b

def breaksField (b : UInt8) : Bool :=
  b = comma || b = quote || b = lineFeed || b = carriageReturn

def csvEscape (field : Utf8String) : Utf8String :=
  if !(needsFormulaEscape field || field.any breaksField) then field
  else
    [quote] ++ (if needsFormulaEscape field then [apostrophe] else []) ++
      (field.flatMap fun b => if b = quote then [quote, quote] else [b]) ++ [quote]

def ascii (s : String) : Utf8String := encodeUtf8 s.toList

/-- A number through an output stream of the classic locale. -/
def decimal (n : Nat) : Utf8String := encodeUtf8 (Nat.toDigits 10 n)

def csvHeader : Utf8String :=
  ascii "Timestamp,PID,ProcessName,FilePath,Operation,Allowed,Reason\n"

/-- One row of `ExportLogAsCsv`. -/
def csvRow (formatTimestamp : Int → Utf8String) (e : AccessLogEntry) : Utf8String :=
  csvEscape (formatTimestamp e.timestamp) ++ [comma] ++ decimal e.pid.toNat ++ [comma] ++
    csvEscape (wideToUtf8 e.processName) ++ [comma] ++ csvEscape (wideToUtf8 e.filePath) ++
    [comma] ++ csvEscape (wideToUtf8 (operationName e.operation)) ++ [comma] ++
    ascii (if e.allowed then "true" else "false") ++ [comma] ++
    csvEscape (wideToUtf8 e.reason) ++ [lineFeed]

def exportLogAsCsv (formatTimestamp : Int → Utf8String) (log : AccessLog) : Utf8String :=
  csvHeader ++ (getRecentEntries log log.logCapacity).flatMap (csvRow formatTimestamp)

end LayerMount
