import SemanticAnalysis.Span

/-!
Positioned messages about a unit. Notes and warnings stop nothing, an error fails
the pass that reports it, and a crash, which says that something that should hold
inside the analysis does not, stops the whole unit.
-/

namespace SemanticAnalysis

inductive Severity where
  | note
  | warning
  | error
  | crash
deriving DecidableEq

namespace Severity

def name : Severity → String
  | .note => "note"
  | .warning => "warning"
  | .error => "error"
  | .crash => "crash"

def isFailure : Severity → Bool
  | .note | .warning => false
  | .error | .crash => true

end Severity

inductive Message where
  | duplicatedModules (name : String)
  | nonGlobalSingleModule (name : String)
  | undeclaredUsage (name : String)
  | ambiguousUsage (name : String)
  | duplicatedVariable (name : String)
  | duplicated (name : String)
  | immutableConstruct (what : String)
  | immutableVariable (name : String)
  | notAValue (kind name : String)
  | mismatchedTypes (expected found : String)
  | infiniteType (var type : String)
  | usedBeforeBinding (name : String)
  | dependencyFailed (name : String)
  | crash (description : String)
deriving DecidableEq

namespace Message

def text : Message → String
  | .duplicatedModules name => "file contains duplicated module `" ++ name ++ "`"
  | .nonGlobalSingleModule name =>
    "module `" ++ name ++ "` is the only module in its file and should be global"
  | .undeclaredUsage name => "undeclared usage of `" ++ name ++ "`"
  | .ambiguousUsage name =>
    "ambiguous usage of `" ++ name ++ "`: it matches several declarations"
  | .duplicatedVariable name =>
    "variable `" ++ name ++ "` is declared more than once in this block"
  | .duplicated name => "declaration `" ++ name ++ "` has duplicates"
  | .immutableConstruct what => "cannot assign to " ++ what
  | .immutableVariable name => "cannot reassign immutable variable `" ++ name ++ "`"
  | .notAValue kind name => kind ++ " `" ++ name ++ "` cannot be used as a value"
  | .mismatchedTypes expected found =>
    "mismatched types: expected `" ++ expected ++ "`, found `" ++ found ++ "`"
  | .infiniteType var type => "infinite type: `" ++ var ++ "` occurs in `" ++ type ++ "`"
  | .usedBeforeBinding name => "`" ++ name ++ "` is used before it is bound"
  | .dependencyFailed name =>
    "`" ++ name ++ "` was not typed because a declaration it uses failed"
  | .crash description => "internal compiler error: " ++ description

def code : Message → String
  | .duplicatedModules _ => "KSeE1"
  | .nonGlobalSingleModule _ => "KSeW1"
  | .undeclaredUsage _ => "KSeE3"
  | .ambiguousUsage _ => "KSeE4"
  | .duplicatedVariable _ => "KSeE5"
  | .duplicated _ => "KSeE6"
  | .immutableConstruct _ => "KSeE7"
  | .immutableVariable _ => "KSeE8"
  | .notAValue _ _ => "KSeE9"
  | .mismatchedTypes _ _ => "KTyE1"
  | .infiniteType _ _ => "KTyE2"
  | .usedBeforeBinding _ => "KTyE3"
  | .dependencyFailed _ => "KTyN1"
  | .crash _ => "KCE1"

def severity : Message → Severity
  | .dependencyFailed _ => .note
  | .nonGlobalSingleModule _ => .warning
  | .crash _ => .crash
  | _ => .error

end Message

/-- A message at positions of a file, the first of which is the main one. -/
structure Report where
  file : String
  points : List Span
  severity : Severity
  message : Message
deriving DecidableEq

namespace Report

def of (file : String) (points : List Span) (message : Message) : Report :=
  ⟨file, points, message.severity, message⟩

def isFailure (r : Report) : Bool := r.severity.isFailure

def text (r : Report) : String :=
  let place := match r.points with
    | [] => ""
    | main :: _ => ":" ++ main.text
  r.file ++ place ++ " " ++ r.severity.name ++ "[" ++ r.message.code ++ "]: " ++ r.message.text

end Report

structure Collector where
  reports : List Report
  warningsAsErrors : Bool

namespace Collector

def start (warningsAsErrors : Bool) : Collector := ⟨[], warningsAsErrors⟩

/-- The report as it is kept: warnings may count as errors. -/
def grade (c : Collector) (r : Report) : Report :=
  if c.warningsAsErrors && r.severity = .warning then { r with severity := .error } else r

def collect (c : Collector) (r : Report) : Collector :=
  { c with reports := c.reports ++ [c.grade r] }

def collectAll (c : Collector) (rs : List Report) : Collector := rs.foldl collect c

def size (c : Collector) : Nat := c.reports.length

def hasFailures (c : Collector) : Bool := c.reports.any Report.isFailure

def hasFailuresSince (c : Collector) (start : Nat) : Bool :=
  (c.reports.drop start).any Report.isFailure

def withSeverity (c : Collector) (s : Severity) : List Report :=
  c.reports.filter fun r => r.severity = s

end Collector

end SemanticAnalysis
