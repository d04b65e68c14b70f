import SemanticAnalysis.Declarations.Inference
import SemanticAnalysis.Diagnostics.Checks
import SemanticAnalysis.Names.Resolution
import SemanticAnalysis.Session.Config

/-!
Running the passes over a unit. A pass with a failing report has failed, and the
passes that need it are skipped; a disabled pass disables those that need it; after
a crash the remaining passes are aborted.
-/

namespace SemanticAnalysis.Session

structure CompilationUnit where
  tree : Tree
  scopes : Option ScopeTree
  types : Option DeclarationTypes
  supply : Supply

def CompilationUnit.ofTree (t : Tree) : CompilationUnit := ⟨t, none, none, Supply.empty⟩

inductive PassStatus where
  | succeeded
  | failed
  | skipped
  | disabled
  | aborted
deriving DecidableEq

def PassStatus.name : PassStatus → String
  | .succeeded => "succeeded"
  | .failed => "failed"
  | .skipped => "skipped"
  | .disabled => "disabled"
  | .aborted => "aborted"

structure PassResult where
  unit : CompilationUnit
  reports : List Report

/-- A reference as written: `x`, `A::x` or `::A::x`. -/
def qualifiedName (t : Tree) (r : Reference) : String :=
  let before := match r.qualifier with
    | none => ""
    | some q =>
      (if q.fromRoot then "::" else "") ++
        String.join (q.chain.map fun link => t.symbols.display link ++ "::")
  before ++ t.symbols.display r.name

def unresolvedReport (t : Tree) (n : NodeId) (r : Reference) : ResolveError → Report
  | .notFound => Report.of t.file [t.span n] (.undeclaredUsage (qualifiedName t r))
  | .ambiguous candidates =>
    Report.of t.file (t.span n :: candidates.map t.span) (.ambiguousUsage (qualifiedName t r))

def resolvePass (space : Namespace) (u : CompilationUnit) : PassResult :=
  match u.scopes with
  | none =>
    let crash := Message.crash "references resolved before scopes were built"
    ⟨u, [Report.of u.tree.file [u.tree.span u.tree.root] crash]⟩
  | some scopes =>
    let results := resolveReferences u.tree scopes space
    let reports := results.filterMap fun r =>
      match r.result with
      | .ok _ => none
      | .error e => some (unresolvedReport u.tree r.node r.reference e)
    ⟨{ u with tree := u.tree.resolveAll (referrals results) }, reports⟩

/-- Infers the types of a unit. A crash leaves the types as they were. -/
def inferencePass (fuel : Nat) (u : CompilationUnit) : Option PassResult := do
  let outcome ← inferDeclarations fuel u.tree u.supply
  let u := { u with supply := outcome.supply }
  match outcome.result with
  | .ok types => return ⟨{ u with types := some types }, outcome.reports⟩
  | .error crash => return ⟨u, outcome.reports ++ [crash]⟩

def runPass (fuel : Nat) (u : CompilationUnit) : Pass → Option PassResult
  | .scopeTagging => some ⟨{ u with scopes := some (ScopeTree.build u.tree) }, []⟩
  | .moduleUniqueness => some ⟨u, Checks.moduleUniqueness u.tree⟩
  | .objectUniqueness => some ⟨u, Checks.objectUniqueness u.tree⟩
  | .referenceResolution => some (resolvePass .values u)
  | .typeReferenceResolution => some (resolvePass .types u)
  | .assignmentCheck =>
    let (reports, crash) := Checks.assignmentCheck u.tree
    some ⟨u, reports ++ crash.toList⟩
  | .typeInference => inferencePass fuel u

structure Pipeline where
  order : List Pass
  config : Config

namespace Pipeline

/-- The pipeline of a configuration. That the passes cannot be ordered would be a
crash. -/
def ofConfig (config : Config) : Option (Except Report Pipeline) :=
  Pass.order?.map fun
    | .ok order => .ok ⟨order, config⟩
    | .error e =>
      let description := e.message fun ps => dumpList (ps.map Pass.dump)
      .error (Report.of "<pipeline>" [] (.crash description))

/-- What a run threads: the unit, the reports, how the passes so far ended, and
whether one of them crashed. -/
structure Run where
  unit : CompilationUnit
  collector : Collector
  statuses : List (Pass × PassStatus)
  isAborted : Bool

def neededStatuses (r : Run) (p : Pass) : List PassStatus :=
  p.dependencies.filterMap fun d => r.statuses.lookup d

/-- How a pass ends that does not get to run. -/
def bar (config : Config) (r : Run) (p : Pass) : Option PassStatus :=
  let needed := neededStatuses r p
  if r.isAborted then some .aborted
  else if config.isDisabled p || needed.contains .disabled then some .disabled
  else if needed.any fun s => s ≠ .succeeded then some .skipped
  else none

def step (fuel : Nat) (config : Config) (r : Run) (p : Pass) : Option Run :=
  match bar config r p with
  | some status => some { r with statuses := r.statuses ++ [(p, status)] }
  | none => do
    let result ← runPass fuel r.unit p
    let collector := r.collector.collectAll result.reports
    let fresh := collector.reports.drop r.collector.size
    let status := if fresh.any Report.isFailure then PassStatus.failed else .succeeded
    return {
      unit := result.unit
      collector
      statuses := r.statuses ++ [(p, status)]
      isAborted := fresh.any fun report => report.severity = .crash }

end Pipeline

structure UnitOutcome where
  statuses : List (Pass × PassStatus)
  reports : List Report

namespace UnitOutcome

def hasFailures (o : UnitOutcome) : Bool := o.reports.any Report.isFailure

def crashed (o : UnitOutcome) : Bool := o.reports.any fun r => r.severity = .crash

end UnitOutcome

def Pipeline.run (fuel : Nat) (p : Pipeline) (u : CompilationUnit) :
    Option (UnitOutcome × CompilationUnit) := do
  let start : Pipeline.Run := ⟨u, Collector.start p.config.warningsAsErrors, [], false⟩
  let r ← p.order.foldlM (Pipeline.step fuel p.config) start
  return (⟨r.statuses, r.collector.reports⟩, r.unit)

end SemanticAnalysis.Session
