import SemanticAnalysis.Diagnostics.Report
import SemanticAnalysis.Tree.Basic

/-!
Checks that only read the tree: modules and declarations that share a name, and
assignments to what cannot be assigned to.
-/

namespace SemanticAnalysis.Checks

/-- The declarations of a list that share their name with another one, grouped
by name in the order in which the names first come up. -/
def sameNamed (f : Forest) (declarations : List NodeId) : List (Symbol × List NodeId) :=
  let names := (declarations.filterMap f.name?).eraseDups
  let groups := names.map fun name => (name, declarations.filter fun n => f.name? n = some name)
  groups.filter fun g => 1 < g.2.length

def duplicates (t : Tree) (message : String → Message) (declarations : List NodeId) :
    List Report :=
  (sameNamed t.toForest declarations).map fun g =>
    Report.of t.file (g.2.map t.span) (message (t.symbols.display g.1))

def moduleUniqueness (t : Tree) : List Report :=
  match t.kind? t.root with
  | some (.file modules) =>
    let single := match modules with
      | [m] =>
        match t.kind? m with
        | some (.moduleDecl name false _) =>
          [Report.of t.file [t.span m] (.nonGlobalSingleModule (t.symbols.display name))]
        | _ => []
      | _ => []
    duplicates t .duplicatedModules modules ++ single
  | _ => []

def isVariable (f : Forest) (n : NodeId) : Bool :=
  match f.kind? n with
  | some (.varDecl _ _ _ _) => true
  | _ => false

def isFunction (f : Forest) (n : NodeId) : Bool :=
  match f.kind? n with
  | some (.function _ _ _ _) => true
  | _ => false

/-- The duplicates among the declarations that a node holds directly. The
functions and the variables of a block are separate. -/
def duplicatesIn (t : Tree) (kind : Kind) : List Report :=
  let held := match kind with
    | .moduleDecl _ _ items => duplicates t .duplicated items
    | .structDecl _ fields members => duplicates t .duplicated (fields ++ members)
    | .traitDecl _ members => duplicates t .duplicated members
    | .enumDecl _ entries => duplicates t .duplicated entries
    | .block items =>
      duplicates t .duplicated (items.filter (isFunction t.toForest)) ++
        duplicates t .duplicatedVariable (items.filter (isVariable t.toForest))
    | _ => []
  held ++ (kind.params?.map (duplicates t .duplicated)).getD []

def objectUniqueness (t : Tree) : List Report :=
  t.walk.flatMap fun n => ((t.kind? n).map (duplicatesIn t)).getD []

/-- What an assignment to a target comes to: a report, nothing, or a crash when
the target was not resolved. -/
def assignmentTo (t : Tree) (target : NodeId) : Except Report (Option Report) :=
  match t.kind? target with
  | some (.resolved _ referral) =>
    let points := [t.span target, t.span referral]
    match t.kind? referral with
    | some (.varDecl _ true _ _) => .ok none
    | some (.varDecl name false _ _) =>
      .ok (some (Report.of t.file points (.immutableVariable (t.symbols.display name))))
    | _ =>
      let what := match t.nameOf referral with
        | some name => t.describe referral ++ " `" ++ name ++ "`"
        | none => t.describe referral
      .ok (some (Report.of t.file points (.immutableConstruct what)))
  | some (.reference _) =>
    .error (Report.of t.file [t.span target] (.crash "assignment target was not resolved"))
  | _ => .ok (some (Report.of t.file [t.span target] (.immutableConstruct (t.describe target))))

/-- Checks the assignments among some nodes. A crash ends the check and keeps the
reports made before it. -/
def assignmentsAmong (t : Tree) : List NodeId → List Report × Option Report
  | [] => ([], none)
  | n :: rest =>
    match t.kind? n with
    | some (.assign target _) =>
      match assignmentTo t target with
      | .error crash => ([], some crash)
      | .ok report =>
        let (reports, crash) := assignmentsAmong t rest
        (report.toList ++ reports, crash)
    | _ => assignmentsAmong t rest

def assignmentCheck (t : Tree) : List Report × Option Report := assignmentsAmong t t.walk

end SemanticAnalysis.Checks
