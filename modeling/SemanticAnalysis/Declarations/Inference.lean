import SemanticAnalysis.Core.Inference
import SemanticAnalysis.Declarations.Group
import SemanticAnalysis.Declarations.Lowering
import SemanticAnalysis.Diagnostics.Report

/-!
Types of the top-level functions of a unit. The members of a group see each other
monomorphically and are generalized together. A group that fails is reported once
and the groups that use it are passed over with a note. What a group finds out
about the variables of the unit, such as the type of a field, holds for the groups
after it.
-/

namespace SemanticAnalysis

/-- What is known about the types of a unit: the schemes of typed functions, and
the types of the calls and abstractions in them. -/
structure DeclarationTypes where
  declarations : OrderedMap NodeId Scheme
  expressions : OrderedMap NodeId Ty
deriving Inhabited

namespace Declarations

structure LoweredFunction where
  term : Term
  signature : Ty
  span : Span

structure TypedGroup where
  schemes : List (NodeId × Scheme)
  judgements : List Judgement
  solution : Subst

abbrev Located.Infer := ExceptT (Located InferError) (StateT Inference.State Option)

/-- Makes a function of a group agree with the variable it is assumed to have and
with what its declaration promises. -/
def inferMember (fuel : Nat) (assumed : Context) (solution : Subst) (member : LoweredFunction)
    (own : Ty) : Inference.Infer Subst := do
  let (s, t) ← infer fuel (assumed.substitute solution) member.term
  let solution := s.compose solution
  let s ← Inference.solve fuel (solution.apply own) (solution.apply t)
  let solution := s.compose solution
  let s ← Inference.solve fuel (solution.apply member.signature) (solution.apply t)
  return s.compose solution

/-- Infers the members of a group in turn under the solution found so far. An
error is placed at the member being typed. -/
def inferMembers (fuel : Nat) (assumed : Context) (solution : Subst) :
    List (LoweredFunction × Ty) → Located.Infer Subst
  | [] => return solution
  | (member, own) :: rest => do
    let solution ← ExceptT.adapt (fun e => Located.mk e member.span)
      (inferMember fuel assumed solution member own)
    inferMembers fuel assumed solution rest

def inferGroup (fuel : Nat) (base : Context) (members : List (NodeId × LoweredFunction)) :
    Located.Infer TypedGroup := do
  let st ← get
  let (vs, supply) := st.supply.freshList members.length
  set (Inference.State.start supply)
  let own := (members.map (·.1)).zip (vs.map Ty.var)
  let assumed := base.combine
    (OrderedMap.ofList (own.map fun p => (CoreVar.decl p.1, Scheme.mono p.2)))
  let solution ← inferMembers fuel assumed Subst.empty
    ((members.map (·.2)).zip (vs.map Ty.var))
  let context := base.substitute solution
  let judgements := (← get).judgements.map fun p => (p.1, solution.apply p.2)
  return ⟨own.map fun p => (p.1, context.generalize (solution.apply p.2)), judgements, solution⟩

def crashReport (t : Tree) (span : Span) (description : String) : Report :=
  Report.of t.file [span] (.crash description)

/-- The report of a function that could not be lowered, or the crash it amounts to. -/
def loweringReport (t : Tree) (error : LowerError) : Except Report Report :=
  let nameOf (n : NodeId) := (t.nameOf n).getD ""
  match error with
  | .notAValue reference referral kind =>
    .ok (Report.of t.file [t.span reference, t.span referral] (.notAValue kind (nameOf referral)))
  | .usedBeforeBinding reference referral =>
    .ok (Report.of t.file [t.span reference, t.span referral]
      (.usedBeforeBinding (nameOf referral)))
  | .unresolved node => .error (crashReport t (t.span node) error.message)
  | .notAnExpression node _ => .error (crashReport t (t.span node) error.message)
  | .notAType inner => .error (crashReport t inner.span error.message)

def inferenceReport (t : Tree) (error : Located InferError) : Except Report Report :=
  let report (message : Message) := Except.ok (Report.of t.file [error.span] message)
  match error.item with
  | .cannotUnify a b => report (.mismatchedTypes (a.text t.symbols) (b.text t.symbols))
  | .infiniteType v a => report (.infiniteType v.name (a.text t.symbols))
  | .unknownVariable _ => .error (crashReport t error.span error.item.message)

/-- What typing a unit threads: the type store, the reports made, the shared
context, the lowered functions, the failed ones, what was found out about types,
and the composition of all solutions. -/
structure Progress where
  store : TypeStore
  reports : List Report
  base : Context
  lowered : OrderedMap NodeId LoweredFunction
  failed : OrderedSet NodeId
  found : DeclarationTypes
  solved : Subst

abbrev Check := ExceptT Report (StateT Progress Option)

def report (r : Report) : Check Unit := modify fun st => { st with reports := st.reports ++ [r] }

def fail (functions : List NodeId) : Check Unit :=
  modify fun st => { st with failed := OrderedSet.addAll st.failed functions }

def reportOrCrash : Except Report Report → Check Unit
  | .ok r => report r
  | .error crash => throw crash

def lowerFunction (f : Forest) (n : NodeId) : Lowering.Lower LoweredFunction := do
  let term ← Lowering.function f n
  let signature ← Lowering.signature f n
  return ⟨term, signature, f.span n⟩

/-- Lowers a function of a unit. What lowering assumed is kept even if it failed. -/
def prepare (t : Tree) (n : NodeId) : Check Unit := do
  let st ← get
  let (result, lowering) := (lowerFunction t.toForest n).run.run (Lowering.start st.store)
  set { st with
    store := lowering.store
    base := OrderedMap.insertAll st.base lowering.assumptions.entries }
  match result with
  | .ok lowered => modify fun st => { st with lowered := st.lowered.insert n lowered }
  | .error e =>
    reportOrCrash (loweringReport t e)
    fail [n]

/-- The first failed function outside a group that the group uses. -/
def failedDependency (f : Forest) (functions group : List NodeId) (failed : OrderedSet NodeId) :
    Option NodeId :=
  let used := group.flatMap fun n => OrderedSet.toList (usesOf f functions n)
  used.find? fun n => !group.contains n && failed.contains n

def skippedReport (t : Tree) (dependency n : NodeId) : Report :=
  Report.of t.file [t.span n, t.span dependency] (.dependencyFailed ((t.nameOf n).getD ""))

def adopt (typed : TypedGroup) : Check Unit :=
  modify fun st =>
    let base := OrderedMap.insertAll (st.base.substitute typed.solution)
      (typed.schemes.map fun p => (CoreVar.decl p.1, p.2))
    { st with
      base
      solved := typed.solution.compose st.solved
      found :=
        { declarations := st.found.declarations.insertAll typed.schemes
          expressions := st.found.expressions.insertAll typed.judgements } }

def typeGroup (fuel : Nat) (t : Tree) (group : List NodeId) : Check Unit := do
  let st ← get
  let members := group.filterMap fun n => (st.lowered.get? n).map fun l => (n, l)
  let start := Inference.State.start st.store.supply
  match (inferGroup fuel st.base members).run start with
  | none => ExceptT.mk fun _ => none
  | some (result, after) =>
    set { st with store := { st.store with supply := after.supply } }
    match result with
    | .ok typed => adopt typed
    | .error e =>
      reportOrCrash (inferenceReport t e)
      fail group

def checkGroup (fuel : Nat) (t : Tree) (functions group : List NodeId) : Check Unit := do
  let failed := (← get).failed
  match failedDependency t.toForest functions group failed with
  | some dependency =>
    group.forM fun n => report (skippedReport t dependency n)
    fail group
  | none =>
    if group.any failed.contains then fail group
    else typeGroup fuel t group

/-- Prepares the functions of a unit, then types them group by group as a listing has them. -/
def checkListed (fuel : Nat) (t : Tree) (listing : List (List NodeId)) : Check Unit := do
  let functions := topLevelFunctions t
  functions.forM (prepare t)
  listing.forM (checkGroup fuel t functions)

def checkAll (fuel : Nat) (t : Tree) : Check Unit :=
  checkListed fuel t (groups t.toForest (topLevelFunctions t))

/-- The types found, brought up to date with everything that was found out in the end. -/
def settle (solved : Subst) (found : DeclarationTypes) : DeclarationTypes where
  declarations := found.declarations.mapValues fun s => s.substitute solved
  expressions := found.expressions.mapValues solved.apply

def Progress.start (supply : Supply) : Progress :=
  let (base, supply) := Context.prelude supply
  ⟨TypeStore.start supply, [], base, OrderedMap.empty, OrderedMap.empty, default, Subst.empty⟩

end Declarations

open Declarations

structure DeclarationOutcome where
  result : Except Report DeclarationTypes
  reports : List Report
  supply : Supply

def Declarations.outcomeOf (check : Check Unit) (supply : Supply) : Option DeclarationOutcome := do
  let (result, st) ← check.run (Progress.start supply)
  return ⟨result.map fun _ => settle st.solved st.found, st.reports, st.store.supply⟩

def inferDeclarations (fuel : Nat) (t : Tree) (supply : Supply) : Option DeclarationOutcome :=
  outcomeOf (checkAll fuel t) supply

end SemanticAnalysis
