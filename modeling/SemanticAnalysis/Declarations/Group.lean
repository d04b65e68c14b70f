import SemanticAnalysis.Graph.Search
import SemanticAnalysis.Tree.Basic

/-!
The functions of a unit that are typed on their own, what they use of each other,
and the groups that use each other mutually. Groups come after the groups that
they use.
-/

namespace SemanticAnalysis.Declarations

def holdsFunctions : Kind → Bool
  | .moduleDecl _ _ _ | .structDecl _ _ _ | .traitDecl _ _ => true
  | _ => false

/-- Whether a node is a function held directly by a module, a struct or a trait. -/
def isTopLevel (f : Forest) (n : NodeId) : Bool :=
  match f.kind? n with
  | some (.function _ _ _ _) => (f.parent? n).any fun p => (f.kind? p).any holdsFunctions
  | _ => false

def topLevelFunctions (t : Tree) : List NodeId := t.walk.filter (isTopLevel t.toForest)

/-- What the references at a node and below it refer to, among some functions. -/
def usesOf (f : Forest) (functions : List NodeId) (n : NodeId) : OrderedSet NodeId :=
  let referred := (f.walkFrom n).filterMap fun m =>
    match f.kind? m with
    | some (.resolved _ referral) => some referral
    | _ => none
  OrderedSet.ofList (referred.filter functions.contains)

def lastPlace (functions : List NodeId) (n : NodeId) : Nat :=
  functions.length - 1 - functions.reverse.idxOf n

/-- The places that a place leads to: only the last place of a function counts,
and it leads to the last places of what the function uses, greatest node first. -/
def placesUsed (f : Forest) (functions : List NodeId) (i : Nat) : List Nat :=
  match functions[i]? with
  | none => []
  | some n =>
    if lastPlace functions n = i then
      (OrderedSet.toList (usesOf f functions n)).reverse.map (lastPlace functions)
    else []

/-- The groups of functions that use each other, each in ascending order and
after the groups it uses. -/
def groups (f : Forest) (functions : List NodeId) : List (List NodeId) :=
  let places := List.range functions.length
  (Graph.components places (placesUsed f functions)).map fun group =>
    OrderedSet.toList (OrderedSet.ofList (group.filterMap fun i => functions[i]?))

end SemanticAnalysis.Declarations
