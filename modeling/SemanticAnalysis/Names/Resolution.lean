import SemanticAnalysis.Names.Scope

/-!
What names refer to. An unqualified name is looked for in the scopes around it,
from the inside out; a scope answers with one declaration or an ambiguity, ends
the search, or passes it on outwards. A qualified name starts from the modules of
the file, from the module around it or from a type name, narrows link by link, and
its last name is matched against the members of the last link.
-/

namespace SemanticAnalysis

inductive ResolveError where
  | notFound
  | ambiguous (candidates : List NodeId)
deriving DecidableEq

def ResolveError.message : ResolveError → String
  | .notFound => "no matching declaration"
  | .ambiguous candidates => Nat.repr candidates.length ++ " declarations match"

inductive Namespace where
  | values
  | types
deriving DecidableEq

namespace Resolution

inductive Answer where
  | found (node : NodeId)
  | ambiguous (candidates : List NodeId)
  | absent
  /-- The place does not decide; the next scope outwards is asked. -/
  | askOutside

/-- One candidate is the answer, several are an ambiguity, and `otherwise` is
the answer where there is none. -/
def Answer.ofCandidates (otherwise : Answer) : List NodeId → Answer
  | [] => otherwise
  | [node] => .found node
  | candidates => .ambiguous candidates

def Answer.outcome : Answer → Except ResolveError NodeId
  | .found node => .ok node
  | .ambiguous candidates => .error (.ambiguous candidates)
  | .absent | .askOutside => .error .notFound

variable (f : Forest)

def named (name : Symbol) (nodes : List NodeId) : List NodeId :=
  nodes.filter fun n => f.name? n = some name

def namedTypes (name : Symbol) (nodes : List NodeId) : List NodeId :=
  nodes.filter fun n => (f.kind? n).any fun k => k.isTypeDecl && k.name? = some name

/-- What the scope of a node says about a value name. Functions and variables
know their own name. -/
def askForValue (name : Symbol) (scope : Scope) : Answer :=
  match f.kind? scope.anchor with
  | some (.moduleDecl _ _ _) => .ofCandidates .absent (named f name scope.declarations)
  | some (.function own _ _ _) | some (.abstractFunction own _ _)
  | some (.foreignFunction own _ _ _) =>
    if own = name then .found scope.anchor
    else .ofCandidates .askOutside (named f name scope.declarations)
  | some (.varDecl own _ _ _) => if own = name then .found scope.anchor else .askOutside
  | _ => .ofCandidates .askOutside (named f name scope.declarations)

/-- What the scope of a node says about a type name. Structs and traits know
their own name. -/
def askForType (name : Symbol) (scope : Scope) : Answer :=
  match f.kind? scope.anchor with
  | some (.moduleDecl _ _ items) => .ofCandidates .absent (namedTypes f name items)
  | some (.enumDecl _ entries) => .ofCandidates .askOutside (named f name entries)
  | some (.structDecl own _ _) | some (.traitDecl own _) =>
    if own = name then .found scope.anchor else .askOutside
  | _ => .askOutside

def ask (space : Namespace) (name : Symbol) (scope : Scope) : Answer :=
  match space with
  | .values => askForValue f name scope
  | .types => askForType f name scope

def firstAnswer (scopes : ScopeTree) (space : Namespace) (name : Symbol) :
    List ScopeId → Answer
  | [] => .absent
  | i :: rest =>
    match (scopes.scopes[i]?).map (ask f space name) with
    | none => .absent
    | some .askOutside => firstAnswer scopes space name rest
    | some answer => answer

def lookup (scopes : ScopeTree) (space : Namespace) (site : NodeId) (name : Symbol) : Answer :=
  match scopes.enclosing f site with
  | none => .absent
  | some i => firstAnswer f scopes space name (scopes.route i)

def narrow (container : NodeId) (link : Symbol) : Answer :=
  let candidates :=
    match f.kind? container with
    | some (.moduleDecl _ _ items) => namedTypes f link items
    | some (.enumDecl _ entries) => named f link entries
    | some (.structDecl _ fields members) => named f link fields ++ named f link members
    | some (.traitDecl _ members) => named f link members
    | _ => []
  .ofCandidates .absent candidates

def narrowAll (container : NodeId) : List Symbol → Answer
  | [] => .found container
  | link :: rest =>
    match narrow f container link with
    | .found inner => narrowAll inner rest
    | answer => answer

def member (space : Namespace) (container : NodeId) (name : Symbol) : Answer :=
  match f.kind? container, space with
  | some (.moduleDecl _ _ items), .types => .ofCandidates .absent (namedTypes f name items)
  | some (.moduleDecl _ _ items), .values => .ofCandidates .absent (named f name items)
  | some (.enumDecl _ entries), _ => .ofCandidates .absent (named f name entries)
  | _, .values => narrow f container name
  | _, .types => .absent

def enclosingModule (site : NodeId) : Answer :=
  let module? := (f.ancestors site).find? fun n =>
    match f.kind? n with
    | some (.moduleDecl _ _ _) => true
    | _ => false
  match module? with
  | some n => .found n
  | none => .absent

/-- The module of the file that a path from the root starts with. -/
def moduleNamed (root : NodeId) (name : Symbol) : Answer :=
  match f.kind? root with
  | some (.file modules) => .ofCandidates .absent (named f name modules)
  | _ => .absent

def resolveChain (root : NodeId) (scopes : ScopeTree) (site : NodeId) (q : Qualifier) : Answer :=
  match q.chain with
  | [] => if q.fromRoot then enclosingModule f site else .absent
  | head :: rest =>
    let first := if q.fromRoot then moduleNamed f root head else lookup f scopes .types site head
    match first with
    | .found container => narrowAll f container rest
    | answer => answer

def isVacuous (q : Qualifier) : Bool := !q.fromRoot && q.chain.isEmpty

end Resolution

open Resolution

def resolve (t : Tree) (scopes : ScopeTree) (space : Namespace) (site : NodeId) (r : Reference) :
    Except ResolveError NodeId :=
  let answer :=
    match r.qualifier with
    | none => lookup t.toForest scopes space site r.name
    | some q =>
      if isVacuous q then lookup t.toForest scopes space site r.name
      else
        match resolveChain t.toForest t.root scopes site q with
        | .found container => member t.toForest space container r.name
        | answer => answer
  answer.outcome

/-- The reference in a namespace that a node is, if it is not resolved yet. -/
def Kind.pending? (space : Namespace) : Kind → Option Reference
  | .reference r => if space = .values then some r else none
  | .typeReference r => if space = .types then some r else none
  | _ => none

structure Resolved where
  node : NodeId
  reference : Reference
  result : Except ResolveError NodeId

def resolveReferences (t : Tree) (scopes : ScopeTree) (space : Namespace) : List Resolved :=
  t.walk.filterMap fun n =>
    ((t.kind? n).bind (Kind.pending? space)).map fun r => ⟨n, r, resolve t scopes space n r⟩

def referrals (results : List Resolved) : List (NodeId × NodeId) :=
  results.filterMap fun r =>
    match r.result with
    | .ok referral => some (r.node, referral)
    | .error _ => none

end SemanticAnalysis
