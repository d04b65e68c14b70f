import SemanticAnalysis.Graph.Schedule

/-!
The passes over a unit and what each needs to have run before it.
-/

namespace SemanticAnalysis.Session

inductive Pass where
  | scopeTagging
  | moduleUniqueness
  | objectUniqueness
  | referenceResolution
  | typeReferenceResolution
  | assignmentCheck
  | typeInference
deriving DecidableEq

namespace Pass

def all : List Pass :=
  [.scopeTagging, .moduleUniqueness, .objectUniqueness, .referenceResolution,
    .typeReferenceResolution, .assignmentCheck, .typeInference]

def name : Pass → String
  | .scopeTagging => "scope-tagging"
  | .moduleUniqueness => "module-uniqueness"
  | .objectUniqueness => "object-uniqueness"
  | .referenceResolution => "reference-resolution"
  | .typeReferenceResolution => "type-reference-resolution"
  | .assignmentCheck => "assignment-check"
  | .typeInference => "type-inference"

def dump : Pass → String
  | .scopeTagging => "ScopeTagging"
  | .moduleUniqueness => "ModuleUniqueness"
  | .objectUniqueness => "ObjectUniqueness"
  | .referenceResolution => "ReferenceResolution"
  | .typeReferenceResolution => "TypeReferenceResolution"
  | .assignmentCheck => "AssignmentCheck"
  | .typeInference => "TypeInference"

def named? (name : String) : Option Pass := all.find? fun p => p.name = name

def dependencies : Pass → List Pass
  | .scopeTagging | .moduleUniqueness | .objectUniqueness => []
  | .referenceResolution | .typeReferenceResolution => [.scopeTagging]
  | .assignmentCheck => [.referenceResolution]
  | .typeInference => [.referenceResolution, .typeReferenceResolution]

def order? : Option (Except (GraphError Pass) (List Pass)) :=
  (Schedule.ofTable (all.map fun p => (p, p.dependencies)) all).map fun r => r.map List.flatten

end Pass

end SemanticAnalysis.Session
