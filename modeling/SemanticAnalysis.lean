import SemanticAnalysis.Session.Pipeline
import SemanticAnalysis.Proofs.MostGeneralUnifier
import SemanticAnalysis.Proofs.UnificationSymmetry
import SemanticAnalysis.Proofs.SolvedForms
import SemanticAnalysis.Proofs.EndlessUnification
import SemanticAnalysis.Proofs.InferenceVisits
import SemanticAnalysis.Proofs.InferenceTermination
import SemanticAnalysis.Proofs.Schemes
import SemanticAnalysis.Proofs.Derivations
import SemanticAnalysis.Proofs.InferenceRuns
import SemanticAnalysis.Proofs.Freshness
import SemanticAnalysis.Proofs.InferenceSoundness
import SemanticAnalysis.Proofs.LetGeneralization
import SemanticAnalysis.Proofs.SolvedInference
import SemanticAnalysis.Proofs.InferenceHygiene
import SemanticAnalysis.Proofs.PrincipalTypes
import SemanticAnalysis.Proofs.Walks
import SemanticAnalysis.Proofs.PushedForests
import SemanticAnalysis.Proofs.Components
import SemanticAnalysis.Proofs.WellFormedTrees
import SemanticAnalysis.Proofs.ScopeClosure
import SemanticAnalysis.Proofs.CollectedAssumptions
import SemanticAnalysis.Proofs.FailureIsolation
import SemanticAnalysis.Proofs.CrashFreedom
import SemanticAnalysis.Proofs.Annotations
import SemanticAnalysis.Proofs.TypedNodes
import SemanticAnalysis.Proofs.LoweredBinders
import SemanticAnalysis.Proofs.ContextUpdates
import SemanticAnalysis.Proofs.GroupSolutions
import SemanticAnalysis.Proofs.PreparedContexts
import SemanticAnalysis.Proofs.SharedContext
import SemanticAnalysis.Proofs.ReportedSchemes
import SemanticAnalysis.Proofs.ScopeAncestry
import SemanticAnalysis.Proofs.FunctionBoundaries
import SemanticAnalysis.Proofs.IndependentResolution
import SemanticAnalysis.Proofs.AmbiguousNames
import SemanticAnalysis.Proofs.CrashOrigins
import SemanticAnalysis.Proofs.Relabeling
import SemanticAnalysis.Proofs.SupplyIndependence
import SemanticAnalysis.Proofs.Digraphs
import SemanticAnalysis.Proofs.GraphLayers
import SemanticAnalysis.Proofs.AbsolutePaths
import SemanticAnalysis.Proofs.TopologicalOrder
import SemanticAnalysis.Proofs.BindingOccurrences
import SemanticAnalysis.Proofs.Schedules
import SemanticAnalysis.Proofs.VariableNames
import SemanticAnalysis.Proofs.SchemeText
import SemanticAnalysis.Proofs.FieldTypes
import SemanticAnalysis.Proofs.TypeText
import SemanticAnalysis.Proofs.SyntheticSpans
