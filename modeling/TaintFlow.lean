import TaintFlow.Analysis
import TaintFlow.CallGraph
import TaintFlow.CollapsedPaths
import TaintFlow.Command
import TaintFlow.Effect
import TaintFlow.Heuristics
import TaintFlow.Json.Printer
import TaintFlow.Json.Reader
import TaintFlow.Main
import TaintFlow.Matching
import TaintFlow.Memory.Arena
import TaintFlow.MethodAnalysis
import TaintFlow.Report.Markdown
import TaintFlow.RuleSet
import TaintFlow.State
import TaintFlow.Proofs.CallOrder
import TaintFlow.Proofs.CallSources
import TaintFlow.Proofs.Monotonicity
import TaintFlow.Proofs.RetainedMatching
import TaintFlow.Proofs.RuleIndependence
import TaintFlow.Proofs.Absorption
import TaintFlow.Proofs.Companions
import TaintFlow.Proofs.LastVisits
import TaintFlow.Proofs.OrderIndependence
import TaintFlow.Proofs.UnrolledLoops
import TaintFlow.Proofs.Wrapping
import TaintFlow.Proofs.Jobs
import TaintFlow.Proofs.Schedules
import TaintFlow.Proofs.Vocabulary
import TaintFlow.Proofs.Reached
import TaintFlow.Proofs.Contracts
import TaintFlow.Proofs.Hits
import TaintFlow.Proofs.Upheld
import TaintFlow.Proofs.Stocks
import TaintFlow.Proofs.Termination
import TaintFlow.Proofs.Declared
import TaintFlow.Proofs.Bounds
import TaintFlow.Proofs.Traces
import TaintFlow.Proofs.Explanations
import TaintFlow.Proofs.LoadedRules
import TaintFlow.Proofs.Rechecks
import TaintFlow.Proofs.MeetingHalves
import TaintFlow.Proofs.PairedFlows
import TaintFlow.Proofs.ReorderedObservations
import TaintFlow.Proofs.SharedParts
import TaintFlow.Proofs.Rereading
import TaintFlow.Proofs.PrunedPrograms
import TaintFlow.Proofs.SharedAnalysis
import TaintFlow.Proofs.Modularity
import TaintFlow.Proofs.EffectChains
import TaintFlow.Proofs.ThinnedInputs
import TaintFlow.Proofs.SkippedMethods
import TaintFlow.Proofs.Covers
import TaintFlow.Proofs.RelatedStates
import TaintFlow.Proofs.RelatedWalks
import TaintFlow.Proofs.SeededParameters
import TaintFlow.Proofs.PointwiseJoins
import TaintFlow.Proofs.TriggeredSinks
import TaintFlow.Proofs.TraceLimits
import TaintFlow.Proofs.MergedFields
import TaintFlow.Proofs.DeliveredEffects
import TaintFlow.Proofs.ModelJoins
import TaintFlow.Proofs.FieldWrites
import TaintFlow.Proofs.FieldPaths
import TaintFlow.Proofs.StockedStates
import TaintFlow.Proofs.LoopTermination
import TaintFlow.Proofs.RuleHistories
import TaintFlow.Proofs.MergedIssues
import TaintFlow.Proofs.AcceptedRules
import TaintFlow.Proofs.SplitDeclarations
import TaintFlow.Proofs.WrittenPorts
import TaintFlow.Proofs.EncodedModels
import TaintFlow.Proofs.StashHistories
import TaintFlow.Proofs.InternedKinds
import TaintFlow.Proofs.Arenas
import TaintFlow.Proofs.CallLevels
import TaintFlow.Proofs.LocationHistories
import TaintFlow.Proofs.PreorderNumbers
