import RoutePolicy.Attribute
import RoutePolicy.Command.Arguments
import RoutePolicy.Command.Ask
import RoutePolicy.Command.Build
import RoutePolicy.Command.Condense
import RoutePolicy.Command.Dispatch
import RoutePolicy.Command.Help
import RoutePolicy.Command.Host
import RoutePolicy.Command.Preparation
import RoutePolicy.Command.QueryFile
import RoutePolicy.Command.Workspace
import RoutePolicy.Definitions
import RoutePolicy.Digest.Sha256
import RoutePolicy.Encoding.Reader
import RoutePolicy.Encoding.Tag
import RoutePolicy.Encoding.Writer
import RoutePolicy.Evaluation
import RoutePolicy.Execution
import RoutePolicy.Expr
import RoutePolicy.Expr.Simplify
import RoutePolicy.Failure
import RoutePolicy.Failure.Cause
import RoutePolicy.Failure.Location
import RoutePolicy.Ipv4.Address
import RoutePolicy.Ipv4.Network
import RoutePolicy.Json
import RoutePolicy.Json.Reader
import RoutePolicy.Json.Text
import RoutePolicy.Log
import RoutePolicy.Main
import RoutePolicy.Number
import RoutePolicy.Number.Reader
import RoutePolicy.Number.Text
import RoutePolicy.Proofs.Chain
import RoutePolicy.Proofs.Composition
import RoutePolicy.Proofs.Drafting
import RoutePolicy.Proofs.Evaluation
import RoutePolicy.Proofs.Execution
import RoutePolicy.Proofs.GivenRoutes
import RoutePolicy.Proofs.Inlining
import RoutePolicy.Proofs.Known
import RoutePolicy.Proofs.Loading
import RoutePolicy.Proofs.Meaning
import RoutePolicy.Proofs.Nodes
import RoutePolicy.Proofs.Policies
import RoutePolicy.Proofs.Reachability
import RoutePolicy.Proofs.ReachabilitySound
import RoutePolicy.Proofs.Reading
import RoutePolicy.Proofs.Residual
import RoutePolicy.Proofs.Rules
import RoutePolicy.Proofs.Simplification
import RoutePolicy.Proofs.Stability
import RoutePolicy.Proofs.SymbolicExecution
import RoutePolicy.Proofs.WellTyped
import RoutePolicy.Reachability.Cache
import RoutePolicy.Reachability.Propagation
import RoutePolicy.Reachability.Query
import RoutePolicy.Record
import RoutePolicy.Retry
import RoutePolicy.Service.Client
import RoutePolicy.Service.Script
import RoutePolicy.Settings
import RoutePolicy.Statement
import RoutePolicy.Statement.Position
import RoutePolicy.Statement.Simplify
import RoutePolicy.Table
import RoutePolicy.Text.Blank
import RoutePolicy.Text.Capital
import RoutePolicy.Text.CaseIgnorable
import RoutePolicy.Text.Cased
import RoutePolicy.Text.CodeRange
import RoutePolicy.Text.FileName
import RoutePolicy.Text.Lower
import RoutePolicy.Text.Percent
import RoutePolicy.Text.Pieces
import RoutePolicy.Text.Units
import RoutePolicy.Topology
import RoutePolicy.Topology.Condensed
import RoutePolicy.Topology.Draft
import RoutePolicy.Topology.Tables
import RoutePolicy.Typing
import RoutePolicy.Proofs.ChainSemantics
import RoutePolicy.Proofs.JsonText
import RoutePolicy.Proofs.CanonicalText
import RoutePolicy.Proofs.ConditionKeys
import RoutePolicy.Proofs.Saturation
import RoutePolicy.Proofs.Completeness
import RoutePolicy.Proofs.ReachabilityComplete
import RoutePolicy.Proofs.Concrete
import RoutePolicy.Proofs.SimplifiedPolicies
import RoutePolicy.Proofs.SimplifiedTopologies
import RoutePolicy.Proofs.Undisturbed
import RoutePolicy.Proofs.Worklist
import RoutePolicy.Proofs.TypeSoundness
import RoutePolicy.Proofs.SpelledTopologies
import RoutePolicy.Proofs.SimplifiedAnswers
import RoutePolicy.Proofs.Members
import RoutePolicy.Proofs.Writing
import RoutePolicy.Proofs.Documented
import RoutePolicy.Proofs.AlikeTopologies
import RoutePolicy.Proofs.BuiltTopologies
import RoutePolicy.Proofs.CanonicalTopologies
import RoutePolicy.Proofs.NormalForm
import RoutePolicy.Proofs.NestedCalls
import RoutePolicy.Proofs.RestingLoops
import RoutePolicy.Proofs.LiteralRecords
import RoutePolicy.Proofs.LiteralEvaluation
import RoutePolicy.Proofs.SimplifiedRuns
import RoutePolicy.Proofs.ResolvedCalls
import RoutePolicy.Proofs.SameExpressions
import RoutePolicy.Proofs.Complements
import RoutePolicy.Proofs.Courses
import RoutePolicy.Proofs.Decisions
import RoutePolicy.Proofs.ComplementaryPairs
import RoutePolicy.Proofs.Verdicts
import RoutePolicy.Proofs.FirstMatch
import RoutePolicy.Proofs.InlinedQueries
import RoutePolicy.Proofs.QueryKeys
import RoutePolicy.Proofs.Batches
import RoutePolicy.Proofs.QueryFiles
import RoutePolicy.Proofs.Shrinking
import RoutePolicy.Proofs.Sizes
import RoutePolicy.Proofs.ShrinkingPolicies
import RoutePolicy.Proofs.AcceptedWalks
import RoutePolicy.Proofs.PathBounds
import RoutePolicy.Proofs.ReadAttributes
import RoutePolicy.Proofs.SimpleResults
import RoutePolicy.Proofs.Tours
import RoutePolicy.Proofs.FaithfulTraces
import RoutePolicy.Proofs.PropagatedKinds
import RoutePolicy.Proofs.ReadBackAnswers
import RoutePolicy.Proofs.Declarations
import RoutePolicy.Proofs.ExternalPeers
import RoutePolicy.Proofs.DraftingSteps
import RoutePolicy.Proofs.ShuffledTopologies
import RoutePolicy.Proofs.MirroredSurveys
import RoutePolicy.Proofs.ReorderedDeclarations
import RoutePolicy.Proofs.KeptTypes
import RoutePolicy.Proofs.TypeErrors
import RoutePolicy.Proofs.AddressTexts
import RoutePolicy.Proofs.Grammar
import RoutePolicy.Proofs.Locations
import RoutePolicy.Proofs.FailedReads
import RoutePolicy.Proofs.CoveredAddresses
import RoutePolicy.Proofs.RefusedClasses
import RoutePolicy.Proofs.FailingStatements
import RoutePolicy.Proofs.SameDocuments
import RoutePolicy.Proofs.PrintedNetworks
import RoutePolicy.Proofs.Attempts
import RoutePolicy.Proofs.RepeatedRequests
import RoutePolicy.Proofs.CheckedSettings
import RoutePolicy.Proofs.CollectedCalls
import RoutePolicy.Proofs.StructuralEquality
import RoutePolicy.Proofs.RearrangedArguments
import RoutePolicy.Proofs.LoadedSettings
