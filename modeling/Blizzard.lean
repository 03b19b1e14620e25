import Blizzard.TransitionRuns
import Blizzard.LatestRows
import Blizzard.HubTables
import Blizzard.RouteLiveness
import Blizzard.TerminalPredicates
import Blizzard.EpochFence
import Blizzard.FencedWrites
import Blizzard.StatusLadder
import Blizzard.FactLoading
import Blizzard.DepthFirstCycles
import Blizzard.DependencyEdges
import Blizzard.DependencyAcyclicity
import Blizzard.FenceEffects
import Blizzard.EpochFencing
import Blizzard.WorkflowGraph
import Blizzard.ClaimAdmission
import Blizzard.ChunkLevers
import Blizzard.ClaimExclusivity
import Blizzard.FactIntake
import Blizzard.ExactlyOnceIntake
import Blizzard.TruthfulAcks
import Blizzard.StatusCounts
import Blizzard.TerminalAgreement
import Blizzard.JoinQueries
import Blizzard.ScopedBuilders
import Blizzard.TenantIsolation
import Blizzard.GraphDocuments
import Blizzard.GraphValidation
import Blizzard.CompletionPlans
import Blizzard.GraphReification
import Blizzard.GraphExecutability
import Blizzard.SourceText
import Blizzard.FindingLiveness
import Blizzard.FindingWrites
import Blizzard.FindingExits
import Blizzard.CompletionRules
import Blizzard.KeysetPaging
import Blizzard.FindingReads
import Blizzard.FindingAgreement
import Blizzard.TranscriptIngest
import Blizzard.TranscriptCapBounds
import Blizzard.TeardownStore
import Blizzard.TenantTeardown
import Blizzard.TeardownSafety
import Blizzard.TraceSteps
import Blizzard.ExportWindows
import Blizzard.WindowDrain
import Blizzard.LateFacts
import Blizzard.ExportRuns
import Blizzard.ExportCoverage
import Blizzard.OutboxLanes
import Blizzard.OutboxFleet
import Blizzard.OutboxOrder
import Blizzard.OutboxSequence
import Blizzard.FlowLines
import Blizzard.FlowSafety
import Blizzard.FlowExclusion
import Blizzard.FlowReconcile
import Blizzard.FlowConvergence
import Blizzard.FlowSettling
import Blizzard.FlowFloor
import Blizzard.FlowDriver
import Blizzard.FlowUnanswered
import Blizzard.DictionaryRows
import Blizzard.DeliveryValidation
import Blizzard.FoldImage
import Blizzard.DeliveryPlans
import Blizzard.ExceptRules
import Blizzard.DeliveryChecks
import Blizzard.DeliveryContradictions
import Blizzard.OverloadStore
import Blizzard.OverloadStreaks
import Blizzard.RunnerLeases
import Blizzard.AttemptCounts
import Blizzard.RetryBudget
import Blizzard.TakeoverStore
import Blizzard.TakeoverEpochs
import Blizzard.HeldChunkMoves
import Blizzard.HeldChunkDrivers
import Blizzard.OpenFacts
import Blizzard.FactCounter
import Blizzard.GraphPinning
import Blizzard.EventAttribution
import Blizzard.DerivationCorpus
import Blizzard.DerivationSweeps
import Blizzard.DerivationHalves
import Blizzard.DerivationRecords
import Blizzard.DerivationCoverage
import Blizzard.BoundedLoops
import Blizzard.FairShare
import Blizzard.CadenceSchedules
import Blizzard.CadenceErrands
import Blizzard.SortedRanks
import Blizzard.FloatSlots
import Blizzard.QueueRanking
import Blizzard.QueueWrites
import Blizzard.QueueOrders
import Blizzard.Base64Text
import Blizzard.QueueCursors
import Blizzard.QueuePages
import Blizzard.LandingOrder
import Blizzard.LandingMoves
import Blizzard.LandingWrites
import Blizzard.LandingOrders
import Blizzard.ForwardWalks
import Blizzard.ForwardLayers
import Blizzard.NodeOrder
import Blizzard.MovementPositions
import Blizzard.PositionAgreement
import Blizzard.BoundedMerges
import Blizzard.EventsWindow
import Blizzard.EventsPages
import Blizzard.LateUsage
import Blizzard.UsageCoverage
import Blizzard.UsageSettling
import Blizzard.PromotionTurns
import Blizzard.FactSequence
import Blizzard.ParkMirror
import Blizzard.HubPolls
import Blizzard.FlowPlaces
import Blizzard.SubscriptionFloor
import Blizzard.ZonedClock
import Blizzard.ScheduleLever
import Blizzard.CadenceRecords
import Blizzard.CadenceMerges
import Blizzard.CadenceEdits
import Blizzard.JsonTexts
import Blizzard.TranscriptTurns
import Blizzard.TranscriptShrink
import Blizzard.TranscriptRecords
import Blizzard.UniqueRows
import Blizzard.CloseIntents
import Blizzard.CloseAccounts
import Blizzard.CloseBackoff
import Blizzard.CloseDrains
import Blizzard.ConsecutiveRanges
import Blizzard.TranscriptLedger
import Blizzard.TranscriptPump
import Blizzard.TranscriptLane
import Blizzard.SegmentLives
import Blizzard.LaneDecisions
import Blizzard.LaneIngests
import Blizzard.LaneKeeping
import Blizzard.LaneRules
import Blizzard.LaneRanges
import Blizzard.LaneLosses
import Blizzard.VersionedFacts
import Blizzard.BearerTokens
import Blizzard.FleetRegistry
import Blizzard.FleetWrites
import Blizzard.FleetMembership
import Blizzard.FleetSteps
import Blizzard.FleetRequests
import Blizzard.FleetHoldings
import Blizzard.FleetRuns
import Blizzard.FleetPasses
import Blizzard.FleetSafety
import Blizzard.FleetProtocol
import Blizzard.FleetTokens
import Blizzard.EnvironmentBindings
import Blizzard.EnvironmentCapacity
import Blizzard.EnvironmentHosts
import Blizzard.EnvironmentExclusivity
import Blizzard.EnvironmentProgress
