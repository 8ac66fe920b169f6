import FerricStore.BigEndian
import FerricStore.Text
import FerricStore.Stateful
import FerricStore.Cursor
import FerricStore.Dict
import FerricStore.KeyedMachine
import FerricStore.Value
import FerricStore.ValueCodec
import FerricStore.ValueCodecRoundTrip
import FerricStore.ResponseFrames
import FerricStore.Reader
import FerricStore.Metered
import FerricStore.CompactBudget
import FerricStore.FlowCodec
import FerricStore.FlowRequests
import FerricStore.FlowItemSpecs
import FerricStore.FlowRequestSpecs
import FerricStore.FlowRequestDecoding
import FerricStore.ProtocolCommand
import FerricStore.RawPipelines
import FerricStore.RawFlowPipelines
import FerricStore.RawPipelineBudget
import FerricStore.RawPipelineSizes
import FerricStore.RawPipelineDispatch
import FerricStore.RawPipelineAdmission
import FerricStore.CompactBudgetExact
import FerricStore.BasicCommands
import FerricStore.PipelineItems
import FerricStore.PipelineAgreement
import FerricStore.PipelineEquivalence
import FerricStore.FlowOptions
import FerricStore.CommandOptions
import FerricStore.FlowCommands
import FerricStore.FlowRouting
import FerricStore.FlowItemMarkers
import FerricStore.FlowRouteAgreement
import FerricStore.IndependentOperations
import FerricStore.MixedPipelineOrder
import FerricStore.Transitions
import FerricStore.EndpointLifecycle
import FerricStore.EndpointLifecycleRuns
import FerricStore.PendingRequestRuns
import FerricStore.RoutingTopologyExact
import FerricStore.KeySpelling
import FerricStore.MutationRoundTrip
import FerricStore.FlowManyPayloads
import FerricStore.ManyReading
import FerricStore.ManyArguments
import FerricStore.ManyGroups
import FerricStore.ManyRows
import FerricStore.ManyReadBack
import FerricStore.CreateManyArguments
import FerricStore.CreateManyGroups
import FerricStore.CreateManyRows
import FerricStore.CreateManyReadBack
import FerricStore.DeclaredCounts
import FerricStore.BatchPlanCompletion
import FerricStore.FanOutOutcome
import FerricStore.OrderedKeyDecoding
import FerricStore.TopologyRetryRuns
import FerricStore.AdapterPoolRuns
import FerricStore.RoutedBatchRuns
import FerricStore.MemoryBatchSemantics
import FerricStore.MutationLockRuns
import FerricStore.KeepAlivePoolRuns
import FerricStore.HttpLeaseRuns
import FerricStore.HttpRedirectChains
import FerricStore.CommandCoalescerRuns
import FerricStore.CoalescedOutcomes
import FerricStore.HttpValueTransport
import FerricStore.WorkerCompletionRuns
import FerricStore.DurableCommits
import FerricStore.AutobatchOutcomes
import FerricStore.CompactMset
import FerricStore.Budgets
import FerricStore.ValueCodecBound
import FerricStore.ValueCodecBudget
import FerricStore.DeadlineScheduler
import FerricStore.CloseCoordinator
import FerricStore.ClaimRowWidths
import FerricStore.AutobatchQueueOrder
import FerricStore.ClaimPlanAccounts
import FerricStore.FlowQueryFaithful
import FerricStore.PartitionKeys
import FerricStore.CheckpointKeys
import FerricStore.MemorySlices
import FerricStore.FlowOptionSegments
import FerricStore.RawFlowAgreement
import FerricStore.PendingWrites
import FerricStore.TypedClaimRows
import FerricStore.CompactDispatch
import FerricStore.FlowRecordReaders
import FerricStore.ClaimReturnFallback
import FerricStore.ClaimScheduling
import FerricStore.FingerprintExactness
import FerricStore.FlowQueryBuilderSafety
import FerricStore.FlowQueryResultAgreement
import FerricStore.BatchReplies
import FerricStore.BatchReplyContracts
import FerricStore.CheckpointListing
import FerricStore.FlowGetPipelines
import FerricStore.WorkflowBatches
