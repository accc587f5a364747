import GmaEngine.OrderBook
import GmaEngine.KeyedQueues
import GmaEngine.OrderBookInvariant
import GmaEngine.OrderBookOperations
import GmaEngine.OrderBookRefinement
import GmaEngine.Double
import GmaEngine.OrderBookManager
import GmaEngine.LevelTotals
import GmaEngine.ManagerRuns
import GmaEngine.DeltaPublication
import GmaEngine.LevelDeltas
import GmaEngine.AggregatedDeltas
import GmaEngine.SubscriberMirror
import GmaEngine.TopOfBook
import GmaEngine.CNumerals
import GmaEngine.ItchAdapter
import GmaEngine.ItchExecution
import GmaEngine.ObKey
import GmaEngine.ObMaterializer
import GmaEngine.ObProvider
import GmaEngine.ObAgreement
import GmaEngine.StreamNodes
import GmaEngine.TreeBuilder
import GmaEngine.EffectPlans
import GmaEngine.FailedBuilds
import GmaEngine.BoundedClosure
import GmaEngine.NodeValues
import GmaEngine.JsonValidator
import GmaEngine.ClientSession
import GmaEngine.ChainHeap
import GmaEngine.ChainCalls
import GmaEngine.SessionCancellation
import GmaEngine.FeedSequencing
import GmaEngine.FeedServer
import GmaEngine.FeedConnection
import GmaEngine.AtomicStore
import GmaEngine.BuiltinFunctions
import GmaEngine.MarketTA
import GmaEngine.Dispatcher
import GmaEngine.DispatcherHistory
import GmaEngine.ListenerInterference
import GmaEngine.StoredTickKeys
import GmaEngine.BareKeyDelivery
import GmaEngine.TickOrder
import GmaEngine.JsonText
import GmaEngine.JsonWriter
import GmaEngine.UpdateFrames
import GmaEngine.FeedFraming
import GmaEngine.RestingKeys
import GmaEngine.Resynchronisation
import GmaEngine.ItchTranslation
import GmaEngine.ItchCoupling
import GmaEngine.GhostOrders
import GmaEngine.Blueprints
import GmaEngine.ChainOwnership
import GmaEngine.SpecReadings
import GmaEngine.RelatedRuns
import GmaEngine.WidenedHeaps
import GmaEngine.OverriddenNodes
import GmaEngine.HeapSteps
import GmaEngine.BridgeCancellation
import GmaEngine.CallLevels
import GmaEngine.PermittedSteps
import GmaEngine.BuildNesting
import GmaEngine.PipelineOnlyKeys
import GmaEngine.ClosedSessions
import GmaEngine.SessionLocks
import GmaEngine.SubscriptionTables
import GmaEngine.WriteQueue
import GmaEngine.SessionCap
import GmaEngine.ItchGetters
import GmaEngine.ThreadPool
import GmaEngine.InvariantChecks
import GmaEngine.TradeConservation
import GmaEngine.TickQuantisation
import GmaEngine.VenueKeyAdds
import GmaEngine.CallbackLocks
import GmaEngine.DecimalNumerals
import GmaEngine.SyntheticIds
import GmaEngine.ObKeyFormat
import GmaEngine.DoubleText
import GmaEngine.ObKeyPrices
import GmaEngine.LadderDepth
import GmaEngine.RangeReductions
import GmaEngine.BookMetrics
import GmaEngine.ObKeyNumerals
import GmaEngine.CheckedIndicators
import GmaEngine.IndicatorBounds
import GmaEngine.RejectedSymbols
import GmaEngine.NodeMachines
import GmaEngine.WorkerWindows
import GmaEngine.AggregateBatches
import GmaEngine.AggregateInputs
import GmaEngine.SynchronousPipes
import GmaEngine.BatchedWorkers
import GmaEngine.PipelineStreams
import GmaEngine.GroupRouting
import GmaEngine.TumblingFlushes
import GmaEngine.FinalShutdown
import GmaEngine.ValidatorLimits
import GmaEngine.AlignedBoundaries
import GmaEngine.TokenBuckets
import GmaEngine.SubscribeRate
import GmaEngine.StoreCaps
import GmaEngine.RecencyMaps
import GmaEngine.ResolverCapacity
import GmaEngine.CircularIndices
import GmaEngine.SPSCQueue
import GmaEngine.DrainReports
import GmaEngine.ClientConnection
import GmaEngine.LineBuffers
import GmaEngine.ConfigFile
import GmaEngine.SafeConfigs
import GmaEngine.FeedPorts
import GmaEngine.OrderStatistics
import GmaEngine.MedianAgreement
import GmaEngine.LocalRuns
import GmaEngine.SymbolIsolation
import GmaEngine.FeedInterleaving
import GmaEngine.QueuePositions
import GmaEngine.TimePriority
import GmaEngine.AtomicResolution
import GmaEngine.PoolTasks
import GmaEngine.SubscribedStreams
import GmaEngine.ShutdownOrder
import GmaEngine.FeedDeliveries
import GmaEngine.ResyncConvergence
import GmaEngine.FrameTrees
import GmaEngine.FeedSubscriptions
import GmaEngine.FieldMaps
import GmaEngine.FeedClients
import GmaEngine.LightweightPath
import GmaEngine.ItchClients
