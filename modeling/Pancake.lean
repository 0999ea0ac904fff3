import Pancake.Lib.Sampler
import Pancake.Lib.LazyReplicas
import Pancake.Lib.Patterns
import Pancake.Lib.ReplicaHistory
import Pancake.Lib.SharedReplicas
import Pancake.Lib.Runs
import Pancake.Lib.Smoothing
import Pancake.Lib.NumberedNames
import Pancake.Lib.Deliveries
import Pancake.Lib.FlaggedLists
import Pancake.Lib.Fanout
import Pancake.Lib.Doubles
import Pancake.Basic
import Pancake.UpdateCache
import Pancake.Storage
import Pancake.Proxy
import Pancake.ExecuteBatch
import Pancake.Refinement
import Pancake.Batching
import Pancake.CreateReplicas
import Pancake.Consistent
import Pancake.ReadYourWrites
import Pancake.FrequencySmoothing
import Pancake.SecurityBatch
import Pancake.UniformAccess
import Pancake.Steady
import Pancake.Consumer
import Pancake.EqualityPattern
import Pancake.PatternInputs
import Pancake.UpdateDistribution
import Pancake.LabelConservation
import Pancake.Redistribution
import Pancake.AsyncResponses
import Pancake.Interleaving
import Pancake.CompletedPuts
import Pancake.HandlerThreads
import Pancake.UpdateSmoothing
import Pancake.ReplicaNames
import Pancake.ReplicaPresence
import Pancake.Flush
import Pancake.UpdateDeliveries
import Pancake.AnsweredOnce
import Pancake.MissingSmoothing
import Pancake.NewReplicas
import Pancake.MirroredValues
import Pancake.CacheBounds
import Pancake.SwapPlan
import Pancake.MissingSizes
import Pancake.KeyChanges
import Pancake.Redis
import Pancake.StoredValues
import Pancake.Requests
import Pancake.InitialStorage
import Pancake.Queue
import Pancake.Accounting
import Pancake.ConsumerRefinement
import Pancake.AsyncClient
import Pancake.Lib.Periods
import Pancake.Lib.Chunks
import Pancake.TraceLoader
import Pancake.TraceReplay
import Pancake.Lib.Readers
import Pancake.Lib.Thrift
import Pancake.Lib.ThriftStructs
import Pancake.Lib.BinaryProtocol
import Pancake.Lib.Linearization
import Pancake.Lib.Expectations
import Pancake.WireFormat
import Pancake.Rpc
import Pancake.ClientConnections
import Pancake.ResponseStream
import Pancake.Linearizable
import Pancake.QueueMonitor
import Pancake.QueueWaits
import Pancake.LabelSequences
import Pancake.UniformSequences
import Pancake.ConsumerProgress
import Pancake.SlotCounts
import Pancake.ClientThreads
import Pancake.StorageBackends
import Pancake.RoundedReplicas
import Pancake.Deployment
import Pancake.ClientInFlight
import Pancake.HandlerTurns
import Pancake.QueueOrder
