import Gaffa.Lib.Transition
import Gaffa.Lib.Wire
import Gaffa.Lib.Table
import Gaffa.Lib.Grouping
import Gaffa.Lib.Durable
import Gaffa.Storage.Partition
import Gaffa.Storage.RecordStream
import Gaffa.Lib.Checksum
import Gaffa.Storage.Readout
import Gaffa.Storage.Corruption
import Gaffa.Storage.LogView
import Gaffa.Storage.ArbitraryFiles
import Gaffa.Storage.Spelling
import Gaffa.Storage.SegmentSpec
import Gaffa.Storage.AppendSpec
import Gaffa.Storage.SparseIndex
import Gaffa.Storage.PartitionSpec
import Gaffa.Storage.DamagedFetch
import Gaffa.Storage.RefusedFetch
import Gaffa.Storage.PartitionAppend
import Gaffa.Storage.LogRun
import Gaffa.Storage.Fidelity
import Gaffa.Storage.Offsets
import Gaffa.Storage.Crash
import Gaffa.Storage.Leftovers
import Gaffa.Lib.DirTree
import Gaffa.Storage.DataDir
import Gaffa.Storage.FailedAppend
import Gaffa.Storage.SegmentRun
import Gaffa.Storage.Survival
import Gaffa.Storage.Isolation
import Gaffa.Storage.Catalog
import Gaffa.Lib.RwLock
import Gaffa.Lib.Text
import Gaffa.Lib.FileSystem
import Gaffa.Storage.Concurrent
import Gaffa.Lib.Locks
import Gaffa.Storage.Deadlock
import Gaffa.Lib.LockOrder
import Gaffa.Broker.BrokerLocks
import Gaffa.Storage.Retention
import Gaffa.Broker.Cluster
import Gaffa.Broker.HighWatermark
import Gaffa.Broker.Failover
import Gaffa.Broker.LeaderEpoch
import Gaffa.Broker.Ownership
import Gaffa.Broker.GroupViews
import Gaffa.Broker.Visibility
import Gaffa.Protocol.Bincode
import Gaffa.Broker.Delivery
import Gaffa.Broker.OffsetManager
import Gaffa.Broker.OffsetFiles
import Gaffa.Broker.TornCommit
import Gaffa.Broker.RejectedCommit
import Gaffa.Broker.Restart
import Gaffa.Broker.CommitTasks
import Gaffa.Broker.GroupDeletion
import Gaffa.Broker.OffsetLife
import Gaffa.Broker.Creation
import Gaffa.Broker.LeaderOffset
import Gaffa.Broker.TopicRace
import Gaffa.Broker.BrokerServer
import Gaffa.Broker.LeaderOnly
import Gaffa.Broker.Coverage
import Gaffa.Broker.SelfCheck
import Gaffa.Broker.MetadataViews
import Gaffa.Broker.Subscriptions
import Gaffa.Broker.Stability
import Gaffa.Broker.Eviction
import Gaffa.Broker.Membership
import Gaffa.Broker.FailedBroker
import Gaffa.Broker.Failures
import Gaffa.Broker.HealthCheck
import Gaffa.Broker.IsrReplicas
import Gaffa.Broker.LagTest
import Gaffa.Broker.LeaderInSync
import Gaffa.Broker.Acknowledgement
import Gaffa.Broker.Assignment
import Gaffa.Client.Consumer
import Gaffa.Client.Polls
import Gaffa.Client.Pairing
import Gaffa.Client.Obligations
import Gaffa.Client.Heartbeats
import Gaffa.Client.Commits
import Gaffa.Broker.WholeServer
import Gaffa.Broker.BrokerCatalog
import Gaffa.Client.EndToEnd
import Gaffa.Client.GroupReading
import Gaffa.Client.Publication
import Gaffa.Client.Producer
import Gaffa.Client.Batches
import Gaffa.Client.Partitioners
import Gaffa.Client.EvenRouting
import Gaffa.Broker.Connection
