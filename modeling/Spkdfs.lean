import Spkdfs.Library.Runs
import Spkdfs.Library.Table
import Spkdfs.Library.Components
import Spkdfs.Library.Procedures
import Spkdfs.Common.Utils
import Spkdfs.Common.Exception
import Spkdfs.Common.StorageType
import Spkdfs.Common.Inode
import Spkdfs.Common.PathKeys
import Spkdfs.Common.Json
import Spkdfs.Common.Serialization
import Spkdfs.Common.StorageText
import Spkdfs.Node.RocksDB
import Spkdfs.Node.Namenode
import Spkdfs.Node.LogEntry
import Spkdfs.Node.Lookup
import Spkdfs.Node.Effect
import Spkdfs.Node.Handlers
import Spkdfs.Node.Serial
import Spkdfs.Node.Kind
import Spkdfs.Node.Listing
import Spkdfs.Node.Tree
import Spkdfs.Node.Assertion
import Spkdfs.Node.Content
import Spkdfs.Node.Leader
import Spkdfs.Node.Proposals
import Spkdfs.Node.Durability
import Spkdfs.Node.Refresh
import Spkdfs.Node.Lease
import Spkdfs.Node.Removal
import Spkdfs.Node.Replica
import Spkdfs.Client.Local
import Spkdfs.Client.PathLocks
import Spkdfs.Client.SDK
import Spkdfs.Client.Cluster
import Spkdfs.Client.Methods
import Spkdfs.Client.Frame
import Spkdfs.Client.WriterExclusion
import Spkdfs.Client.SerialWriters
import Spkdfs.Library.Replay
import Spkdfs.Node.Batch
import Spkdfs.Node.LockRequest
import Spkdfs.Node.Replay
import Spkdfs.Node.Snapshot
import Spkdfs.Node.Change
import Spkdfs.Node.Encoding
import Spkdfs.Node.Format
import Spkdfs.Node.Snowflake
import Spkdfs.Node.IdSequence
import Spkdfs.Node.Aggregate
import Spkdfs.Node.Accounting
import Spkdfs.Client.Shards
import Spkdfs.Client.OneSub
import Spkdfs.Client.NodeList
import Spkdfs.Client.Offsets
import Spkdfs.Client.FaultTolerance
import Spkdfs.Client.Streaming
import Spkdfs.Client.Transfer
import Spkdfs.Library.Traces
import Spkdfs.Client.Traced
import Spkdfs.Node.Spared
import Spkdfs.Library.Blocks
import Spkdfs.Client.Storing
import Spkdfs.Client.Reading
import Spkdfs.Client.RoundTrip
import Spkdfs.Client.Opening
import Spkdfs.Client.Sequential
import Spkdfs.Client.Pieces
import Spkdfs.Client.Fsync
import Spkdfs.Client.Syncing
import Spkdfs.Client.HeldLocks
import Spkdfs.Client.LockBalance
import Spkdfs.Client.ReadOnly
import Spkdfs.Client.Resuming
import Spkdfs.Client.Freshness
import Spkdfs.Client.Daemon
import Spkdfs.Node.Members
import Spkdfs.Client.Aggregation
import Spkdfs.Client.SubFormat
import Spkdfs.Node.Keys
import Spkdfs.Client.Members
import Spkdfs.Client.FuseRead
import Spkdfs.Client.Corruption
import Spkdfs.Client.Rewriting
import Spkdfs.Client.Truncating
import Spkdfs.Client.Replacing
import Spkdfs.Client.Holes
import Spkdfs.Client.Overwrite
import Spkdfs.Client.Uploading
import Spkdfs.Client.Termination
import Spkdfs.Common.ExtendibleHashTable
import Spkdfs.Common.Buckets
import Spkdfs.Common.Splitting
import Spkdfs.Common.FiniteMap
import Spkdfs.Common.HashTableCalls
import Spkdfs.Library.BinarySearch
import Spkdfs.Node.RaftDN
import Spkdfs.Node.Server
import Spkdfs.Client.RefusedPut
import Spkdfs.Client.UploadPrograms
import Spkdfs.Client.Finishing
import Spkdfs.Client.Cancelling
import Spkdfs.Client.DaemonUpload
import Spkdfs.Client.DaemonSteps
import Spkdfs.Client.QueueRuns
import Spkdfs.Client.StatusChanges
import Spkdfs.Client.ReadYourWrites
import Spkdfs.Client.Commitments
import Spkdfs.Client.NothingLost
import Spkdfs.Client.Settling
import Spkdfs.Node.Standing
import Spkdfs.Client.RemovedUploads
import Spkdfs.Client.Usable
import Spkdfs.Library.Files
import Spkdfs.Library.Followers
import Spkdfs.Node.Datanode
import Spkdfs.Node.BlockStore
import Spkdfs.Node.Membership
import Spkdfs.Node.TreeRefinement
import Spkdfs.Client.Mount
import Spkdfs.Node.NnTimer
import Spkdfs.Node.Redelivery
import Spkdfs.Client.Connecting
import Spkdfs.Client.ConnectionPool
import Spkdfs.Client.DaemonDownload
import Spkdfs.Client.MountCalls
import Spkdfs.Client.DaemonListing
import Spkdfs.Client.MountHandles
import Spkdfs.Common.IntervalTimer
import Spkdfs.Client.LockRefresh
