import Fluent31.Lib.Retention
import Fluent31.Lib.Ordered
import Fluent31.Version
import Fluent31.Commit
import Fluent31.Compaction
import Fluent31.CommitSpec
import Fluent31.Fragments
import Fluent31.Trigger
import Fluent31.Collect
import Fluent31.Install
import Fluent31.Scheduling
import Fluent31.Reopen
import Fluent31.Reachable
import Fluent31.Reads
import Fluent31.Grouping
import Fluent31.WriteSteps
import Fluent31.CommitQueue
import Fluent31.Delivery
import Fluent31.FirstCommitter
import Fluent31.RecordSize
import Fluent31.Answers
import Fluent31.Admission
import Fluent31.TriggerQueue
import Fluent31.ManifestCommit
import Fluent31.WalFile
import Fluent31.WritePath
import Fluent31.WriteEffect
import Fluent31.SealedWals
import Fluent31.StoreLife
import Fluent31.Degraded
import Fluent31.BlockCache
import Fluent31.ChangeLog
import Fluent31.TriggerRunner
import Fluent31.TouchLog
import Fluent31.ForkSpec
import Fluent31.Coerce
import Fluent31.Descriptor
import Fluent31.Frame
import Fluent31.Subscription
import Fluent31.Service
import Fluent31.ServiceSteps
import Fluent31.VlogFiles
import Fluent31.Streams
import Fluent31.StreamExact
import Fluent31.VlogReaders
import Fluent31.VlogGc
import Fluent31.Proto
import Fluent31.PushFrames
import Fluent31.ReplClient
import Fluent31.EdgeStore
import Fluent31.WasmHost
import Fluent31.Execute
import Fluent31.Quiesce
import Fluent31.FileIds
import Fluent31.FileLedger
import Fluent31.FileIdsSpec
import Fluent31.PinsSpec
import Fluent31.TxnCap
import Fluent31.Readers
import Fluent31.Scans
import Fluent31.PointReads
import Fluent31.TxnScan
import Fluent31.GroupAtomic
import Fluent31.GroupChunk
import Fluent31.Relocation
import Fluent31.JournalReopen
import Fluent31.JournalObserver
import Fluent31.PumpExact
import Fluent31.PumpSpec
import Fluent31.Payloads
import Fluent31.Reader
import Fluent31.WalCut
import Fluent31.VlogScan
import Fluent31.ManifestFile
import Fluent31.GuestScan
import Fluent31.Limits
import Fluent31.VlogHead
import Fluent31.Restore
import Fluent31.TriggerAdmin
import Fluent31.SstRoundTrip
import Fluent31.IkeyOrder
import Fluent31.CacheShard
import Fluent31.TriggerSweep
import Fluent31.TriggerInput
import Fluent31.UringBatch
import Fluent31.Pagination
