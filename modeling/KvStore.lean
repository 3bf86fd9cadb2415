import KvStore.Native.SkipList
import KvStore.ForStd.OrderedMap
import KvStore.Native.MapStore
import KvStore.ForStd.PtrPath
import KvStore.Spec.SkipListSearch
import KvStore.Spec.SkipListUpdate
import KvStore.ForStd.Lookup
import KvStore.Spec.SkipListOps
import KvStore.Spec.MapStoreCorrect
import KvStore.Spec.SkipListCorrect
import KvStore.Native.Index
import KvStore.ForStd.Bytes
import KvStore.Native.WAL
import KvStore.ForStd.Framing
import KvStore.Spec.WALCorrect
import KvStore.Spec.WALTornTail
import KvStore.ForStd.UpdateLog
import KvStore.Native.KVStore
import KvStore.Spec.KVStoreRecovery
import KvStore.Spec.KVStoreCrash
import KvStore.Spec.KVStoreFailure
import KvStore.ForStd.Transition
import KvStore.Native.SharedStore
import KvStore.Spec.CheckpointRace
import KvStore.Spec.LogOrder
import KvStore.ForStd.Decimal
import KvStore.ForStd.Decoder
import KvStore.Native.Protocol
import KvStore.Spec.ParseSize
import KvStore.Spec.Frame
import KvStore.Native.Server
import KvStore.Spec.RequestCodecCorrect
import KvStore.Spec.ReadLoopCorrect
import KvStore.Spec.FrameAccepted
import KvStore.Native.Checkpoint
import KvStore.Spec.Reopen
import KvStore.Spec.CheckpointFailure
import KvStore.ForStd.DurableFile
import KvStore.Native.DurableStore
import KvStore.Spec.PowerCut
import KvStore.Native.CommandProcessor
import KvStore.Native.ConcurrentSkipList
import KvStore.Spec.EventTrace
import KvStore.Spec.CommandExecution
import KvStore.Spec.ReactorCorrect
import KvStore.Spec.ConnectionClose
import KvStore.Native.Client
import KvStore.Spec.ResponseLines
import KvStore.ForStd.JoinedPairs
import KvStore.Spec.ScanReply
import KvStore.ForStd.Words
import KvStore.Spec.CommandLine
import KvStore.Spec.InteractiveLine
import KvStore.Spec.ConcurrentHeap
import KvStore.ForStd.Threads
import KvStore.Spec.ConcurrentOutline
import KvStore.Spec.ConcurrentSteps
import KvStore.Spec.ConcurrentCorrect
import KvStore.Spec.ConcurrentCover
import KvStore.Spec.ConcurrentRead
import KvStore.Spec.ConcurrentProgress
import KvStore.Spec.ConcurrentBounds
import KvStore.Spec.ConcurrentLevel
import KvStore.Native.FaultyStore
import KvStore.Spec.CommandFailure
import KvStore.Spec.LengthArithmetic
import KvStore.Spec.RecordSizes
import KvStore.ForStd.FoldHash
import KvStore.Spec.WALDamage
import KvStore.Spec.ConnectionInterest
import KvStore.Native.PeriodicWAL
import KvStore.Spec.PeriodicFlush
import KvStore.Native.SnapshotStream
import KvStore.Spec.SnapshotLoading
import KvStore.Spec.SkipListShape
import KvStore.Spec.RequestProgress
import KvStore.ForStd.AtomicMap
import KvStore.Spec.ConcurrentContents
import KvStore.Spec.ConcurrentAtomic
import KvStore.Native.Interruption
import KvStore.Spec.CommandRefinement
import KvStore.Spec.RequestDurability
import KvStore.ForStd.AtomicObject
import KvStore.Native.System
import KvStore.Spec.SystemRequests
import KvStore.Spec.SystemLink
import KvStore.Spec.SystemAtomic
import KvStore.Spec.SystemProgress
import KvStore.Native.Lifetime
import KvStore.Spec.ConcurrentMemory
import KvStore.Native.PeriodicStore
import KvStore.Spec.PeriodicPowerCut
import KvStore.Native.ReactorServer
import KvStore.Spec.ReactorDescriptors
import KvStore.ForStd.FileTree
import KvStore.Native.Directories
import KvStore.Spec.DirectoriesCorrect
import KvStore.ForStd.Interleave
import KvStore.Native.Workload
import KvStore.Spec.WorkloadCorrect
import KvStore.Native.RawClient
import KvStore.Spec.RawForwarding
