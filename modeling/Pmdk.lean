import Pmdk.Blk.BttCheck
import Pmdk.Blk.BttRelease
import Pmdk.Blk.BttZeroes
import Pmdk.Blk.MapFlogOpen
import Pmdk.Ctl.Config
import Pmdk.Immer.ChampIterator
import Pmdk.Immer.ChampRefs
import Pmdk.Immer.ConcatMerger
import Pmdk.Immer.FlushOps
import Pmdk.Immer.VectorPublished
import Pmdk.Log.LogBounds
import Pmdk.Log.LogRefine
import Pmdk.NvMalloc.ObjectTableRuns
import Pmdk.NvMalloc.ReserveRoom
import Pmdk.Obj.ActionLocks
import Pmdk.Obj.AddBuffer
import Pmdk.Obj.ClassByRun
import Pmdk.Obj.CuckooGrow
import Pmdk.Obj.ExtendRuns
import Pmdk.Obj.LaneCheck
import Pmdk.Obj.LaneHold
import Pmdk.Obj.LanesRun
import Pmdk.Obj.ListCalls
import Pmdk.Obj.LockInit
import Pmdk.Obj.MemblockOffset
import Pmdk.Obj.MemopsFinish
import Pmdk.Obj.RepOps
import Pmdk.Obj.Root
import Pmdk.Obj.Seglists
import Pmdk.Obj.TxAbort
import Pmdk.Obj.TxActionsRuns
import Pmdk.Obj.TxLocks
import Pmdk.Obj.TxNesting
import Pmdk.Obj.TxRestore
import Pmdk.Obj.TxTreeRun
import Pmdk.Obj.UndoFresh
import Pmdk.Obj.ZoneSizes
import Pmdk.Pmem.Mmap
import Pmdk.Pmem.Persist
import Pmdk.Pool.BadBlocksFile
import Pmdk.Pool.DirectoryResume
import Pmdk.Pool.ExtendRestore
import Pmdk.Pool.HeadersArranged
import Pmdk.Pool.HeapSize
import Pmdk.Pool.PoolsetBuilds
import Pmdk.Pool.ReadLine
import Pmdk.Pool.ReplicaFlush
import Pmdk.Pool.ShutdownRuns
import Pmdk.Pool.TransformPool
import Pmdk.Reorder.StateMachine
import Pmdk.Rpmem.Fip
import Pmdk.Rpmem.ObcClient
