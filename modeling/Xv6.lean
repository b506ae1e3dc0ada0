import Xv6.Runs
import Xv6.LittleEndian
import Xv6.RedoLog
import Xv6.Block
import Xv6.Log
import Xv6.LogInvariant
import Xv6.LogSteps
import Xv6.CrashAtomicity
import Xv6.Inode
import Xv6.InodeTable
import Xv6.Outcome
import Xv6.Bitmap
import Xv6.Fs
import Xv6.BlockMap
import Xv6.BlockAlloc
import Xv6.Bmap
import Xv6.FileContents
import Xv6.WriteRead
import Xv6.Freeing
import Xv6.BlockOwnership
import Xv6.FileWrite
import Xv6.Vm
import Xv6.Frames
import Xv6.Mapping
import Xv6.KernelPart
import Xv6.UserMemory
import Xv6.Exec
import Xv6.ProcMem
import Xv6.LazyFork
import Xv6.Prog
import Xv6.Sysfile
import Xv6.SyscallArgs
import Xv6.LazyBound
import Xv6.ProcTable
import Xv6.ProcRules
import Xv6.ProcExclusive
import Xv6.ProcTree
import Xv6.SleepLock
import Xv6.LogProtocol
import Xv6.Census
import Xv6.Ring
import Xv6.Bcache
import Xv6.CacheOrder
import Xv6.CacheStore
import Xv6.Transactions
import Xv6.FileMachine
import Xv6.InodeRefs
import Xv6.FileRefs
import Xv6.References
import Xv6.Volume
import Xv6.Fifo
import Xv6.Owner
import Xv6.Pipe
import Xv6.PipeWakeups
import Xv6.Trap
import Xv6.ProcKill
import Xv6.ProcAccounts
import Xv6.PageWords
import Xv6.PageRefine
import Xv6.PagePool
import Xv6.Locks
import Xv6.PathWalk
import Xv6.NameCalls
import Xv6.SelfDeadlock
import Xv6.Namei
import Xv6.CallFail
import Xv6.Memmove
import Xv6.MpTable
import Xv6.Printint
import Xv6.Extents
import Xv6.ExtentFile
import Xv6.Buffers
import Xv6.SizeGuard
import Xv6.Truncate
import Xv6.ExtentMap
import Xv6.Console
import Xv6.Circular
import Xv6.Chunks
import Xv6.Umalloc
import Xv6.HeapIntegrity
import Xv6.CacheDemand
import Xv6.Reading
import Xv6.Mkfs
import Xv6.MkfsRead
import Xv6.Loading
import Xv6.Copyout
import Xv6.ArgStack
import Xv6.PageFaults
import Xv6.Dealloc
import Xv6.Views
import Xv6.Isolation
import Xv6.ExecFail
import Xv6.Slots
import Xv6.Directory
import Xv6.DirectoryOps
import Xv6.DirectoryMap
import Xv6.Grep
import Xv6.FifoPosition
import Xv6.Selection
import Xv6.Schedulers
