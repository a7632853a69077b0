import Crossync.Interleave.System
import Crossync.Interleave.Futex
import Crossync.Interleave.Tally
import Crossync.Interleave.Parking
import Crossync.Interleave.Stake
import Crossync.Interleave.Solo
import Crossync.Interleave.Call
import Crossync.Interleave.Stretch
import Crossync.Interleave.Monitor
import Crossync.Interleave.History
import Crossync.Interleave.Recording
import Crossync.Interleave.Closure
import Crossync.Linked.Chain
import Crossync.Unwind.Scope
import Crossync.Core.Backoff
import Crossync.Core.RefCount
import Crossync.Core.Parker
import Crossync.Core.StateWord
import Crossync.Core.RawMutex
import Crossync.Core.RawMutexExclusion
import Crossync.Core.RawMutexParking
import Crossync.Core.RawMutexClean
import Crossync.Core.RawMutexWaits
import Crossync.Core.RawMutexWriters
import Crossync.Core.RawMutexHolds
import Crossync.Core.SerialWord
import Crossync.Core.SerialMutex
import Crossync.Core.SerialExact
import Crossync.Core.SerialParking
import Crossync.Core.SerialHolds
import Crossync.Core.SMutex
import Crossync.Core.SMutexExact
import Crossync.Core.SMutexParking
import Crossync.Core.SMutexHolds
import Crossync.Core.SCondVar
import Crossync.Core.SCondVarTokens
import Crossync.Core.SCondVarBroadcast
import Crossync.Core.Coord
import Crossync.Core.CoordLanes
import Crossync.Core.CoordExclusion
import Crossync.Core.CoordRegister
import Crossync.Core.CoordGuards
import Crossync.LockFree.SpinCell
import Crossync.LockFree.SpinCellFlags
import Crossync.LockFree.SpinCellLimit
import Crossync.Sync.Barrier
import Crossync.Sync.BarrierPhases
import Crossync.Sync.RwLock
import Crossync.Sync.RwLockGuards
import Crossync.Sync.RwLockWaits
import Crossync.Atomic.Atomic
import Crossync.Atomic.AtomicSections
import Crossync.Atomic.AtomicSerial
import Crossync.Atomic.Cell
import Crossync.Atomic.CellGuards
import Crossync.Atomic.CellCalls
import Crossync.Atomic.Buffer
import Crossync.Atomic.BufferTransfer
import Crossync.Atomic.BufferPlaces
import Crossync.Atomic.BufferVerdicts
import Crossync.Atomic.BufferAlone
import Crossync.Atomic.BufferFifo
import Crossync.Atomic.Vec
import Crossync.Atomic.VecAlone
import Crossync.Atomic.VecRep
import Crossync.Atomic.VecRefines
import Crossync.Atomic.VecOwns
import Crossync.Atomic.VecReads
import Crossync.Atomic.VecDrop
import Crossync.Atomic.VecCoord
import Crossync.Atomic.VecEnds
import Crossync.Atomic.VecPool
import Crossync.Atomic.VecLedger
import Crossync.Atomic.VecBlocks
import Crossync.Atomic.VecStock
import Crossync.Atomic.VecInvariant
import Crossync.Atomic.VecPush
import Crossync.Atomic.VecPop
import Crossync.Atomic.VecReclaim
import Crossync.Atomic.VecDelivery
import Crossync.Atomic.VecOrder
import Crossync.Atomic.VecSerial
import Crossync.Atomic.Array
import Crossync.Atomic.ArrayLocks
import Crossync.Atomic.ArrayTickets
import Crossync.Atomic.ArrayAccount
import Crossync.Atomic.ArraySlots
import Crossync.Atomic.ArrayParking
import Crossync.Atomic.ArrayReset
import Crossync.Atomic.ArrayChunks
import Crossync.Atomic.HashMap
import Crossync.Atomic.HashMapLayout
import Crossync.Atomic.HashMapRep
import Crossync.Atomic.HashMapRefines
import Crossync.Atomic.HashMapDrop
import Crossync.Atomic.HashMapShared
import Crossync.Atomic.HashMapLocks
import Crossync.Atomic.HashMapChains
import Crossync.Atomic.HashMapShape
import Crossync.Atomic.HashMapGuards
import Crossync.Atomic.HashMapDetach
import Crossync.Atomic.HashMapClear
import Crossync.Atomic.HashMapParking
import Crossync.Atomic.HashMapCalls
import Crossync.Channels.Mpmc
import Crossync.Channels.MpmcGuarded
import Crossync.Channels.MpmcFifo
import Crossync.Channels.MpmcCalls
import Crossync.Channels.MpmcParking
