import HwGam.Lib.Doubly
import HwGam.Lib.Linked
import HwGam.Lib.Transition
import HwGam.Lib.Account
import HwGam.Lib.Bytes
import HwGam.Lib.Decimal
import HwGam.Lib.Totals
import HwGam.Lib.Cyclic
import HwGam.Lib.Msgpack
import HwGam.Fence.Model
import HwGam.Fence.Lock
import HwGam.Fence.Order
import HwGam.Fence.OrderSteps
import HwGam.Fence.Wakeup
import HwGam.Coherence.Request
import HwGam.Coherence.Directory
import HwGam.Coherence.Block
import HwGam.Coherence.LockTable
import HwGam.Coherence.Split
import HwGam.Coherence.Cache
import HwGam.Coherence.Home
import HwGam.Coherence.Step
import HwGam.Coherence.Handlers
import HwGam.Coherence.Config
import HwGam.Coherence.LocalSteps
import HwGam.Coherence.AskSteps
import HwGam.Coherence.ReplySteps
import HwGam.Coherence.Invariant
import HwGam.Coherence.WorkerSteps
import HwGam.Coherence.HomeFrame
import HwGam.Coherence.HomeLocal
import HwGam.Coherence.HomeOwn
import HwGam.Coherence.HomeAcks
import HwGam.Coherence.HomeInvalidate
import HwGam.Coherence.Protocol
import HwGam.Coherence.Outcomes
import HwGam.Coherence.System
import HwGam.Coherence.Runs
import HwGam.Coherence.Safety
import HwGam.Coherence.Entries
import HwGam.Coherence.Responders
import HwGam.Coherence.Desk
import HwGam.Coherence.Moves
import HwGam.Coherence.Ledger
import HwGam.Coherence.Completion
import HwGam.Coherence.Effects
import HwGam.Coherence.Sharing
import HwGam.Coherence.Reads
import HwGam.Coherence.Mutex
import HwGam.Coherence.Parked
import HwGam.Coherence.Quiet
import HwGam.Mcs.Rpc
import HwGam.Mcs.Task
import HwGam.Mcs.Invoker
import HwGam.Mcs.Functions
import HwGam.Mcs.Serializer
import HwGam.Wire.WorkRequest
import HwGam.Wire.Receive
import HwGam.Wire.Configs
import HwGam.Wire.MemStats
import HwGam.Wire.Fits
import HwGam.Logging.Ring
import HwGam.Worker.Psn
import HwGam.Worker.Malloc
import HwGam.Worker.MemUse
import HwGam.Rdma.Context
import HwGam.Rdma.Ring
import HwGam.Rdma.Fifo
import HwGam.Rdma.Recv
import HwGam.Slabs.Allocator
import HwGam.Slabs.Books
import HwGam.Slabs.Safety
import HwGam.Slabs.Realloc
import HwGam.Slabs.Calloc
import HwGam.Slabs.Classes
import HwGam.GArray.Model
import HwGam.GArray.Tree
import HwGam.GArray.Grow
import HwGam.GArray.Shrink
import HwGam.GArray.Array
import HwGam.Galloc.Lock
import HwGam.Lru.Model
import HwGam.Lru.Accounts
import HwGam.Lru.Lists
import HwGam.Master.KeyValue
import HwGam.Coherence.Linear
import HwGam.Cluster.Conn
import HwGam.Cluster.Join
import HwGam.Cluster.Roll
