import DomiconExec.Objects.Theorems.Sender
import DomiconExec.Pool.Theorems.Eviction
import DomiconExec.Pool.Theorems.Retention
import DomiconExec.Pool.Theorems.Replay
import DomiconExec.Fetcher.Theorems.Outcomes
import DomiconExec.Fetcher.Theorems.Allocation
import DomiconExec.Eth.Theorems.Broadcast
import DomiconExec.Eth.Theorems.Backend
import DomiconExec.Eth.Theorems.Order
import DomiconExec.Eth.Theorems.Answer
import DomiconExec.Eth.Theorems.Serve
import DomiconExec.Eth.Theorems.Writer
import DomiconExec.Eth.Theorems.Dispatcher
import DomiconExec.Eth.Theorems.PeerSet
import DomiconExec.Db.Theorems.StateHash
import DomiconExec.Sync.Theorems.ForkPoint
import DomiconExec.Sync.Theorems.Receipts
import DomiconExec.Sync.Theorems.Progress
import DomiconExec.Sync.Theorems.Numbering
import DomiconExec.Sync.Theorems.Shallow
import DomiconExec.Sync.Theorems.Parked
import DomiconExec.Sync.Theorems.SingleFlight
import DomiconExec.Sync.Theorems.Rows
import DomiconExec.Sync.Theorems.Logs
import DomiconExec.Sync.Theorems.Coverage
import DomiconExec.Script.Theorems.Transaction
import DomiconExec.Objects.Theorems.Size
import DomiconExec.Rlp.Theorems.Split
import DomiconExec.Rlp.Theorems.Output
import DomiconExec.Objects.Theorems.DeriveSha
import DomiconExec.Objects.Theorems.ReceiptStorage
import DomiconExec.P2p.Theorems.Multiplex
import DomiconExec.Core.Theorems.Forkid
import DomiconExec.Discover.Theorems.Lookup
import DomiconExec.Discover.Theorems.Accounting
import DomiconExec.Discover.Theorems.Replies
import DomiconExec.Sync.Theorems.SortMap
import DomiconExec.Eth.Theorems.KnownCache
import DomiconExec.Sync.Theorems.SortCache
import DomiconExec.Trie.Theorems.Encoding
import DomiconExec.Common.Theorems.BasicLRU
