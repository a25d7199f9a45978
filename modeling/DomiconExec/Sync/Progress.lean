import DomiconExec.Sync.Ethereum
import DomiconExec.Sync.Reorg

namespace Sync

open Db Sql FilePool

-- The underlying chain. It may grow, but its blocks do not change.
structure L1 where
  block : Nat → EthBlock
  number_eq : ∀ n, (block n).number = n
  receipt : Hash → EthReceipt
  receipt_txHash : ∀ h, (receipt h).txHash = h
  keccak256 : Bytes → Hash
  -- The block that some bytes encode.
  decode : Bytes → Option EthBlock
  decode_encoded : ∀ n, decode (block n).encoded = some (block n)

-- What a call of `processBlocks` finds. The requests for the receipts `lost` fail.
structure Call where
  env : Env
  lost : Hash → Bool
  faults : Faults

def L1.env (l : L1) (call : Call) : Env :=
  { call.env with
    keccak256 := l.keccak256
    transactionReceipt := fun h => if call.lost h then none else some (l.receipt h)
  }

-- Where a synchronization is: none is running, or it is about to request the blocks from `i` on, or
-- the block `num` in `startSyncWithNum`, or it waits for a timer that was not set again.
inductive Phase
  | idle
  | chunks (i l1Num : Nat)
  | follow (num : Nat)
  | stuck

structure Syncer where
  state : State
  phase : Phase

namespace Syncer

-- What a synchronization finds at its start. The number is `none` if there is an error that ends
-- the synchronization. An error of `GetMaxIDBlockNum` does not end it.
structure Start where
  l1Num : Option Nat
  maxID : Bool
  blockByNumber : Bool
  blockByHash : Hash → Option EthBlock
  getBlockByHash : Hash → Option EthBlock

def Start.sources (l : L1) (b : Start) : Sources where
  blockByNumber n := if b.blockByNumber then some (l.block n) else none
  blockByHash := b.blockByHash
  getBlockByHash := b.getBlockByHash

-- The rows are in the order of their identifiers. The number is 0 if there is an error.
def getMaxIDBlockNum (d : Database) : Nat :=
  (d.blocks.rows.getLast?.map (·.blockNum.toNat)).getD 0

def currentHeader (b : Start) (s : State) : Nat :=
  let blockNum := if b.maxID then getMaxIDBlockNum s.db else 0
  let stored := max blockNum s.db.getLastBlockNum
  match s.currentBlock with
  | none   => stored
  | some c => if c.number = 0 then stored else c.number

def getBlockByNum (l : L1) (d : Database) (num : Nat) : Option EthBlock :=
  d.blocks.rows.find? (·.blockNum = (num : Int))
    |>.bind fun r => l.decode (Hex.hex2Bytes r.encodeData)

-- The first part of `doEthereumSync`. There are as many ancestors of a block as its number tells.
def start (l : L1) (genesis : Nat) (b : Start) (s : State) : Except GoPanic Syncer :=
  match b.l1Num with
  | none => .ok ⟨s, .idle⟩
  | some l1Num =>
    if currentHeader b s = 0 then
      .ok ⟨s, .chunks genesis l1Num⟩
    else
      match getBlockByNum l s.db (currentHeader b s) with
      | none => .ok ⟨s, .idle⟩
      | some latestBlock =>
        match checkReorg (b.sources l) genesis (latestBlock.number + 1) latestBlock with
        | .error _ => .error .nilDereference
        | .ok (flag, org) =>
          let db := if flag then rollback latestBlock org s.db else s.db
          .ok ⟨{ s with db }, .follow (org.number + 1)⟩

def syncChunkSize : Nat :=
  10

-- The numbers of the next chunk. It is the last one if it is not full.
def chunkNums (i l1Num : Nat) : List Nat :=
  (List.range' i syncChunkSize).takeWhile (· < l1Num)

-- A round of `doEthereumSync` in which the requests for the blocks `lost` fail. The result of
-- `processBlocks` is ignored.
def chunk (l : L1) (c : Config) (call : Call) (lost : Nat → Bool) (i l1Num : Nat) (s : State) :
    Except GoPanic Syncer :=
  let nums := chunkNums i l1Num
  if nums.any lost then
    .ok ⟨s, .idle⟩
  else do
    let (s, _) ← processBlocksWith call.faults c (l.env call) s (nums.map l.block)
    return ⟨s, if nums.length < syncChunkSize then .idle else .chunks (i + syncChunkSize) l1Num⟩

-- A round of the loop of `startSyncWithNum`. The number of the head is 0 if there is an error. The
-- number of the block is increased before the block is processed, and the result is ignored.
def follow (l : L1) (c : Config) (call : Call) (lost : Bool) (currentNum num : Nat) (s : State) :
    Except GoPanic Syncer :=
  if lost then
    .ok ⟨s, .stuck⟩
  else if (l.block num).number < currentNum then do
    let (s, _) ← processBlocksWith call.faults c (l.env call) s [l.block num]
    return ⟨s, .follow (num + 1)⟩
  else
    .ok ⟨s, .idle⟩

inductive Event
  | start (b : Start)
  | chunk (call : Call) (lost : Nat → Bool)
  | follow (call : Call) (lost : Bool) (currentNum : Nat)
  -- The pool and its data change between the calls.
  | pool (pool : FilePool) (heap : Heap)
  -- The node is started again, which removes what was stored for later blocks.
  | restart (pool : FilePool) (heap : Heap)

def step (l : L1) (c : Config) (genesis : Nat) (s : Syncer) (e : Event) : Except GoPanic Syncer :=
  match s.phase, e with
  | .idle, .start b                           => start l genesis b s.state
  | .chunks i l1Num, .chunk call lost         => chunk l c call lost i l1Num s.state
  | .follow num, .follow call lost currentNum => follow l c call lost currentNum num s.state
  | phase, .pool pool heap                    => .ok ⟨{ s.state with pool, heap }, phase⟩
  | _, .restart pool heap                     =>
    let db := s.state.db.cleanUpDB s.state.db.getLastBlockNum
    .ok ⟨{ db, pool, heap, currentBlock := none }, .idle⟩
  | _, _                                      => .ok s

def machine (l : L1) (c : Config) (genesis : Nat) (pool : FilePool) (heap : Heap) :
    Transition.System Syncer Event GoPanic where
  init := ⟨{ db := .empty, pool, heap, currentBlock := none }, .idle⟩
  step := step l c genesis

end Syncer
end Sync
