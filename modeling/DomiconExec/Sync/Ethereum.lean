import DomiconExec.Primitives.OrderedMap
import DomiconExec.Objects.Signing
import DomiconExec.Pool.Step
import DomiconExec.Pool.Retention
import DomiconExec.Db.Chain
import Mathlib.Tactic.Simps.Basic

namespace Sync

open Db Sql FilePool

structure CommitDetail where
  nonce : UInt64
  index : UInt64
  blockNum : UInt64
  commit : Bytes
  sigData : List Bytes
  nameSpaceId : Option Int
  signAddress : List GoString
  time : GoTime
  outOfTime : GoTime
  root : Hash

-- The details by transaction hash. The values are pointers, which are `none` if they are nil.
abbrev CommitCache :=
  OrderedMap Hash (Option CommitDetail)

-- The event of a commitment. The numbers are pointers, which are nil if the log has no data.
structure SendDACommitment where
  nameSpaceId : Option Int
  nonce : Option UInt64
  index : Option UInt64
  timestamp : Option Int
  signatures : List Bytes

structure Config where
  commitmentManagerProxy : GoString
  nodeType : String
  address : Address

-- What a call finds around the node. A result is `none` if there is an error.
structure Env where
  now : GoTime
  zone : Int
  pool : FilePool.Env
  keccak256 : Bytes → Hash
  setBytes : SetBytes
  transactionReceipt : Hash → Option EthReceipt
  parseSendDACommitment : EthLog → Option SendDACommitment
  ecrecover : Hash → Bytes → Except GoError Bytes
  signer : FdSigner
  nameSpace : Int → List Address

structure State where
  db : Database
  pool : FilePool
  heap : Heap
  currentBlock : Option EthBlock

-- The errors of the database during `processBlocks`, besides those of the unique indexes.
structure Faults where
  blocks : Option Error
  transactions : EthBlock → Option Error
  receipts : Option Error
  logs : Option Error
  commit : Option Error
  getLastBlockNum : Option Error
  lastBlockNum : Option Error

@[simps]
def Faults.quiet : Faults where
  blocks := none
  transactions _ := none
  receipts := none
  logs := none
  commit := none
  getLastBlockNum := none
  lastBlockNum := none

-- A batch that fails rolls the transaction back.
def orFail (fault : Option Error) (batch : Except GoPanic (Tx × Option Error)) :
    Except GoPanic (Tx × Option Error) :=
  match fault with
  | some err => .ok (none, some err)
  | none     => batch

-- A coordinate of a point is reduced when it is read.
def coordinate (b : Bytes) : Bytes :=
  Bytes.bigEndian (Bytes.toNat b % Element.modulus) |>.fit 32

def slice (data : Bytes) : Except GoPanic Bytes :=
  if data.length < 196 then
    .error .indexOutOfRange
  else
    .ok (coordinate (data.drop 132 |>.take 32) ++ coordinate (data.drop 164 |>.take 32))

-- The commitments of the transactions that were sent to the contract.
def readCommitment (env : Env) (bc : EthBlock) (commitCache : CommitCache) (tx : EthTransaction) :
    Except GoPanic CommitCache := do
  if tx.data.length ≠ 0 then
    let commitment ← slice tx.data
    return commitCache.set tx.hash <| some {
      nonce := 0
      index := 0
      blockNum := .ofNat bc.number
      commit := commitment
      sigData := []
      nameSpaceId := none
      signAddress := []
      time := .ofUnix env.zone (int64 bc.time)
      outOfTime := .zero
      root := .zero
    }
  else
    return commitCache

def isCommitment (c : Config) (env : Env) (tx : EthTransaction) : Bool :=
  tx.toAddr.any fun a => a.checksumHex env.keccak256 = c.commitmentManagerProxy

-- Nothing is inserted for a block without commitments.
def addTransactions (f : Faults) (c : Config) (env : Env) :
    List EthBlock → CommitCache → Tx → Except GoPanic (CommitCache × Tx × List Error)
  | [], commitCache, tx => .ok (commitCache, tx, [])
  | bc :: blocks, commitCache, tx => do
    let trans := bc.transactions.filter (isCommitment c env)
    let fault := if trans.length ≠ 0 then f.transactions bc else none
    let commitCache ← trans.foldlM (readCommitment env bc) commitCache
    let (tx, err) ← orFail fault (addBatchTransactions bc.number trans tx)
    let (commitCache, tx, errs) ← addTransactions f c env blocks commitCache tx
    return (commitCache, tx, err.toList ++ errs)

-- A commitment without a successful receipt is also removed from the cache. This has no effect,
-- because the missing receipt is dereferenced when the logs are collected, if not before.
def receipt (env : Env) (txHash : Hash) : Option EthReceipt :=
  env.transactionReceipt txHash |>.filter (·.status = 1)

-- The variables of the loop over the receipts, together with the hashes that were asked for.
structure Checked where
  commitCache : OrderedMap.Backed Hash (Option CommitDetail)
  receipts : List (Option EthReceipt)
  asked : List Hash

-- The body of the loop over the slice that `Keys` returned at first. The hash is read at its turn.
def checkReceipt (env : Env) (s : Checked) (i : Nat) : Except GoPanic Checked :=
  match s.commitCache.array[i]? with
  | none => .error .indexOutOfRange
  | some k =>
    let s := { s with asked := s.asked ++ [k] }
    match receipt env k with
    | some rec => .ok { s with receipts := s.receipts.set i (some rec) }
    | none => do
      let commitCache ← s.commitCache.del k
      return { s with commitCache }

def checkReceipts (env : Env) (commitCache : OrderedMap.Backed Hash (Option CommitDetail)) :
    Except GoPanic Checked :=
  (List.range commitCache.len).foldlM (checkReceipt env)
    ⟨commitCache, List.replicate commitCache.len none, []⟩

def collectLogs (receipts : List (Option EthReceipt)) : Except GoPanic (List EthLog) :=
  receipts.foldlM (fun logs rec =>
    match rec with
    | none     => .error .nilDereference
    | some rec => .ok (logs ++ rec.logs)) []

-- Completes the detail of a commitment. The entry for a log of an unknown transaction is nil. The
-- errors of the signatures are only logged.
def applyLog (env : Env) (commitCache : CommitCache) (log : EthLog) : Except GoPanic CommitCache :=
  match commitCache.get log.txHash, env.parseSendDACommitment log with
  | some none, some _ => .error .nilDereference
  | some (some detail), some daDetail =>
    match daDetail.nonce, daDetail.index, daDetail.timestamp with
    | some nonce, some index, some timestamp => do
      let recovery := ⟨env.keccak256, env.ecrecover⟩
      let (addrList, _) ← getSender recovery env.signer daDetail.signatures
      return commitCache.set log.txHash <| some { detail with
        nameSpaceId := daDetail.nameSpaceId
        nonce := nonce
        index := index
        outOfTime := .ofUnix env.zone timestamp
        sigData := daDetail.signatures
        blockNum := log.blockNumber
        signAddress := addrList.map (·.checksumHex env.keccak256)
      }
    | _, _, _ => .error .nilDereference
  | detail, _ => .ok <| commitCache.set log.txHash detail.join

-- If the pool does not have the data, then looking it up in the database fails: either the table is
-- empty, or the statement refers to a column that does not exist.
def getDAByCommit (setBytes : SetBytes) (pool : FilePool) (das : Table DARow) (commit : Bytes) :
    Except Error Ref :=
  match pool.all.get (setBytes commit).fst.hash with
  | some fd => .ok fd
  | none    => .error (if das.rows.length = 0 then .tableIsEmpty else .noSuchColumn)

-- The body of the loop that collects the data the pool has. The data is changed in place.
def collectData (env : Env) (das : Table DARow) (commitCache : CommitCache)
    (s : FilePool × Heap × List Ref) (txHash : Hash) : Except GoPanic (FilePool × Heap × List Ref) :=
  match commitCache.get txHash with
  | none => .ok s
  | some none => .error .nilDereference
  | some (some daDetail) =>
    if expires daDetail.time env.now then
      .ok s
    else
      match getDAByCommit env.setBytes s.fst das daDetail.commit with
      | .error _ => .ok s
      | .ok fd => do
        let (pool, heap, daDatas) := s
        let heap := Function.update heap fd { heap fd with
          nameSpaceID := daDetail.nameSpaceId
          txHash := txHash
          nonce := daDetail.nonce
          signData := daDetail.sigData
          blockNum := daDetail.blockNum
          signerAddr := daDetail.signAddress
          root := daDetail.root
          receiveAt := env.now
          outOfTime := daDetail.outOfTime
        }
        let r ← pool.add { env.pool with heap } [fd] false
        return (r.pool, heap, daDatas ++ [fd])

-- The node stores the data if it is a broadcast node or if it belongs to the name space.
def shouldSave (c : Config) (env : Env) (id : Int) : Bool :=
  UInt64.ofInt id ≠ 0 && c.nodeType = "s" && c.address ∈ env.nameSpace id || c.nodeType = "b"

def saveData (c : Config) (env : Env) (heap : Heap) (s : Database × List Error) (fd : Ref) :
    Except GoPanic (Database × List Error) :=
  let (db, errs) := s
  match (heap fd).nameSpaceID with
  | none => .error .nilDereference
  | some id => do
    let (das, err) ← saveDACommit env.keccak256 db.das (heap fd) (shouldSave c env id)
    return ({ db with das }, errs ++ err.toList)

-- Neither the error of the statement nor that of the commit has an effect on what follows.
def commit (f : Faults) (tx : Tx) (db : Database) : Database :=
  if f.commit.isSome then db else tx.getD db

def setCurrentBlock (f : Faults) (block : EthBlock) (db : Database) : Database × List Error :=
  let num := if f.getLastBlockNum.isSome then 0 else db.getLastBlockNum
  let stmt := if num = 0 then
      Database.addLastBlockNum block.number
    else
      Database.upDataLastBlocNum num block.number
  match f.lastBlockNum with
  | some err => (db, [err])
  | none =>
    let (tx, err) := execute stmt (some db)
    (tx.getD db, err.toList)

-- The result includes all errors of the database, most of which are only logged.
def processBlocksWith (f : Faults) (c : Config) (env : Env) (s : State) (blocks : List EthBlock) :
    Except GoPanic (State × List Error) := do
  let (tx, err) ← orFail f.blocks (addBatchBlocks blocks (some s.db))
  if let some err := err then
    return (s, [err])
  let (commitCache, tx, errs₁) ← addTransactions f c env blocks .empty tx
  let receipts := commitCache.keys.map (receipt env)
  let (tx, err₂) ← orFail f.receipts (addBatchReceipts env.keccak256 receipts tx)
  let logs ← collectLogs receipts
  let (tx, err₃) ← orFail f.logs (addBatchLogs env.keccak256 logs tx)
  -- The transaction is committed, unless it was rolled back.
  let db := commit f tx s.db
  let commitCache ← logs.foldlM (applyLog env) commitCache
  let (pool, heap, daDatas) ←
    commitCache.keys.foldlM (collectData env db.das commitCache) (s.pool, s.heap, [])
  let (db, errs₄) ← daDatas.foldlM (saveData c env heap) (db, [])
  let pool := pool.removeAll heap daDatas
  let errs := errs₁ ++ err₂.toList ++ err₃.toList ++ errs₄
  match blocks.getLast? with
  | none => return ({ s with db, pool, heap }, errs)
  | some block =>
    let (db, errs₅) := setCurrentBlock f block db
    return ({ db, pool, heap, currentBlock := some block }, errs ++ errs₅)

def processBlocks : Config → Env → State → List EthBlock → Except GoPanic (State × List Error) :=
  processBlocksWith .quiet

-- The case of `doEthereumSync` that undoes the blocks after `org`.
def rollback (latestBlock org : EthBlock) (db : Database) : Database :=
  let nums := (List.range (latestBlock.number - org.number)).map (latestBlock.number - ·)
  let db := nums.foldl (fun db i => db.deleteBlockByNum i) db
  let num := db.getLastBlockNum
  let (tx, _) := execute (Database.upDataLastBlocNum num org.number) (some db)
  tx.getD db

-- The blocks that `startSyncWithNum` gets, which it processes one at a time.
def resync (c : Config) : State → List (Env × EthBlock) → Except GoPanic (State × List Error)
  | s, [] => .ok (s, [])
  | s, (env, block) :: blocks => do
    let (s, errs) ← processBlocks c env s [block]
    let (s, errs') ← resync c s blocks
    return (s, errs ++ errs')

inductive Event
  | processBlocks (env : Env) (blocks : List EthBlock)
  | rollback (latestBlock org : EthBlock)
  -- The pool and its data change between the calls.
  | pool (pool : FilePool) (heap : Heap)

def step (c : Config) (s : State) : Event → Except GoPanic State
  | .processBlocks env blocks => Prod.fst <$> processBlocks c env s blocks
  | .rollback latestBlock org => .ok { s with db := rollback latestBlock org s.db }
  | .pool pool heap           => .ok { s with pool, heap }

def machine (c : Config) (pool : FilePool) (heap : Heap) : Transition.System State Event GoPanic where
  init := { db := .empty, pool, heap, currentBlock := none }
  step := step c

end Sync
