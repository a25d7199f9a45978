import DomiconExec.Sync.Ethereum

namespace Sync.Bitcoin

open Db Sql FilePool

inductive Params
  | regressionNet
  | mainNet
  | simNet
  | testNet3
deriving DecidableEq

def Params.name : Params → String
  | regressionNet => "regtest"
  | mainNet       => "mainnet"
  | simNet        => "simnet"
  | testNet3      => "testnet3"

abbrev TxID :=
  GoString

-- An inscription together with the addresses of its validators.
structure TransactionInscription where
  contentType : Bytes
  contentBody : Bytes
  validatorAddresses : List GoString

structure TransactionBrief where
  commitment : Bytes
  blockNum : Int
  addresses : List GoString
  signatures : List GoString

abbrev BtcTxSortCache :=
  OrderedMap TxID (List TransactionBrief)

def customContentType : GoString :=
  .ascii "MultiAaptiveCM;charset=utf-8"

-- What a round finds around the node. The errors are those of the node of the Bitcoin network and of
-- the database. The tables that are only written are left out, except that writing them may fail.
structure Env where
  now : GoTime
  pool : FilePool.Env
  keccak256 : Bytes → Hash
  setBytes : SetBytes
  getBlockCount : Except GoError Int64
  getBlockHash : Int → Except GoError Hash
  getBlockVerbose : Hash → Except GoError (List TxID)
  getBlockHeader : Hash → Except GoError Unit
  -- The results of `ParseTransaction` in `SaveFiles` and in `GenerateBrief`. The parser may panic.
  parseFiles : TxID → Except GoError (Except GoPanic (List TransactionInscription))
  parseTransaction : TxID → Except GoError (Except GoPanic (List TransactionInscription))
  getTransactionSignature : TxID → Except GoError GoString
  firstOrCreate : Option GoError
  saveBlocks : Option GoError
  saveTransactions : Option GoError
  saveFiles : Option GoError
  updateChain : Option GoError

structure WorkerService where
  magicNumber : String
  netParams : Params
  startNum : UInt64
  stateNonce : UInt64

namespace WorkerService

-- A condition on an empty text is ignored.
def matchesChain (ws : WorkerService) (bc : BaseChainRow) : Bool :=
  (ws.magicNumber = "" || bc.magicNumber = ws.magicNumber) && bc.net = ws.netParams.name

def getPresentBlockHeight (ws : WorkerService) (env : Env) (db : Database) : Database × Int :=
  match db.baseChain.find? ws.matchesChain with
  | some bc => (db, int64 bc.currentHeight)
  | none =>
    let bc := {
      net := ws.netParams.name
      magicNumber := ws.magicNumber
      currentHeight := ws.startNum
      createAt := env.now.unix
    }
    ({ db with baseChain := db.baseChain ++ [bc] }, int64 bc.currentHeight)

def present (ws : WorkerService) (db : Database) : Int :=
  int64 <| (db.baseChain.find? ws.matchesChain).elim ws.startNum BaseChainRow.currentHeight

def updateChain (ws : WorkerService) (env : Env) (blockHeight : Int) (db : Database) :
    Except GoError Database :=
  match env.updateChain, db.baseChain.findIdx? ws.matchesChain with
  | some err, _ => .error err
  | none, none => .error ⟨"record not found"⟩
  | none, some i =>
    let save (bc : BaseChainRow) :=
      { bc with currentHeight := uint64 blockHeight, createAt := env.now.unix }
    .ok { db with baseChain := db.baseChain.modify i save }

-- The heights are distinct, so that the cache is the list of its entries.
def getBlocks (env : Env) (first last : Int) : Except GoError (List (Int × List TxID)) :=
  (List.range (last + 1 - first).toNat).foldlM (fun blocks (i : Nat) => do
    let blockHeight := first + i
    let blockHash ← env.getBlockHash blockHeight |>.mapError fun err =>
      ⟨"get block hash by height err:" ++ err.text⟩
    let tx ← env.getBlockVerbose blockHash |>.mapError fun err =>
      ⟨"get block verbose by hash err:" ++ err.text⟩
    let _ ← env.getBlockHeader blockHash |>.mapError fun err =>
      ⟨"get block header by hash err:" ++ err.text⟩
    return blocks ++ [(blockHeight, tx)]) []

def transactionBriefs (blockHeight : Int) (transactionSignature : GoString)
    (inscriptions : List TransactionInscription) : List TransactionBrief :=
  inscriptions.filter (·.contentType = customContentType) |>.map fun ins => {
    commitment := ins.contentBody
    blockNum := blockHeight
    addresses := ins.validatorAddresses
    signatures := [transactionSignature]
  }

-- The body of the loop over the transactions of a block. One that cannot be read is skipped.
def addBriefs (env : Env) (cache : BtcTxSortCache) (blockHeight : Int) (tx : TxID) :
    Except GoPanic BtcTxSortCache :=
  match env.parseTransaction tx with
  | .error _   => .ok cache
  | .ok parsed => do
    let inscriptions ← parsed
    match env.getTransactionSignature tx with
    | .error _                 => return cache
    | .ok transactionSignature =>
      return cache.set tx (transactionBriefs blockHeight transactionSignature inscriptions)

def generateBrief (env : Env) (blocks : List (Int × List TxID)) : Except GoPanic BtcTxSortCache :=
  blocks.foldlM (fun cache (blockHeight, txs) =>
    txs.foldlM (fun cache tx => addBriefs env cache blockHeight tx) cache) .empty

-- The files of a transaction that cannot be read are skipped.
def saveFiles (env : Env) (blocks : List (Int × List TxID)) : Except GoPanic (Option GoError) := do
  blocks.foldlM (fun _ (_, txs) => txs.foldlM (fun _ tx =>
    match env.parseFiles tx with
    | .error _   => .ok ()
    | .ok parsed => discard parsed) ()) ()
  return env.saveFiles

def check : Option GoError → Except GoError Unit
  | none     => .ok ()
  | some err => .error err

-- The database may have changed even if there is an error. A cache that is nil has no keys.
def runSync (ws : WorkerService) (env : Env) (db : Database) :
    Except GoPanic (Database × Except GoError BtcTxSortCache) :=
  match env.getBlockCount, env.firstOrCreate with
  | .error err, _ | _, some err => .ok (db, .error err)
  | .ok currentBlockHeight, none =>
    let (db, presentBlockHeight) := ws.getPresentBlockHeight env db
    if presentBlockHeight ≥ currentBlockHeight.toInt then
      .ok (db, .ok .empty)
    else
      let fetched := do
        let blocks ← getBlocks env (presentBlockHeight + 1) currentBlockHeight.toInt
        check env.saveBlocks
        check env.saveTransactions
        return blocks
      match fetched with
      | .error err => .ok (db, .error err)
      | .ok blocks => do
        match ← saveFiles env blocks with
        | some err => return (db, .error err)
        | none     =>
          let cache ← generateBrief env blocks
          match ws.updateChain env currentBlockHeight.toInt db with
          | .error err => return (db, .error err)
          | .ok db     => return (db, .ok cache)

end WorkerService

structure Config where
  bitcoinMagicNumber : String
  bitcoinNet : GoString
  genesisBlockNumber : UInt64

def Config.netParams (c : Config) : Option Params :=
  let net := c.bitcoinNet.toLower
  if net = .ascii "regtest" then
    some .regressionNet
  else if net = .ascii "mainnet" then
    some .mainNet
  else if net = .ascii "simnet" then
    some .simNet
  else if net = .ascii "testnet3" then
    some .testNet3
  else
    none

-- The errors of the database in a round and at the start, besides those that a round finds.
structure Faults where
  getMaxIDDANonce : Option Error
  getMaxIDDAStateHash : Option Error
  saveBatchCommitment : Option Error
  cleanUpDB : Option Error

def Faults.quiet : Faults where
  getMaxIDDANonce := none
  getMaxIDDAStateHash := none
  saveBatchCommitment := none
  cleanUpDB := none

def newWorkerService (f : Faults) (c : Config) (netParams : Params) (das : Table DARow) :
    WorkerService where
  magicNumber := c.bitcoinMagicNumber
  netParams := netParams
  startNum := c.genesisBlockNumber
  stateNonce := if f.getMaxIDDANonce.isSome then 0 else getMaxIDDANonce das

def Config.present (c : Config) (netParams : Params) (db : Database) : Int :=
  (newWorkerService .quiet c netParams db.das).present db

structure State where
  db : Database
  pool : FilePool
  heap : Heap
  forced : Bool

-- The data that is collected from the pool, with the last nonce that was assigned.
structure Collected where
  stateNonce : UInt64
  pool : FilePool
  heap : Heap
  daDatas : List Ref

-- The body of the loop over the briefs of a transaction. The data is changed in place.
def collectData (env : Env) (das : Table DARow) (tx : TxID) (s : Collected)
    (transactionBrief : TransactionBrief) : Except GoPanic Collected :=
  match getDAByCommit env.setBytes s.pool das transactionBrief.commitment with
  | .error _ => .ok s
  | .ok fd => do
    let stateNonce := s.stateNonce + 1
    let heap := Function.update s.heap fd { s.heap fd with
      nonce := stateNonce
      signerAddr := transactionBrief.addresses
      blockNum := uint64 transactionBrief.blockNum
      signData := transactionBrief.signatures.map Hex.hex2Bytes
      txHash := bytesToHash (Hex.fromHex tx)
      receiveAt := env.now
    }
    let r ← s.pool.add { env.pool with heap } [fd] true
    return { stateNonce, pool := r.pool, heap, daDatas := s.daDatas ++ [fd] }

def collectAll (env : Env) (das : Table DARow) (cache : BtcTxSortCache) (s : Collected) :
    Except GoPanic Collected :=
  cache.keys.foldlM (fun s tx => (cache.get tx |>.getD []).foldlM (collectData env das tx) s) s

-- An error of the database is ignored.
def saveData (f : Faults) (env : Env) (s : State) (collected : Collected) : State :=
  let { pool, heap, daDatas, .. } := collected
  if daDatas.length ≠ 0 then
    let parentHashData := if f.getMaxIDDAStateHash.isSome then [] else getMaxIDDAStateHash s.db.das
    let parentHash := bytesToHash (Hex.fromHex parentHashData)
    let das := if f.saveBatchCommitment.isSome then
        s.db.das
      else
        (saveBatchCommitment env.keccak256 s.db.das (daDatas.map heap) parentHash).fst
    { s with db := { s.db with das }, pool := pool.removeAll heap daDatas, heap }
  else
    { s with pool, heap }

-- After an error the flag remains set.
def doBitcoinSyncWith (f : Faults) (c : Config) (env : Env) (s : State) :
    Except GoPanic (State × Option GoError) := do
  if s.forced then
    return (s, some ⟨"chainSyncer is syncing"⟩)
  let s := { s with forced := true }
  match c.netParams with
  | none => return (s, some ⟨"err config bitcoinNet"⟩)
  | some netParams =>
    let ws := newWorkerService f c netParams s.db.das
    let (db, result) ← ws.runSync env s.db
    let s := { s with db }
    match result with
    | .error err => return (s, some err)
    | .ok cache =>
      let collected ← collectAll env s.db.das cache {
        stateNonce := ws.stateNonce, pool := s.pool, heap := s.heap, daDatas := []
      }
      return ({ saveData f env s collected with forced := false }, none)

def doBitcoinSync (c : Config) (env : Env) (s : State) : Except GoPanic (State × Option GoError) :=
  doBitcoinSyncWith .quiet c env s

-- The cleanup of the database at the start of the node, if the number of the last block can be
-- read.
def startup (db : Database) : Database :=
  db.cleanUpDB db.getLastBlockNum

inductive Event
  | doBitcoinSync (env : Env)
  -- The case of `loop` that receives the result of a round.
  | done
  -- The pool and its data change between the rounds.
  | pool (pool : FilePool) (heap : Heap)

def step (c : Config) (s : State) : Event → Except GoPanic State
  | .doBitcoinSync env => Prod.fst <$> doBitcoinSync c env s
  | .done              => .ok { s with forced := false }
  | .pool pool heap    => .ok { s with pool, heap }

def machine (c : Config) (pool : FilePool) (heap : Heap) : Transition.System State Event GoPanic where
  init := { db := .empty, pool, heap, forced := false }
  step := step c

end Sync.Bitcoin
