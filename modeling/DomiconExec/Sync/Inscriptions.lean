import DomiconExec.Sync.Bitcoin

namespace Sync.Bitcoin

open Db Sql FilePool

-- What the identifiers of transactions and blocks stand for. They are hashes of the contents, so that
-- this does not depend on the chain. Inscriptions are in the order of their inputs and offsets. The
-- parser may panic.
structure World where
  inscriptions : TxID → Except GoPanic (List TransactionInscription)
  signature : TxID → GoString
  block : Hash → List TxID
  keccak256 : Bytes → Hash
  setBytes : SetBytes

abbrev Chain :=
  Int → Hash

structure Inscription where
  tx : TxID
  brief : TransactionBrief

def Inscription.txHash (x : Inscription) : Hash :=
  bytesToHash (Hex.fromHex x.tx)

namespace World

-- The answers of a node that follows the chain. Which calls fail is left to `env`.
def env (w : World) (chain : Chain) (env : Env) : Env :=
  { env with
    keccak256 := w.keccak256
    setBytes := w.setBytes
    getBlockHash height := env.getBlockHash height |>.map fun _ => chain height
    getBlockVerbose hash := env.getBlockVerbose hash |>.map fun _ => w.block hash
    parseFiles tx := env.parseFiles tx |>.map fun _ => w.inscriptions tx
    parseTransaction tx := env.parseTransaction tx |>.map fun _ => w.inscriptions tx
    getTransactionSignature tx := env.getTransactionSignature tx |>.map fun _ => w.signature tx
  }

-- The heights after `present` up to `tip`.
def heights (present tip : Int) : List Int :=
  List.range (tip - present).toNat |>.map fun (i : Nat) => present + 1 + i

def transactions (w : World) (chain : Chain) (present tip : Int) : List (Int × TxID) :=
  (heights present tip).flatMap fun height => (w.block (chain height)).map (height, ·)

def briefs (w : World) (x : Int × TxID) : List TransactionBrief :=
  WorkerService.transactionBriefs x.fst (w.signature x.snd) <|
    (w.inscriptions x.snd).toOption.getD []

def inscriptionsOf (w : World) (x : Int × TxID) : List Inscription :=
  (w.briefs x).map fun brief => ⟨x.snd, brief⟩

-- The matching inscriptions, ordered by height, position in the block, input and offset.
def inscribed (w : World) (chain : Chain) (present tip : Int) : List Inscription :=
  (w.transactions chain present tip).flatMap w.inscriptionsOf

-- The hash under which the pool looks for the data of an inscription.
def commitHash (w : World) (x : Inscription) : Hash :=
  (w.setBytes x.brief.commitment).fst.hash

def find (w : World) (t : Lookup) (x : Inscription) : Option Ref :=
  t.get (w.commitHash x)

-- The inscriptions whose commitments the pool resolves, with their data.
def found (w : World) (t : Lookup) (l : List Inscription) : List (Inscription × Ref) :=
  l.filterMap fun x => (w.find t x).map (x, ·)

end World

structure Env.Quiet (env : Env) (tip : Int64) : Prop where
  getBlockCount : env.getBlockCount = .ok tip
  getBlockHash : ∀ height, (env.getBlockHash height).isOk
  getBlockVerbose : ∀ hash, (env.getBlockVerbose hash).isOk
  getBlockHeader : ∀ hash, (env.getBlockHeader hash).isOk
  parseFiles : ∀ tx, (env.parseFiles tx).isOk
  parseTransaction : ∀ tx, (env.parseTransaction tx).isOk
  getTransactionSignature : ∀ tx, (env.getTransactionSignature tx).isOk
  firstOrCreate : env.firstOrCreate = none
  saveBlocks : env.saveBlocks = none
  saveTransactions : env.saveTransactions = none
  saveFiles : env.saveFiles = none
  updateChain : env.updateChain = none

def Env.reads (env : Env) (tx : TxID) : Bool :=
  (env.parseTransaction tx).isOk && (env.getTransactionSignature tx).isOk

section Faults

variable (f : Faults) (c : Config) (env : Env)

-- Where a round may be interrupted: before it changes the database, after the height was read,
-- after it was recorded, or after the data was saved.
inductive Point
  | begun
  | opened
  | recorded
  | saved

def openDatabase (ws : WorkerService) (db : Database) : Database :=
  match env.getBlockCount, env.firstOrCreate with
  | .ok _, none => (ws.getPresentBlockHeight env db).fst
  | _, _        => db

-- The database that an interrupted round leaves.
def databaseAt (s : State) (point : Point) : Except GoPanic Database :=
  match s.forced, c.netParams with
  | false, some netParams =>
    let ws := newWorkerService f c netParams s.db.das
    match point with
    | .begun    => .ok s.db
    | .opened   => .ok (openDatabase env ws s.db)
    | .recorded => Prod.fst <$> ws.runSync env s.db
    | .saved    => (·.fst.db) <$> doBitcoinSyncWith f c env s
  | _, _ => .ok s.db

def startupWith (db : Database) : Database :=
  if f.cleanUpDB.isSome then db else startup db

end Faults

namespace Synced

inductive Event
  | round (env : Env) (f : Faults)
  -- The node is stopped during a round, and started again.
  | crash (env : Env) (f : Faults) (point : Point) (pool : FilePool) (heap : Heap)
  -- The case of `loop` that receives the result of a round.
  | done
  -- The pool and its data change between the rounds.
  | pool (pool : FilePool) (heap : Heap)

def stepState (w : World) (chain : Chain) (c : Config) (s : State) : Event → Except GoPanic State
  | .round env f => Prod.fst <$> doBitcoinSyncWith f c (w.env chain env) s
  | .crash env f point pool heap => do
    let db ← databaseAt f c (w.env chain env) s point
    return { db := startupWith f db, pool, heap, forced := false }
  | .done           => .ok { s with forced := false }
  | .pool pool heap => .ok { s with pool, heap }

end Synced

-- A synchronization together with the inscriptions that it has passed: those whose commitments the
-- pool resolved when a height was recorded that covers their block.
structure Synced where
  state : State
  passed : List Inscription

namespace Synced

def passes (w : World) (chain : Chain) (c : Config) (s : State) (db : Database) :
    List Inscription :=
  match c.netParams with
  | none => []
  | some netParams =>
    w.inscribed chain (c.present netParams s.db) (c.present netParams db)
      |>.filter fun x => (w.find s.pool.all x).isSome

def step (w : World) (chain : Chain) (c : Config) (s : Synced) (e : Event) :
    Except GoPanic Synced := do
  let state ← stepState w chain c s.state e
  return ⟨state, s.passed ++ passes w chain c s.state state.db⟩

def machine (w : World) (chain : Chain) (c : Config) (pool : FilePool) (heap : Heap) :
    Transition.System Synced Event GoPanic where
  init := ⟨{ db := .empty, pool, heap, forced := false }, []⟩
  step := step w chain c

end Synced
end Sync.Bitcoin
