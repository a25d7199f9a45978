import DomiconExec.Sync.Block
import DomiconExec.Db.DAData

namespace Db

open Sql

-- The current transaction, or `none` after it has been rolled back or committed.
abbrev Tx :=
  Option Database

-- A statement that inserts a row. It fails if the row violates a unique index.
abbrev Insert :=
  Database → Option Database

def insertBlock (r : BlockRow) : Insert :=
  fun d => d.blocks.create BlockRow.key r |>.map fun t => { d with blocks := t }

def insertTransaction (r : TransactionRow) : Insert :=
  fun d => d.transactions.create TransactionRow.key r |>.map fun t => { d with transactions := t }

def insertReceipt (r : ReceiptRow) : Insert :=
  fun d => d.receipts.create ReceiptRow.key r |>.map fun t => { d with receipts := t }

def insertLog (r : LogRow) : Insert :=
  fun d => d.logs.create LogRow.key r |>.map fun t => { d with logs := t }

-- A failed statement rolls the transaction back. On a transaction that has ended all statements fail.
def execute (stmt : Insert) : Tx → Tx × Option Error
  | none => (none, some .txDone)
  | some d =>
    match stmt d with
    | none    => (none, some .uniqueViolation)
    | some d' => (some d', none)

section Batch

variable {α : Type}

-- The loop that adds a batch of rows, which ends with the first failed statement. The row of an
-- element may fail to be built.
def addBatchWith (insert : α → Except GoPanic Insert) :
    List α → Tx → Except GoPanic (Tx × Option Error)
  | [], tx => .ok (tx, none)
  | a :: as, tx => do
    let stmt ← insert a
    match execute stmt tx with
    | (tx, none)     => addBatchWith insert as tx
    | (tx, some err) => return (tx, some err)

def addBatchBlocks : List EthBlock → Tx → Except GoPanic (Tx × Option Error) :=
  addBatchWith fun block => .ok <| insertBlock {
    blockNum := block.number
    blockHash := block.hash.hex
    parentHash := block.parentHash.hex
    receivedAt := .ascii (toString block.time.toNat)
    encodeData := Hex.bytes2Hex block.encoded
  }

def addBatchTransactions (num : Int) :
    List EthTransaction → Tx → Except GoPanic (Tx × Option Error) :=
  addBatchWith fun tx => .ok <| insertTransaction {
    hash := tx.hash.hex
    encoded := Hex.bytes2Hex tx.encoded
    blockNum := num
  }

-- A missing receipt is dereferenced.
def addBatchReceipts (keccak256 : Bytes → Hash) :
    List (Option EthReceipt) → Tx → Except GoPanic (Tx × Option Error) :=
  addBatchWith fun
    | none => .error .nilDereference
    | some rec => .ok <| insertReceipt {
        txHash := rec.txHash.hex
        txType := rec.type.toNat
        status := int64 rec.status
        cumulativeGasUsed := int64 rec.cumulativeGasUsed
        gasUsed := int64 rec.gasUsed
        blockNum := rec.blockNumber
        contractAddress := rec.contractAddress.checksumHex keccak256
      }

-- Only the first topic is stored, in the column that is given by the number of topics.
def logRow (keccak256 : Bytes → Hash) (log : EthLog) : Except GoPanic LogRow :=
  let r : LogRow := {
    txHash := log.txHash.hex
    logIndex := log.index
    address := log.address.checksumHex keccak256
    blockNum := int64 log.blockNumber
    blockHash := log.blockHash.hex
    removed := log.removed
    data := Hex.bytes2Hex log.data
    topic0 := []
    topic1 := []
    topic2 := []
    topic3 := []
  }
  match log.topics with
  | []        => .error .indexOutOfRange
  | [t]       => .ok { r with topic1 := t.hex }
  | [t, _]    => .ok { r with topic2 := t.hex }
  | [t, _, _] => .ok { r with topic3 := t.hex }
  | _         => .ok r

def addBatchLogs (keccak256 : Bytes → Hash) : List EthLog → Tx → Except GoPanic (Tx × Option Error) :=
  addBatchWith fun log => insertLog <$> logRow keccak256 log

end Batch
end Db

namespace Database

open Db Sql

-- The last row is the one with the greatest number.
def getLastBlockNum (d : Database) : Nat :=
  d.syncInfo.max?.getD 0

-- A zero value is left out, so that the database assigns the next number.
def addLastBlockNum (num : Nat) : Insert :=
  fun d =>
    let num := if num = 0 then d.getLastBlockNum + 1 else num
    if num ∈ d.syncInfo then none else some { d with syncInfo := d.syncInfo ++ [num] }

-- A zero value is not updated.
def upDataLastBlocNum (orgNum blockNum : Nat) : Insert :=
  fun d =>
    if blockNum = 0 ∨ blockNum = orgNum ∨ orgNum ∉ d.syncInfo then
      some d
    else if blockNum ∈ d.syncInfo then
      none
    else
      some { d with syncInfo := d.syncInfo.map fun n => if n = orgNum then blockNum else n }

def deleteBlockByNum (blockNum : Nat) (d : Database) : Database :=
  { d with blocks := d.blocks.softDelete fun r => r.blockNum = blockNum }

-- Logs are not cleaned up.
def cleanUpDB (num : Nat) (d : Database) : Database :=
  { d with
    blocks := d.blocks.softDelete fun r => r.blockNum > num
    transactions := d.transactions.softDelete fun r => r.blockNum > num
    receipts := d.receipts.softDelete fun r => r.blockNum > num
    das := d.das.delete fun r => r.blockNum > num
  }

end Database
