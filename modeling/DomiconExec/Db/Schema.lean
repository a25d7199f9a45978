import DomiconExec.Primitives.GoTime
import DomiconExec.Db.Table

namespace Db

-- The errors that the database and the functions that use it return.
inductive Error
  | uniqueViolation
  | emptySlice
  | txDone
  | noSuchColumn
  | recordNotFound
  | tableIsEmpty
  | decodeHex (err : Hex.Error)
  | setBytes (err : GoError)
  | parseTime
deriving DecidableEq

def int64 (n : UInt64) : Int :=
  n.toInt64.toInt

def uint64 (n : Int) : UInt64 :=
  .ofInt n

-- The table model `DA`. Its identifiers are left out.
structure DARow where
  nonce : Int
  sender : GoString
  index : Int
  length : Int
  txHash : GoString
  commitment : GoString
  commitmentHash : GoString
  data : GoString
  proof : GoString
  signData : GoString
  signAddr : GoString
  parentStateHash : GoString
  stateHash : GoString
  blockNum : Int
  receiveAt : GoString
  outOfTime : GoString
  nameSpaceID : Int
deriving DecidableEq

namespace DARow

def zero : DARow where
  nonce := 0
  sender := []
  index := 0
  length := 0
  txHash := []
  commitment := []
  commitmentHash := []
  data := []
  proof := []
  signData := []
  signAddr := []
  parentStateHash := []
  stateHash := []
  blockNum := 0
  receiveAt := []
  outOfTime := []
  nameSpaceID := 0

-- The column of the unique index `uniq_das_tx_hash`.
def key (r : DARow) : Option GoString :=
  some r.txHash

end DARow

-- The other table models. Those of the underlying chain are soft-deleted.
structure BlockRow where
  blockNum : Int
  blockHash : GoString
  parentHash : GoString
  encodeData : GoString
  receivedAt : GoString

structure TransactionRow where
  hash : GoString
  encoded : GoString
  blockNum : Int

structure ReceiptRow where
  txHash : GoString
  txType : Int
  status : Int
  cumulativeGasUsed : Int
  gasUsed : Int
  blockNum : Int
  contractAddress : GoString

structure LogRow where
  txHash : GoString
  logIndex : Int
  address : GoString
  blockNum : Int
  blockHash : GoString
  removed : Bool
  data : GoString
  topic0 : GoString
  topic1 : GoString
  topic2 : GoString
  topic3 : GoString

structure BaseChainRow where
  net : String
  magicNumber : String
  currentHeight : UInt64
  createAt : Int

def BlockRow.key (r : BlockRow) : Option Int :=
  some r.blockNum

def TransactionRow.key (r : TransactionRow) : Option GoString :=
  some r.hash

def ReceiptRow.key (r : ReceiptRow) : Option GoString :=
  some r.txHash

-- There is no unique column besides the identifier.
def LogRow.key (_ : LogRow) : Option GoString :=
  none

end Db

open Db Sql in
structure Database where
  blocks : Table BlockRow
  transactions : Table TransactionRow
  receipts : Table ReceiptRow
  logs : Table LogRow
  das : Table DARow
  -- The column `LastBlockNum` of the table `SyncInfo`.
  syncInfo : List Nat
  baseChain : List BaseChainRow

def Database.empty : Database where
  blocks := []
  transactions := []
  receipts := []
  logs := []
  das := []
  syncInfo := []
  baseChain := []
