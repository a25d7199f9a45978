import DomiconExec.Objects.DA
import DomiconExec.Db.Schema

namespace Db

open Sql

-- The hash function of the texts of addresses is a parameter of all functions that store data.
section Save

variable (keccak256 : Bytes → Hash)

def row (da : DA) : DARow :=
  { DARow.zero with
    sender := da.sender.checksumHex keccak256
    nonce := int64 da.nonce
    index := int64 da.index
    length := int64 da.length
    txHash := da.txHash.hex
    blockNum := int64 da.blockNum
    commitment := Hex.bytes2Hex da.commitment.marshal
    commitmentHash := (bytesToHash da.commitment.marshal).hex
    data := Hex.bytes2Hex da.data
    signData := .join (da.signData.map Hex.bytes2Hex)
    signAddr := .join da.signerAddr
    receiveAt := da.receiveAt.format
  }

-- The method `Int64` of `big.Int` dereferences its receiver.
def nameSpaceInt64 (da : DA) : Except GoPanic Int :=
  match da.nameSpaceID with
  | none    => .error .nilDereference
  | some id => .ok (Int64.ofInt id).toInt

def create (t : Table DARow) (r : DARow) : Table DARow × Option Error :=
  match t.create DARow.key r with
  | none    => (t, some .uniqueViolation)
  | some t' => (t', none)

def saveDACommit (t : Table DARow) (da : DA) (shouldSave : Bool) :
    Except GoPanic (Table DARow × Option Error) := do
  if shouldSave then
    let id ← nameSpaceInt64 da
    let wd := { row keccak256 da with
      proof := Hex.bytes2Hex da.proof
      outOfTime := da.outOfTime.format
      nameSpaceID := id
    }
    return create t wd
  else
    return (t, none)

def collect (dataCollect : Bytes) (da : DA) (parentHash : Hash) : Bytes :=
  dataCollect ++ da.commitment.x.bytes.val ++ da.commitment.y.bytes.val ++ da.sender.val ++
    parentHash.val

def batchRows : Bytes → Hash → List DA → List DARow
  | _, _, [] => []
  | dataCollect, currentParentHash, da :: das =>
    let dataCollect := collect dataCollect da currentParentHash
    let stateHash := bytesToHash dataCollect
    let wda := { row keccak256 da with
      proof := Hex.bytes2Hex da.proof
      parentStateHash := currentParentHash.hex
      stateHash := stateHash.hex
    }
    wda :: batchRows dataCollect stateHash das

-- All rows are created at once, which fails if there are none.
def saveBatchCommitment (t : Table DARow) (das : List DA) (parentHash : Hash) :
    Table DARow × Option Error :=
  match batchRows keccak256 [] parentHash das with
  | [] => (t, some .emptySlice)
  | wdas =>
    match t.createAll DARow.key wdas with
    | none    => (t, some .uniqueViolation)
    | some t' => (t', none)

-- The loop of `AddBatchCommitment`. If a row cannot be created the transaction `t` is rolled back.
def addBatch (t : Table DARow) : Bytes → Hash → List DA → Table DARow →
    Except GoPanic (Table DARow × Option Error)
  | _, _, [], tx => .ok (tx, none)
  | dataCollect, currentParentHash, da :: das, tx => do
    let dataCollect := collect dataCollect da currentParentHash
    let stateHash := bytesToHash dataCollect
    let id ← nameSpaceInt64 da
    let wda := { row keccak256 da with
      parentStateHash := currentParentHash.hex
      stateHash := stateHash.hex
      nameSpaceID := id
    }
    match tx.create DARow.key wda with
    | none    => return (t, some .uniqueViolation)
    | some tx => addBatch t dataCollect stateHash das tx

def addBatchCommitment (t : Table DARow) (das : List DA) (parentHash : Hash) :
    Except GoPanic (Table DARow × Option Error) :=
  addBatch keccak256 t [] parentHash das t

end Save

def assign {α : Type} (s : List α) (x : α × Nat) : Except GoPanic (List α) :=
  if x.snd < s.length then .ok (s.set x.snd x.fst) else .error .indexOutOfRange

def assignAll {α : Type} (n : Nat) (zero : α) (l : List α) : Except GoPanic (List α) :=
  l.zipIdx.foldlM assign (List.replicate n zero)

abbrev SetBytes :=
  Bytes → Digest × Option GoError

-- The data that a row stands for. The slices are as long as the texts they are read from.
def load (setBytes : SetBytes) (r : DARow) : Except GoPanic (Except Error DA) := do
  let (str, err) := Hex.decodeString r.commitment
  if let some err := err then
    return .error (.decodeHex err)
  match setBytes str with
  | (_, some err) => return .error (.setBytes err)
  | (digest, none) =>
    let some parsedTime := GoTime.parse r.receiveAt | return .error .parseTime
    let signData ← assignAll r.signData.length [] (r.signData.split.map Hex.hex2Bytes)
    let signAdd ← assignAll r.signAddr.length [] r.signAddr.split
    return .ok { DA.zero with
      sender := bytesToAddress (Hex.fromHex r.sender)
      nonce := uint64 r.nonce
      index := uint64 r.index
      length := uint64 r.length
      commitment := digest
      data := Hex.hex2Bytes r.data
      proof := Hex.hex2Bytes r.proof
      blockNum := uint64 r.blockNum
      signData := signData
      signerAddr := signAdd
      txHash := bytesToHash (Hex.fromHex r.txHash)
      receiveAt := parsedTime
      nameSpaceID := some r.nameSpaceID
    }

-- The text columns by the names in their tags. The column `f_d_as_key` is never set.
def DARow.column : String → Option (DARow → GoString)
  | "f_sender"            => some sender
  | "f_tx_hash"           => some txHash
  | "f_commitment"        => some commitment
  | "f_commitment_hash"   => some commitmentHash
  | "f_data"              => some data
  | "f_proof"             => some proof
  | "f_d_as_key"          => some fun _ => []
  | "f_sign_data"         => some signData
  | "f_sign_address"      => some signAddr
  | "f_parent_state_hash" => some parentStateHash
  | "f_state_hash"        => some stateHash
  | "f_receive_at"        => some receiveAt
  | "f_out_time"          => some outOfTime
  | _                     => none

-- The first row whose column has a value, or the zero row. There is an error without the column.
def findDA (t : Table DARow) (column : String) (value : GoString) : Except Error DARow :=
  match DARow.column column with
  | none   => .error .noSuchColumn
  | some f => .ok <| (t.rows.find? (f · = value)).getD .zero

def readDA (setBytes : SetBytes) (t : Table DARow) (column : String) (value : GoString) :
    Except GoPanic (Except Error DA) :=
  if t.rows.length = 0 then
    return .error .tableIsEmpty
  else
    match findDA t column value with
    | .error err => return .error err
    | .ok da     => load setBytes da

-- An error of the first `SetBytes` is ignored.
def getDAByCommitment (setBytes : SetBytes) (t : Table DARow) (commitment : Bytes) :
    Except GoPanic (Except Error DA) :=
  readDA setBytes t "commitment" (Hex.bytes2Hex (setBytes commitment).fst.marshal)

def getDAByCommitmentHash (setBytes : SetBytes) (t : Table DARow) (cmHash : Hash) :
    Except GoPanic (Except Error DA) :=
  readDA setBytes t "commitment_hash" cmHash.hex

def getCommitmentByTxHash (setBytes : SetBytes) (t : Table DARow) (txHash : Hash) :
    Except GoPanic (Except Error DA) :=
  readDA setBytes t "f_tx_hash" txHash.hex

-- Only two columns are selected, the others are read as zero values. All errors are ignored.
def getAllDARecords (setBytes : SetBytes) (t : Table DARow) : List DA :=
  t.rows.map fun r =>
    let r := { DARow.zero with txHash := r.txHash, commitment := r.commitment }
    { DA.zero with
      txHash := bytesToHash (Hex.fromHex r.txHash)
      commitment := (setBytes (Hex.decodeString r.commitment).fst).fst
      receiveAt := (GoTime.parse r.receiveAt).getD .zero
    }

-- The row with the greatest nonce. The index is read backwards, so this is the last one.
def maxIDDA (t : Table DARow) : Option DARow :=
  t.rows.foldl (fun da r => if da.all (·.nonce ≤ r.nonce) then some r else da) none

def getMaxIDDAStateHash (t : Table DARow) : GoString :=
  ((maxIDDA t).getD .zero).stateHash

def getMaxIDDANonce (t : Table DARow) : UInt64 :=
  uint64 ((maxIDDA t).getD .zero).nonce
end Db
