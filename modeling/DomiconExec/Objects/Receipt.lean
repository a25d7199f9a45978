import DomiconExec.Objects.Transaction
import DomiconExec.Rlp.Session

namespace Types

open Rlp

structure Log where
  address : Address
  topics : List Hash
  data : Bytes
deriving DecidableEq

namespace Log

def zero : Log where
  address := .fill 0
  topics := []
  data := []

def encodeRLP (log : Log) (w : EncBuffer) : EncBuffer :=
  let (w, tmp0) := w.list
  let w := w.writeBytes log.address.val
  let (w, tmp1) := w.list
  let w := log.topics.foldl (fun w tmp2 => w.writeBytes tmp2.val) w
  let w := w.listEnd tmp1
  let w := w.writeBytes log.data
  w.listEnd tmp0

def fields : List (Rlp.Field Log) := [
  .of "Address" Address.info address fun l x => { l with address := x },
  .of "Topics" (.slice Hash.info) topics fun l x => { l with topics := x },
  .of "Data" .byteSlice data fun l x => { l with data := x }
]

-- The type of pointers to logs, which are never nil. There is a method for writing, but not for reading.
def info : TypeInfo Log where
  typ := "*types.Log"
  zero
  writer log w := .ok (log.encodeRLP w)
  decoder := decodeStruct "types.Log" fields

end Log

abbrev Bloom :=
  ByteArr 256

namespace Bloom

section Hash

variable (keccak256 : Bytes → Hash)

-- The bytes (index-value pairs) to set for the given data. Only the first six bytes of the hash are read.
def bloomValues (data : Bytes) : List (Nat × UInt8) :=
  let hashbuf := (keccak256 data).val
  [0, 2, 4].map fun i =>
    let hi := hashbuf.getD i 0
    let lo := hashbuf.getD (i + 1) 0
    (256 - ((hi.toNat * 256 + lo.toNat) &&& 0x7FF) >>> 3 - 1, 1 <<< (lo &&& 0x7))

def setBits (b : Bloom) (i : Nat) (v : UInt8) : Bloom :=
  ⟨b.val.set i (b.val.getD i 0 ||| v), by rw [List.length_set, b.property]⟩

def add (b : Bloom) (d : Bytes) : Bloom :=
  (bloomValues keccak256 d).foldl (fun b x => b.setBits x.fst x.snd) b

def test (b : Bloom) (topic : Bytes) : Bool :=
  (bloomValues keccak256 topic).all fun x => x.snd = x.snd &&& b.val.getD x.fst 0

end Hash

end Bloom

structure Receipt where
  type : UInt8
  postState : Bytes
  status : UInt64
  cumulativeGasUsed : UInt64
  bloom : Bloom
  logs : List Log
  depositNonce : Option UInt64
  depositReceiptVersion : Option UInt64
  l1GasPrice : Option Int
  l1GasUsed : Option Int
  l1Fee : Option Int
  feeScalar : Option GoString
deriving DecidableEq

-- A bloom filter out of the logs of some receipts.
def createBloom (keccak256 : Bytes → Hash) (receipts : List Receipt) : Bloom :=
  receipts.foldl (fun bin receipt =>
    receipt.logs.foldl (fun bin log =>
      log.topics.foldl (fun bin b => bin.add keccak256 b.val) (bin.add keccak256 log.address.val))
      bin) (.fill 0)

inductive ReceiptError
  | rlp (err : DecodeError)
  | shortTypedReceipt
  | txTypeNotSupported
  | invalidStatus (status : Bytes)
  | feeScalar
deriving DecidableEq

structure ReceiptRLP where
  postStateOrStatus : Bytes
  cumulativeGasUsed : UInt64
  bloom : Bloom
  logs : List Log
deriving DecidableEq

namespace ReceiptRLP

def zero : ReceiptRLP where
  postStateOrStatus := []
  cumulativeGasUsed := 0
  bloom := .fill 0
  logs := []

def info : TypeInfo ReceiptRLP :=
  .struct "types.receiptRLP" zero [
    .of "PostStateOrStatus" .byteSlice postStateOrStatus fun r x => { r with postStateOrStatus := x },
    .of "CumulativeGasUsed" .uint64 cumulativeGasUsed fun r x => { r with cumulativeGasUsed := x },
    .of "Bloom" (.byteArray "types.Bloom" 256) bloom fun r x => { r with bloom := x },
    .of "Logs" (.slice Log.info) logs fun r x => { r with logs := x }
  ]

end ReceiptRLP

namespace Receipt

def zero : Receipt where
  type := 0
  postState := []
  status := 0
  cumulativeGasUsed := 0
  bloom := .fill 0
  logs := []
  depositNonce := none
  depositReceiptVersion := none
  l1GasPrice := none
  l1GasUsed := none
  l1Fee := none
  feeScalar := none

def statusEncoding (r : Receipt) : Bytes :=
  if r.postState.length = 0 then
    if r.status = 0 then [] else [0x01]
  else
    r.postState

def setStatus (r : Receipt) (postStateOrStatus : Bytes) : Except ReceiptError Receipt :=
  if postStateOrStatus = [0x01] then
    .ok { r with status := 1 }
  else if postStateOrStatus = [] then
    .ok { r with status := 0 }
  else if postStateOrStatus.length = 32 then
    .ok { r with postState := postStateOrStatus }
  else
    .error (.invalidStatus postStateOrStatus)

def setFromRLP (r : Receipt) (data : ReceiptRLP) : Except ReceiptError Receipt :=
  { r with
    cumulativeGasUsed := data.cumulativeGasUsed
    bloom := data.bloom
    logs := data.logs
  }.setStatus data.postStateOrStatus

def consensusData (r : Receipt) : ReceiptRLP where
  postStateOrStatus := r.statusEncoding
  cumulativeGasUsed := r.cumulativeGasUsed
  bloom := r.bloom
  logs := r.logs

def encodeTyped (r : Receipt) : Except EncodeError Bytes := do
  let b ← encodeToBytes ReceiptRLP.info r.consensusData
  return r.type :: b

def marshalBinary (r : Receipt) : Except EncodeError Bytes :=
  if r.type = 0x00 then
    encodeToBytes ReceiptRLP.info r.consensusData
  else
    r.encodeTyped

def decodeTyped (r : Receipt) (b : Bytes) : Except ReceiptError Receipt :=
  match b with
  | []            => .error .shortTypedReceipt
  | [_]           => .error .shortTypedReceipt
  | type :: input =>
    if type = 0x02 ∨ type = 0x01 ∨ type = 0x03 then
      match decodeBytes ReceiptRLP.info input .zero with
      | .error err => .error (.rlp err)
      | .ok data   => { r with type }.setFromRLP data
    else
      .error .txTypeNotSupported

def unmarshalBinary (r : Receipt) (b : Bytes) : Except ReceiptError Receipt :=
  if b.head?.any (· > 0x7F) then
    match decodeBytes ReceiptRLP.info b .zero with
    | .error err => .error (.rlp err)
    | .ok data   => { r with type := 0x00 }.setFromRLP data
  else
    r.decodeTyped b

def encodeIndex (r : Receipt) : Bytes :=
  let data := (encodeToBytes ReceiptRLP.info r.consensusData).toOption.getD []
  if r.type = 0x00 then
    data
  else if r.type = 0x01 ∨ r.type = 0x02 ∨ r.type = 0x03 then
    r.type :: data
  else
    [r.type]

end Receipt

structure StoredReceiptRLP where
  postStateOrStatus : Bytes
  cumulativeGasUsed : UInt64
  logs : List Log
  depositNonce : Option UInt64
  depositReceiptVersion : Option UInt64
deriving DecidableEq

namespace StoredReceiptRLP

def zero : StoredReceiptRLP where
  postStateOrStatus := []
  cumulativeGasUsed := 0
  logs := []
  depositNonce := none
  depositReceiptVersion := none

def fields : List (Rlp.Field StoredReceiptRLP) := [
  .of "PostStateOrStatus" .byteSlice postStateOrStatus fun r x => { r with postStateOrStatus := x },
  .of "CumulativeGasUsed" .uint64 cumulativeGasUsed fun r x => { r with cumulativeGasUsed := x },
  .of "Logs" (.slice Log.info) logs fun r x => { r with logs := x }
]

def optional : List (OptionalField StoredReceiptRLP) := [
  .of "DepositNonce" (.ptr .string .uint64) depositNonce fun r x => { r with depositNonce := x },
  .of "DepositReceiptVersion" (.ptr .string .uint64) depositReceiptVersion
    fun r x => { r with depositReceiptVersion := x }
]

def info : TypeInfo StoredReceiptRLP :=
  .optionalStruct "types.storedReceiptRLP" zero fields optional

end StoredReceiptRLP

structure LegacyRlpStorageLog where
  address : Address
  topics : List Hash
  data : Bytes
  blockNumber : UInt64
  txHash : Hash
  txIndex : UInt64
  blockHash : Hash
  index : UInt64
deriving DecidableEq

namespace LegacyRlpStorageLog

def zero : LegacyRlpStorageLog where
  address := .fill 0
  topics := []
  data := []
  blockNumber := 0
  txHash := .fill 0
  txIndex := 0
  blockHash := .fill 0
  index := 0

def info : TypeInfo LegacyRlpStorageLog :=
  .struct "types.legacyRlpStorageLog" zero [
    .of "Address" Address.info address fun l x => { l with address := x },
    .of "Topics" (.slice Hash.info) topics fun l x => { l with topics := x },
    .of "Data" .byteSlice data fun l x => { l with data := x },
    .of "BlockNumber" .uint64 blockNumber fun l x => { l with blockNumber := x },
    .of "TxHash" Hash.info txHash fun l x => { l with txHash := x },
    .of "TxIndex" .uint txIndex fun l x => { l with txIndex := x },
    .of "BlockHash" Hash.info blockHash fun l x => { l with blockHash := x },
    .of "Index" .uint index fun l x => { l with index := x }
  ]

end LegacyRlpStorageLog

-- The whole value is read, since there are two formats to try.
def LogForStorage.decodeRLP : Reader Log := do
  let blob ← Stream.raw
  match decodeBytes Log.info blob .zero with
  | .ok dec  => return dec
  | .error _ =>
    match decodeBytes LegacyRlpStorageLog.info blob .zero with
    | .ok dec    => return ⟨dec.address, dec.topics, dec.data⟩
    | .error err => throw err

def LogForStorage.info : TypeInfo Log where
  typ := "*types.LogForStorage"
  zero := .zero
  writer log w := .ok (log.encodeRLP w)
  decoder _ := decodeRLP

structure LegacyOptimismStoredReceiptRLP where
  postStateOrStatus : Bytes
  cumulativeGasUsed : UInt64
  logs : List Log
  l1GasUsed : Option Int
  l1GasPrice : Option Int
  l1Fee : Option Int
  feeScalar : GoString
deriving DecidableEq

namespace LegacyOptimismStoredReceiptRLP

def zero : LegacyOptimismStoredReceiptRLP where
  postStateOrStatus := []
  cumulativeGasUsed := 0
  logs := []
  l1GasUsed := none
  l1GasPrice := none
  l1Fee := none
  feeScalar := []

def info : TypeInfo LegacyOptimismStoredReceiptRLP :=
  .struct "types.LegacyOptimismStoredReceiptRLP" zero [
    .of "PostStateOrStatus" .byteSlice postStateOrStatus fun r x => { r with postStateOrStatus := x },
    .of "CumulativeGasUsed" .uint64 cumulativeGasUsed fun r x => { r with cumulativeGasUsed := x },
    .of "Logs" (.slice LogForStorage.info) logs fun r x => { r with logs := x },
    .of "L1GasUsed" .bigIntPtr l1GasUsed fun r x => { r with l1GasUsed := x },
    .of "L1GasPrice" .bigIntPtr l1GasPrice fun r x => { r with l1GasPrice := x },
    .of "L1Fee" .bigIntPtr l1Fee fun r x => { r with l1Fee := x },
    .of "FeeScalar" .string feeScalar fun r x => { r with feeScalar := x }
  ]

end LegacyOptimismStoredReceiptRLP

namespace ReceiptForStorage

-- The optional fields. A version without a nonce is left out.
def writeDeposit (r : Receipt) (w : EncBuffer) : EncBuffer :=
  match r.depositNonce, r.depositReceiptVersion with
  | none, _                  => w
  | some nonce, none         => w.writeUint64 nonce
  | some nonce, some version => (w.writeUint64 nonce).writeUint64 version

def encodeRLP (r : Receipt) (w : EncBuffer) : EncBuffer :=
  let (w, outerList) := w.list
  let w := w.writeBytes r.statusEncoding
  let w := w.writeUint64 r.cumulativeGasUsed
  let (w, logList) := w.list
  let w := r.logs.foldl (fun w log => log.encodeRLP w) w
  let w := w.listEnd logList
  let w := writeDeposit r w
  w.listEnd outerList

section Decode

-- The function that parses the text of a number is only known by what it accepts.
variable (keccak256 : Bytes → Hash) (isFloat : GoString → Bool)

def decodeStoredReceiptRLP (r : Receipt) (blob : Bytes) : Except ReceiptError Receipt := do
  let stored ← (Rlp.decodeBytes StoredReceiptRLP.info blob .zero).mapError .rlp
  let r ← r.setStatus stored.postStateOrStatus
  let r := { r with cumulativeGasUsed := stored.cumulativeGasUsed, logs := stored.logs }
  let r := { r with bloom := createBloom keccak256 [r] }
  match stored.depositNonce with
  | none   => return r
  | some _ =>
    return { r with
      depositNonce := stored.depositNonce
      depositReceiptVersion := stored.depositReceiptVersion
    }

def decodeLegacyOptimismReceiptRLP (r : Receipt) (blob : Bytes) : Except ReceiptError Receipt := do
  let stored ← (Rlp.decodeBytes LegacyOptimismStoredReceiptRLP.info blob .zero).mapError .rlp
  let r ← r.setStatus stored.postStateOrStatus
  let r := { r with cumulativeGasUsed := stored.cumulativeGasUsed, logs := stored.logs }
  let r := { r with bloom := createBloom keccak256 [r] }
  if stored.feeScalar ≠ [] ∧ ¬isFloat stored.feeScalar then
    throw .feeScalar
  return { r with
    l1GasUsed := stored.l1GasUsed
    l1GasPrice := stored.l1GasPrice
    l1Fee := stored.l1Fee
    feeScalar := some stored.feeScalar
  }

def decodeRLP (r : Receipt) : EStateM ReceiptError Stream Receipt := do
  let blob ← Stream.raw.adaptExcept .rlp
  match decodeStoredReceiptRLP keccak256 r blob with
  | .ok r    => return r
  | .error _ =>
    match decodeLegacyOptimismReceiptRLP keccak256 isFloat r blob with
    | .ok r      => return r
    | .error err => throw err

def decodeBytes (r : Receipt) (b : Bytes) : Except ReceiptError Receipt :=
  match decodeRLP keccak256 isFloat r (.reset b b.length) with
  | .error err _ => .error err
  | .ok r s      => if s.r.length > 0 then .error (.rlp .moreThanOneValue) else .ok r

end Decode

def encodeToBytes (r : Receipt) : Bytes :=
  (encodeRLP r .empty).makeBytes

end ReceiptForStorage
end Types
