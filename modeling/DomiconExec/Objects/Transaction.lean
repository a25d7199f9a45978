import DomiconExec.Rlp.Raw
import DomiconExec.Rlp.TypeInfo

open Rlp

abbrev UInt256 :=
  BitVec 256

section Types

def Address.info : TypeInfo Address :=
  .byteArray "common.Address" 20

-- An address that may be missing. The empty string is read as none.
def Address.nilInfo : TypeInfo (Option Address) :=
  .nilPtr .string Address.info

def Hash.info : TypeInfo Hash :=
  .byteArray "common.Hash" 32

structure AccessTuple where
  address : Address
  storageKeys : List Hash
deriving DecidableEq

def AccessTuple.info : TypeInfo AccessTuple :=
  .struct "types.AccessTuple" ⟨.fill 0, []⟩ [
    .of "Address" Address.info address fun t x => { t with address := x },
    .of "StorageKeys" (.slice Hash.info) storageKeys fun t x => { t with storageKeys := x }
  ]

abbrev AccessList :=
  List AccessTuple

def AccessList.info : TypeInfo AccessList :=
  .namedSlice "types.AccessList" AccessTuple.info

end Types

structure LegacyTx where
  nonce : UInt64
  gasPrice : Option Int
  gas : UInt64
  toAddr : Option Address
  value : Option Int
  data : Bytes
  v : Option Int
  r : Option Int
  s : Option Int
deriving DecidableEq

namespace LegacyTx

def zero : LegacyTx where
  nonce := 0
  gasPrice := none
  gas := 0
  toAddr := none
  value := none
  data := []
  v := none
  r := none
  s := none

def info : TypeInfo LegacyTx :=
  .struct "types.LegacyTx" zero [
    .of "Nonce" .uint64 nonce fun tx x => { tx with nonce := x },
    .of "GasPrice" .bigIntPtr gasPrice fun tx x => { tx with gasPrice := x },
    .of "Gas" .uint64 gas fun tx x => { tx with gas := x },
    .of "To" Address.nilInfo toAddr fun tx x => { tx with toAddr := x },
    .of "Value" .bigIntPtr value fun tx x => { tx with value := x },
    .of "Data" .byteSlice data fun tx x => { tx with data := x },
    .of "V" .bigIntPtr v fun tx x => { tx with v := x },
    .of "R" .bigIntPtr r fun tx x => { tx with r := x },
    .of "S" .bigIntPtr s fun tx x => { tx with s := x }
  ]

end LegacyTx

structure AccessListTx where
  chainID : Option Int
  nonce : UInt64
  gasPrice : Option Int
  gas : UInt64
  toAddr : Option Address
  value : Option Int
  data : Bytes
  accessList : AccessList
  v : Option Int
  r : Option Int
  s : Option Int
deriving DecidableEq

namespace AccessListTx

def zero : AccessListTx where
  chainID := none
  nonce := 0
  gasPrice := none
  gas := 0
  toAddr := none
  value := none
  data := []
  accessList := []
  v := none
  r := none
  s := none

def info : TypeInfo AccessListTx :=
  .struct "types.AccessListTx" zero [
    .of "ChainID" .bigIntPtr chainID fun tx x => { tx with chainID := x },
    .of "Nonce" .uint64 nonce fun tx x => { tx with nonce := x },
    .of "GasPrice" .bigIntPtr gasPrice fun tx x => { tx with gasPrice := x },
    .of "Gas" .uint64 gas fun tx x => { tx with gas := x },
    .of "To" Address.nilInfo toAddr fun tx x => { tx with toAddr := x },
    .of "Value" .bigIntPtr value fun tx x => { tx with value := x },
    .of "Data" .byteSlice data fun tx x => { tx with data := x },
    .of "AccessList" AccessList.info accessList fun tx x => { tx with accessList := x },
    .of "V" .bigIntPtr v fun tx x => { tx with v := x },
    .of "R" .bigIntPtr r fun tx x => { tx with r := x },
    .of "S" .bigIntPtr s fun tx x => { tx with s := x }
  ]

end AccessListTx

structure DynamicFeeTx where
  chainID : Option Int
  nonce : UInt64
  gasTipCap : Option Int
  gasFeeCap : Option Int
  gas : UInt64
  toAddr : Option Address
  value : Option Int
  data : Bytes
  accessList : AccessList
  v : Option Int
  r : Option Int
  s : Option Int
deriving DecidableEq

namespace DynamicFeeTx

def zero : DynamicFeeTx where
  chainID := none
  nonce := 0
  gasTipCap := none
  gasFeeCap := none
  gas := 0
  toAddr := none
  value := none
  data := []
  accessList := []
  v := none
  r := none
  s := none

def info : TypeInfo DynamicFeeTx :=
  .struct "types.DynamicFeeTx" zero [
    .of "ChainID" .bigIntPtr chainID fun tx x => { tx with chainID := x },
    .of "Nonce" .uint64 nonce fun tx x => { tx with nonce := x },
    .of "GasTipCap" .bigIntPtr gasTipCap fun tx x => { tx with gasTipCap := x },
    .of "GasFeeCap" .bigIntPtr gasFeeCap fun tx x => { tx with gasFeeCap := x },
    .of "Gas" .uint64 gas fun tx x => { tx with gas := x },
    .of "To" Address.nilInfo toAddr fun tx x => { tx with toAddr := x },
    .of "Value" .bigIntPtr value fun tx x => { tx with value := x },
    .of "Data" .byteSlice data fun tx x => { tx with data := x },
    .of "AccessList" AccessList.info accessList fun tx x => { tx with accessList := x },
    .of "V" .bigIntPtr v fun tx x => { tx with v := x },
    .of "R" .bigIntPtr r fun tx x => { tx with r := x },
    .of "S" .bigIntPtr s fun tx x => { tx with s := x }
  ]

end DynamicFeeTx

abbrev Blob :=
  ByteArr 131072

abbrev Commitment :=
  ByteArr 48

abbrev Proof :=
  ByteArr 48

structure BlobTxSidecar where
  blobs : List Blob
  commitments : List Commitment
  proofs : List Proof
deriving DecidableEq

structure BlobTx where
  chainID : Option UInt256
  nonce : UInt64
  gasTipCap : Option UInt256
  gasFeeCap : Option UInt256
  gas : UInt64
  toAddr : Address
  value : Option UInt256
  data : Bytes
  accessList : AccessList
  blobFeeCap : Option UInt256
  blobHashes : List Hash
  -- This field is ignored by the encoder and by the decoder.
  sidecar : Option BlobTxSidecar
  v : Option UInt256
  r : Option UInt256
  s : Option UInt256
deriving DecidableEq

-- The form in which blobs are encoded with their transaction. The pointer to it is never nil.
structure BlobTxWithBlobs where
  blobTx : BlobTx
  blobs : List Blob
  commitments : List Commitment
  proofs : List Proof
deriving DecidableEq

namespace BlobTx

def zero : BlobTx where
  chainID := none
  nonce := 0
  gasTipCap := none
  gasFeeCap := none
  gas := 0
  toAddr := .fill 0
  value := none
  data := []
  accessList := []
  blobFeeCap := none
  blobHashes := []
  sidecar := none
  v := none
  r := none
  s := none

def info : TypeInfo BlobTx :=
  .struct "types.BlobTx" zero [
    .of "ChainID" .u256IntPtr chainID fun tx x => { tx with chainID := x },
    .of "Nonce" .uint64 nonce fun tx x => { tx with nonce := x },
    .of "GasTipCap" .u256IntPtr gasTipCap fun tx x => { tx with gasTipCap := x },
    .of "GasFeeCap" .u256IntPtr gasFeeCap fun tx x => { tx with gasFeeCap := x },
    .of "Gas" .uint64 gas fun tx x => { tx with gas := x },
    .of "To" Address.info toAddr fun tx x => { tx with toAddr := x },
    .of "Value" .u256IntPtr value fun tx x => { tx with value := x },
    .of "Data" .byteSlice data fun tx x => { tx with data := x },
    .of "AccessList" AccessList.info accessList fun tx x => { tx with accessList := x },
    .of "BlobFeeCap" .u256IntPtr blobFeeCap fun tx x => { tx with blobFeeCap := x },
    .of "BlobHashes" (.slice Hash.info) blobHashes fun tx x => { tx with blobHashes := x },
    .of "V" .u256IntPtr v fun tx x => { tx with v := x },
    .of "R" .u256IntPtr r fun tx x => { tx with r := x },
    .of "S" .u256IntPtr s fun tx x => { tx with s := x }
  ]

end BlobTx

namespace BlobTxWithBlobs

def zero : BlobTxWithBlobs where
  blobTx := .zero
  blobs := []
  commitments := []
  proofs := []

def info : TypeInfo BlobTxWithBlobs :=
  .struct "types.blobTxWithBlobs" zero [
    .of "BlobTx" BlobTx.info blobTx fun tx x => { tx with blobTx := x },
    .of "Blobs" (.slice (.byteArray "kzg4844.Blob" 131072)) blobs fun tx x => { tx with blobs := x },
    .of "Commitments" (.slice (.byteArray "kzg4844.Commitment" 48)) commitments
      fun tx x => { tx with commitments := x },
    .of "Proofs" (.slice (.byteArray "kzg4844.Proof" 48)) proofs fun tx x => { tx with proofs := x }
  ]

end BlobTxWithBlobs

namespace BlobTx

def encode (tx : BlobTx) : Except EncodeError Bytes :=
  match tx.sidecar with
  | none         => encodeToBytes info tx
  | some sidecar => encodeToBytes BlobTxWithBlobs.info {
      blobTx := tx
      blobs := sidecar.blobs
      commitments := sidecar.commitments
      proofs := sidecar.proofs
    }

-- There are two formats. The first element of the list is a list itself if there are blobs.
def decode (input : Bytes) : Except DecodeError BlobTx := do
  let (outerList, _) ← Raw.splitList input
  let (firstElemKind, _, _) ← Raw.split outerList
  if firstElemKind ≠ .list then
    decodeBytes info input zero
  else
    let inner ← decodeBytes BlobTxWithBlobs.info input .zero
    return { inner.blobTx with sidecar := some ⟨inner.blobs, inner.commitments, inner.proofs⟩ }

end BlobTx

structure SubmitTx where
  sourceHash : Hash
  fromAddr : Address
  toAddr : Option Address
  value : Option Int
  gas : UInt64
  isSystemTransaction : Bool
  data : Bytes
deriving DecidableEq

namespace SubmitTx

def zero : SubmitTx where
  sourceHash := .zero
  fromAddr := .fill 0
  toAddr := none
  value := none
  gas := 0
  isSystemTransaction := false
  data := []

def info : TypeInfo SubmitTx :=
  .struct "types.SubmitTx" zero [
    .of "SourceHash" Hash.info sourceHash fun tx x => { tx with sourceHash := x },
    .of "From" Address.info fromAddr fun tx x => { tx with fromAddr := x },
    .of "To" Address.nilInfo toAddr fun tx x => { tx with toAddr := x },
    .of "Value" .bigIntPtr value fun tx x => { tx with value := x },
    .of "Gas" .uint64 gas fun tx x => { tx with gas := x },
    .of "IsSystemTransaction" .bool isSystemTransaction
      fun tx x => { tx with isSystemTransaction := x },
    .of "Data" .byteSlice data fun tx x => { tx with data := x }
  ]

end SubmitTx

-- The data of a transaction with a type byte. The methods `encode` and `decode` of legacy
-- transactions panic.
inductive TypedTx
  | accessList (tx : AccessListTx)
  | dynamicFee (tx : DynamicFeeTx)
  | blob (tx : BlobTx)
  | submit (tx : SubmitTx)
deriving DecidableEq

inductive TxData
  | legacy (tx : LegacyTx)
  | typed (tx : TypedTx)
deriving DecidableEq

inductive TxError
  | rlp (err : DecodeError)
  | shortTypedTx
  | txTypeNotSupported
  | bufferSize (size : Nat)
deriving DecidableEq

namespace TypedTx

def txType : TypedTx → UInt8
  | accessList _ => 0x01
  | dynamicFee _ => 0x02
  | blob _       => 0x03
  | submit _     => 0x7D

def encode : TypedTx → Except EncodeError Bytes
  | accessList tx => encodeToBytes AccessListTx.info tx
  | dynamicFee tx => encodeToBytes DynamicFeeTx.info tx
  | blob tx       => tx.encode
  | submit tx     => encodeToBytes SubmitTx.info tx

-- The transaction that is decoded into is chosen by the type byte.
def decode (type : UInt8) (input : Bytes) : Option (Except DecodeError TypedTx) :=
  if type = 0x01 then
    some <| (decodeBytes AccessListTx.info input .zero).map accessList
  else if type = 0x02 then
    some <| (decodeBytes DynamicFeeTx.info input .zero).map dynamicFee
  else if type = 0x03 then
    some <| (BlobTx.decode input).map blob
  else if type = 0x7D then
    some <| (decodeBytes SubmitTx.info input .zero).map submit
  else
    none

end TypedTx

def TxData.txType : TxData → UInt8
  | legacy _ => 0x00
  | typed tx => tx.txType

-- A transaction and the cache for its size. The other caches and the time are not set from the input.
structure Transaction where
  inner : TxData
  size : Option Nat
deriving DecidableEq

namespace Transaction

def setDecoded (inner : TxData) (size : Nat) : Transaction where
  inner
  size := if size > 0 then some size else none

def encodeTyped (inner : TypedTx) : Except EncodeError Bytes := do
  let b ← inner.encode
  return inner.txType :: b

def marshalBinary (tx : Transaction) : Except EncodeError Bytes :=
  match tx.inner with
  | .legacy inner => encodeToBytes LegacyTx.info inner
  | .typed inner  => encodeTyped inner

-- Typed transactions are wrapped in a string.
def encodeRLP (tx : Transaction) : Except EncodeError Bytes :=
  match tx.inner with
  | .legacy inner => encodeToBytes LegacyTx.info inner
  | .typed inner  => do
    let b ← encodeTyped inner
    encodeToBytes .byteSlice b

def decodeTyped (b : Bytes) : Except TxError TypedTx :=
  match b with
  | []            => .error .shortTypedTx
  | [_]           => .error .shortTypedTx
  | type :: input =>
    match TypedTx.decode type input with
    | none              => .error .txTypeNotSupported
    | some (.error err) => .error (.rlp err)
    | some (.ok inner)  => .ok inner

def unmarshalBinary (b : Bytes) : Except TxError Transaction :=
  if b.head?.any (· > 0x7F) then
    match decodeBytes LegacyTx.info b .zero with
    | .error err => .error (.rlp err)
    | .ok data   => .ok <| setDecoded (.legacy data) b.length
  else
    match decodeTyped b with
    | .error err => .error err
    | .ok inner  => .ok <| setDecoded (.typed inner) b.length

def decodeRLP : EStateM TxError Stream Transaction := do
  let (kind, size) ← Stream.getKind.adaptExcept .rlp
  match kind with
  | .list =>
    let inner ← (Stream.decode LegacyTx.info .zero).adaptExcept .rlp
    return setDecoded (.legacy inner) (Raw.listSize size)
  | .byte   => throw .shortTypedTx
  | .string =>
    if size ≥ 2 ^ 63 then
      throw <| .bufferSize size
    let b ← (Stream.readBytes size).adaptExcept .rlp
    match decodeTyped b with
    | .error err => throw err
    | .ok inner  => return setDecoded (.typed inner) size

end Transaction

-- Numbers that are missing become zero in a copy.
section Copy

def LegacyTx.copy (tx : LegacyTx) : LegacyTx where
  nonce := tx.nonce
  gasPrice := some (tx.gasPrice.getD 0)
  gas := tx.gas
  toAddr := tx.toAddr
  value := some (tx.value.getD 0)
  data := tx.data
  v := some (tx.v.getD 0)
  r := some (tx.r.getD 0)
  s := some (tx.s.getD 0)

def AccessListTx.copy (tx : AccessListTx) : AccessListTx where
  chainID := some (tx.chainID.getD 0)
  nonce := tx.nonce
  gasPrice := some (tx.gasPrice.getD 0)
  gas := tx.gas
  toAddr := tx.toAddr
  value := some (tx.value.getD 0)
  data := tx.data
  accessList := tx.accessList
  v := some (tx.v.getD 0)
  r := some (tx.r.getD 0)
  s := some (tx.s.getD 0)

def DynamicFeeTx.copy (tx : DynamicFeeTx) : DynamicFeeTx where
  chainID := some (tx.chainID.getD 0)
  nonce := tx.nonce
  gasTipCap := some (tx.gasTipCap.getD 0)
  gasFeeCap := some (tx.gasFeeCap.getD 0)
  gas := tx.gas
  toAddr := tx.toAddr
  value := some (tx.value.getD 0)
  data := tx.data
  accessList := tx.accessList
  v := some (tx.v.getD 0)
  r := some (tx.r.getD 0)
  s := some (tx.s.getD 0)

def BlobTx.copy (tx : BlobTx) : BlobTx where
  chainID := some (tx.chainID.getD 0)
  nonce := tx.nonce
  gasTipCap := some (tx.gasTipCap.getD 0)
  gasFeeCap := some (tx.gasFeeCap.getD 0)
  gas := tx.gas
  toAddr := tx.toAddr
  value := some (tx.value.getD 0)
  data := tx.data
  accessList := tx.accessList
  blobFeeCap := some (tx.blobFeeCap.getD 0)
  blobHashes := tx.blobHashes
  sidecar := tx.sidecar
  v := some (tx.v.getD 0)
  r := some (tx.r.getD 0)
  s := some (tx.s.getD 0)

def SubmitTx.copy (tx : SubmitTx) : SubmitTx where
  sourceHash := tx.sourceHash
  fromAddr := tx.fromAddr
  toAddr := tx.toAddr
  value := some (tx.value.getD 0)
  gas := tx.gas
  isSystemTransaction := tx.isSystemTransaction
  data := tx.data

def TypedTx.copy : TypedTx → TypedTx
  | accessList tx => .accessList tx.copy
  | dynamicFee tx => .dynamicFee tx.copy
  | blob tx       => .blob tx.copy
  | submit tx     => .submit tx.copy

def TxData.copy : TxData → TxData
  | legacy tx => .legacy tx.copy
  | typed tx  => .typed tx.copy

end Copy

-- The encoded size of the elements that a sidecar adds to its transaction.
def BlobTxSidecar.encodedSize (sc : BlobTxSidecar) : Nat :=
  let blobs := sc.blobs.foldl (fun size b => size + Raw.bytesSize b.val) 0
  let commitments := sc.commitments.foldl (fun size c => size + Raw.bytesSize c.val) 0
  let proofs := sc.proofs.foldl (fun size p => size + Raw.bytesSize p.val) 0
  Raw.listSize blobs + Raw.listSize commitments + Raw.listSize proofs

-- What the reflection of the encoder writes for the data, with neither a type byte nor a sidecar.
def TxData.encodeInner : TxData → Except EncodeError Bytes
  | legacy tx              => encodeToBytes LegacyTx.info tx
  | typed (.accessList tx) => encodeToBytes AccessListTx.info tx
  | typed (.dynamicFee tx) => encodeToBytes DynamicFeeTx.info tx
  | typed (.blob tx)       => encodeToBytes BlobTx.info tx
  | typed (.submit tx)     => encodeToBytes SubmitTx.info tx

namespace Transaction

def new (inner : TxData) : Transaction :=
  setDecoded inner.copy 0

def blobTxSidecar (tx : Transaction) : Option BlobTxSidecar :=
  match tx.inner with
  | .typed (.blob inner) => inner.sidecar
  | _                    => none

-- The method `Size`. Nothing is counted if the encoder fails.
def getSize (tx : Transaction) : Nat × Transaction :=
  match tx.size with
  | some size => (size, tx)
  | none      =>
    let size :=
      match tx.inner.encodeInner with
      | .ok b    => b.length
      | .error _ => 0
    let size :=
      match tx.blobTxSidecar with
      | some sc => size + Raw.listSize sc.encodedSize
      | none    => size
    let size := if tx.inner.txType ≠ 0x00 then size + 1 else size
    (size, { tx with size := some size })

end Transaction
