import DomiconExec.Primitives.GoTime
import DomiconExec.Objects.Digest

-- No field of `time.Time` is exported, so that reflection finds nothing to encode.
def GoTime.info : Rlp.TypeInfo GoTime :=
  .struct "time.Time" zero []

-- The data whose availability is attested.
structure DA where
  sender : Address
  nonce : UInt64
  index : UInt64
  length : UInt64
  data : Bytes
  commitment : Digest
  signData : List Bytes
  signerAddr : List GoString
  dasKey : ByteArr 32
  txHash : Hash
  blockNum : UInt64
  receiveAt : GoTime
  outOfTime : GoTime
  proof : Bytes
  claimedValue : Bytes
  nameSpaceID : Option Int
  root : Hash
deriving DecidableEq

namespace DA

def zero : DA where
  sender := .fill 0
  nonce := 0
  index := 0
  length := 0
  data := []
  commitment := .zero
  signData := []
  signerAddr := []
  dasKey := .fill 0
  txHash := .zero
  blockNum := 0
  receiveAt := .zero
  outOfTime := .zero
  proof := []
  claimedValue := []
  nameSpaceID := none
  root := .zero

def info : Rlp.TypeInfo DA :=
  .struct "types.DA" zero [
    .of "Sender" (.byteArray "common.Address" 20) sender fun f x => { f with sender := x },
    .of "Nonce" .uint64 nonce fun f x => { f with nonce := x },
    .of "Index" .uint64 index fun f x => { f with index := x },
    .of "Length" .uint64 length fun f x => { f with length := x },
    .of "Data" .byteSlice data fun f x => { f with data := x },
    .of "Commitment" Digest.info commitment fun f x => { f with commitment := x },
    .of "SignData" (.slice .byteSlice) signData fun f x => { f with signData := x },
    .of "SignerAddr" (.slice .string) signerAddr fun f x => { f with signerAddr := x },
    .of "DasKey" (.byteArray "[32]uint8" 32) dasKey fun f x => { f with dasKey := x },
    .of "TxHash" (.byteArray "common.Hash" 32) txHash fun f x => { f with txHash := x },
    .of "BlockNum" .uint64 blockNum fun f x => { f with blockNum := x },
    .of "ReceiveAt" GoTime.info receiveAt fun f x => { f with receiveAt := x },
    .of "OutOfTime" GoTime.info outOfTime fun f x => { f with outOfTime := x },
    .of "Proof" .byteSlice proof fun f x => { f with proof := x },
    .of "ClaimedValue" .byteSlice claimedValue fun f x => { f with claimedValue := x },
    .of "NameSpaceID" .bigIntPtr nameSpaceID fun f x => { f with nameSpaceID := x },
    .of "Root" (.byteArray "common.Hash" 32) root fun f x => { f with root := x }
  ]

def encode (f : DA) : Except Rlp.EncodeError Bytes :=
  Rlp.encodeToBytes info f

def decode (f : DA) (data : Bytes) : Except Rlp.DecodeError DA :=
  Rlp.decodeBytes info data f

end DA
