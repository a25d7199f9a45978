import DomiconExec.Objects.DA

structure EIP155FdSigner where
  chainId : Nat

namespace EIP155FdSigner

def uint64ToBigEndianHexBytes (value : UInt64) : Bytes :=
  Bytes.fit 8 (Bytes.bigEndian value.toNat)

-- The data ends up at the end of the array. It is never longer than the array.
def transTo32Byte (data : Bytes) : ByteArr 32 :=
  .setBytes data

def preimage (s : EIP155FdSigner) (fd : DA) : Bytes :=
  let chainId := transTo32Byte (uint64ToBigEndianHexBytes (UInt64.ofNat s.chainId))
  let indexByte := transTo32Byte (uint64ToBigEndianHexBytes fd.index)
  let lengthByte := transTo32Byte (uint64ToBigEndianHexBytes fd.length)
  let receiveByte := transTo32Byte (uint64ToBigEndianHexBytes (UInt64.ofInt fd.outOfTime.unix))
  let addrByte := transTo32Byte fd.sender.val
  chainId.val ++ addrByte.val ++ indexByte.val ++ lengthByte.val ++ receiveByte.val ++
    fd.commitment.x.bytes.val ++ fd.commitment.y.bytes.val

def hash (keccak256 : Bytes → Hash) (s : EIP155FdSigner) (fd : DA) : Hash :=
  keccak256 (s.preimage fd)

end EIP155FdSigner

namespace FrontierFdSigner

open EIP155FdSigner

def preimage (fd : DA) : Bytes :=
  let indexByte := transTo32Byte (uint64ToBigEndianHexBytes fd.index)
  let lengthByte := transTo32Byte (uint64ToBigEndianHexBytes fd.length)
  let addrByte := transTo32Byte fd.sender.val
  addrByte.val ++ indexByte.val ++ lengthByte.val ++
    fd.commitment.x.bytes.val ++ fd.commitment.y.bytes.val

def hash (keccak256 : Bytes → Hash) (fd : DA) : Hash :=
  keccak256 (preimage fd)

end FrontierFdSigner

-- The homestead signer inherits the hash of the frontier signer.
inductive FdSigner
  | eip155 (s : EIP155FdSigner)
  | homestead
  | frontier

def FdSigner.hash (keccak256 : Bytes → Hash) : FdSigner → DA → Hash
  | .eip155 s  => s.hash keccak256
  | .homestead => FrontierFdSigner.hash keccak256
  | .frontier  => FrontierFdSigner.hash keccak256

structure ChainConfig where
  chainID : Option Nat
  eip155Block : Option Nat

namespace ChainConfig

def eip155FdSigner (config : ChainConfig) : EIP155FdSigner where
  chainId := config.chainID.getD 0

def latestFdSigner (config : ChainConfig) : FdSigner :=
  if config.chainID.isSome ∧ config.eip155Block.isSome then
    .eip155 config.eip155FdSigner
  else
    .homestead

end ChainConfig
