import DomiconExec.Primitives.Bytes

structure EthTransaction where
  hash : Hash
  toAddr : Option Address
  data : Bytes
  encoded : Bytes
deriving DecidableEq

-- A block of the underlying chain. Nothing depends on how its encoding represents the other fields.
structure EthBlock where
  number : Nat
  hash : Hash
  parentHash : Hash
  time : UInt64
  transactions : List EthTransaction
  encoded : Bytes
deriving DecidableEq

structure EthLog where
  address : Address
  topics : List Hash
  data : Bytes
  blockNumber : UInt64
  txHash : Hash
  index : Nat
  blockHash : Hash
  removed : Bool

structure EthReceipt where
  type : UInt8
  status : UInt64
  cumulativeGasUsed : UInt64
  gasUsed : UInt64
  txHash : Hash
  blockNumber : Nat
  contractAddress : Address
  logs : List EthLog

def EthBlock.numberU64 (b : EthBlock) : UInt64 :=
  .ofNat b.number
