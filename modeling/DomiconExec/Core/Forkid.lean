import DomiconExec.Primitives.Bytes
import Mathlib.Data.List.Sort

namespace Forkid

def ieee : UInt32 :=
  0xedb88320

def tableStep (crc : UInt32) : UInt32 :=
  if crc &&& 1 = 1 then (crc >>> 1) ^^^ ieee else crc >>> 1

def tableEntry (i : UInt32) : UInt32 :=
  (List.range 8).foldl (fun crc _ => tableStep crc) i

def update (crc : UInt32) (p : Bytes) : UInt32 :=
  ~~~p.foldl (fun crc v => tableEntry ((crc ^^^ v.toUInt32) &&& 0xff) ^^^ (crc >>> 8)) (~~~crc)

def checksumIEEE (data : Bytes) : UInt32 :=
  update 0 data

def putUint64 (v : UInt64) : Bytes :=
  [56, 48, 40, 32, 24, 16, 8, 0].map fun s : UInt64 => (v >>> s).toUInt8

def putUint32 (v : UInt32) : ByteArr 4 :=
  ⟨[(v >>> 24).toUInt8, (v >>> 16).toUInt8, (v >>> 8).toUInt8, v.toUInt8], rfl⟩

def checksumUpdate (hash : UInt32) (fork : UInt64) : UInt32 :=
  update hash (putUint64 fork)

def checksumToBytes (hash : UInt32) : ByteArr 4 :=
  putUint32 hash

-- The fields of a chain config whose names end in `Block` or `Time`.
structure ChainConfig where
  homesteadBlock : Option Int := none
  daoForkBlock : Option Int := none
  eip150Block : Option Int := none
  eip155Block : Option Int := none
  eip158Block : Option Int := none
  byzantiumBlock : Option Int := none
  constantinopleBlock : Option Int := none
  petersburgBlock : Option Int := none
  istanbulBlock : Option Int := none
  muirGlacierBlock : Option Int := none
  berlinBlock : Option Int := none
  londonBlock : Option Int := none
  arrowGlacierBlock : Option Int := none
  grayGlacierBlock : Option Int := none
  mergeNetsplitBlock : Option Int := none
  shanghaiTime : Option UInt64 := none
  cancunTime : Option UInt64 := none
  pragueTime : Option UInt64 := none
  verkleTime : Option UInt64 := none
  bedrockBlock : Option Int := none
  regolithTime : Option UInt64 := none
  canyonTime : Option UInt64 := none

-- The fields of type `*big.Int`, in the order of their declaration.
def ChainConfig.blockRules (config : ChainConfig) : List (Option Int) :=
  [config.homesteadBlock, config.daoForkBlock, config.eip150Block, config.eip155Block,
    config.eip158Block, config.byzantiumBlock, config.constantinopleBlock, config.petersburgBlock,
    config.istanbulBlock, config.muirGlacierBlock, config.berlinBlock, config.londonBlock,
    config.arrowGlacierBlock, config.grayGlacierBlock, config.mergeNetsplitBlock,
    config.bedrockBlock]

def ChainConfig.timeRules (config : ChainConfig) : List (Option UInt64) :=
  [config.shanghaiTime, config.cancunTime, config.pragueTime, config.verkleTime,
    config.regolithTime, config.canyonTime]

-- The method `Uint64` of a big integer: the lowest word of its absolute value.
def uint64 (x : Int) : UInt64 :=
  UInt64.ofNat x.natAbs

-- What is left of the sorted list `last :: forks` after repeated entries were deleted.
def dedupFrom (last : UInt64) : List UInt64 → List UInt64
  | []            => [last]
  | fork :: forks => if fork = last then dedupFrom last forks else last :: dedupFrom fork forks

def dedup : List UInt64 → List UInt64
  | []            => []
  | fork :: forks => dedupFrom fork forks

def skipZero : List UInt64 → List UInt64
  | []            => []
  | fork :: forks => if fork = 0 then forks else fork :: forks

-- The forks by block number and those by time.
def gatherForks (config : ChainConfig) (genesis : UInt64) : List UInt64 × List UInt64 :=
  let forksByBlock := (config.blockRules.filterMap (Option.map uint64)).insertionSort (· ≤ ·)
  let forksByTime := (config.timeRules.filterMap id).insertionSort (· ≤ ·)
  (skipZero (dedup forksByBlock), (dedup forksByTime).dropWhile (· ≤ genesis))

-- The identifier of a fork: a checksum of the passed forks and the next one, or 0.
structure ID where
  hash : ByteArr 4
  next : UInt64
deriving DecidableEq

structure Genesis where
  hash : Hash
  time : UInt64

-- One of the loops over the forks. It ends at the first fork that was not passed.
def passForks (head : UInt64) : UInt32 → List UInt64 → UInt32 × Option UInt64
  | hash, []            => (hash, none)
  | hash, fork :: forks =>
    if fork ≤ head then passForks head (checksumUpdate hash fork) forks else (hash, some fork)

def newID (config : ChainConfig) (genesis : Genesis) (head time : UInt64) : ID :=
  let (forksByBlock, forksByTime) := gatherForks config genesis.time
  match passForks head (checksumIEEE genesis.hash.val) forksByBlock with
  | (hash, some fork) => ⟨checksumToBytes hash, fork⟩
  | (hash, none) =>
    match passForks time hash forksByTime with
    | (hash, some fork) => ⟨checksumToBytes hash, fork⟩
    | (hash, none)      => ⟨checksumToBytes hash, 0⟩

def timestampThreshold : UInt64 :=
  1438269973

def maxUint64 : UInt64 :=
  0xffffffffffffffff

def errRemoteStale : GoError :=
  ⟨"remote needs update"⟩

def errLocalIncompatibleOrStale : GoError :=
  ⟨"local incompatible or needs update"⟩

-- The checksums from `hash` on, one for each number of passed forks.
def checksums (hash : UInt32) : List UInt64 → List UInt32
  | []            => [hash]
  | fork :: forks => hash :: checksums (checksumUpdate hash fork) forks

structure Filter where
  -- All forks, ended by one that only the largest number of 64 bits passes.
  forks : List UInt64
  sums : List (ByteArr 4)
  -- The number of forks that are compared with the block number.
  blocks : Nat

def newFilter (config : ChainConfig) (genesis : Genesis) : Filter :=
  let (forksByBlock, forksByTime) := gatherForks config genesis.time
  let forks := forksByBlock ++ forksByTime
  {
    forks := forks ++ [maxUint64]
    sums := (checksums (checksumIEEE genesis.hash.val) forks).map checksumToBytes
    blocks := if forksByTime.length = 0 then forksByBlock.length + 1 else forksByBlock.length
  }

-- The decision at the first fork that was not passed, which has the index `i`.
def Filter.decideAt (f : Filter) (head time : UInt64) (i : Nat) (id : ID) : Except GoError Unit :=
  if f.sums[i]? = some id.hash then
    if id.next > 0 ∧ (head ≥ id.next ∨ id.next > timestampThreshold ∧ time ≥ id.next) then
      .error errLocalIncompatibleOrStale
    else
      .ok ()
  else
    match (List.range i).find? fun j => f.sums[j]? = some id.hash with
    | some j => if f.forks[j]? ≠ some id.next then .error errRemoteStale else .ok ()
    | none   =>
      if (f.sums.drop (i + 1)).any (· = id.hash) then
        .ok ()
      else
        .error errLocalIncompatibleOrStale

-- The loop over the forks from the index `i` on. Only the largest `uint64` gets to the end.
def Filter.loop (f : Filter) (block time : UInt64) (id : ID) : Nat → List UInt64 → Except GoError Unit
  | _, []            => .ok ()
  | i, fork :: forks =>
    let head := if i ≥ f.blocks then time else block
    if head ≥ fork then f.loop block time id (i + 1) forks else f.decideAt head time i id

-- The filter of a node whose head has the given number and time.
def Filter.check (f : Filter) (block time : UInt64) (id : ID) : Except GoError Unit :=
  f.loop block time id 0 f.forks
end Forkid
