import DomiconExec.Core.BlockChain

namespace Eth

open Rawdb

def maxFileDatasServe : Nat :=
  60

def fileDataSoftResponseLimit : Nat :=
  30 * 1024 * 1024

structure BantchFileData where
  headerHash : Hash
  cap : UInt64
  length : UInt64
  fileDatas : List Bytes

-- The encoding of a pointer. The nil pointer to a struct is an empty list.
def encodePtr : Option DA → Except Rlp.EncodeError Bytes
  | none    => .ok [0xC0]
  | some fd => fd.encode

-- The variables of the loop over the data of a block. A batch is `none` if it is nil.
structure Batches where
  bytes : Nat
  batch : Nat
  batchFileDatas : List (Option (List Bytes))

namespace Batches

-- Whether a batch has to be closed. The batch is not looked at if there are too many bytes.
def isFull (s : Batches) : Except GoPanic Bool :=
  if s.bytes ≥ fileDataSoftResponseLimit then
    .ok true
  else
    match s.batchFileDatas[s.batch]? with
    | none      => .error .indexOutOfRange
    | some list => .ok ((list.getD []).length ≥ maxFileDatasServe)

-- The batches are accessed by the index of the data. The first encoding for a batch is lost.
def append (encoded : Bytes) (index : Nat) (s : Batches) : Except GoPanic Batches :=
  match s.batchFileDatas[index]? with
  | none => .error .indexOutOfRange
  | some list =>
    let list := match list with
      | none      => []
      | some list => list ++ [encoded]
    .ok { s with batchFileDatas := s.batchFileDatas.set index (some list) }

-- The body of the loop, for data with its index. Data that cannot be encoded is skipped.
def step (s : Batches) (p : Option DA × Nat) : Except GoPanic Batches :=
  match encodePtr p.fst with
  | .error _ => .ok s
  | .ok encoded => do
    let s := { s with bytes := s.bytes + encoded.length }
    let full ← s.isFull
    append encoded p.snd { s with batch := if full then s.batch + 1 else s.batch }

end Batches

section Service

variable {Header Body : Type} {c : BlockCodec Header Body} (json : Json)

-- The variables of the loop over the hashes. The counters are not reset for a new hash.
structure Service (c : BlockCodec Header Body) where
  chain : BlockChain c
  bytes : Nat
  batch : Nat
  resultList : List BantchFileData

def serveResults (hash : Hash) (results : List (Option DA)) (s : Service c) :
    Except GoPanic (Service c) := do
  let batches ← results.zipIdx.foldlM Batches.step ⟨s.bytes, s.batch, []⟩
  let cap := UInt64.ofNat results.length
  let list := batches.batchFileDatas.map fun datas =>
    ⟨hash, cap, .ofNat (datas.getD []).length, datas.getD []⟩
  return {
    chain := s.chain
    bytes := batches.bytes
    batch := batches.batch
    resultList := s.resultList ++ list
  }

-- The body of the loop. A block without data is looked up, but nothing is sent for it.
def serveHash (s : Service c) (hash : Hash) : Except GoPanic (Service c) :=
  match s.chain.getFileDatasByHash json hash with
  | some results => serveResults hash results s
  | none =>
    let (header, chain) := s.chain.getBlockByHash hash
    if header.isNone then
      .ok { s with chain }
    else
      serveResults hash [] { s with chain }

def serviceGetFileDatasQuery (chain : BlockChain c) (query : List Hash) :
    Except GoPanic (BlockChain c × List BantchFileData) := do
  let s ← query.foldlM (serveHash json) ⟨chain, 0, 0, []⟩
  return (s.chain, s.resultList)

end Service
end Eth
