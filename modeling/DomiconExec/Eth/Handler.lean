import DomiconExec.Db.DAData
import DomiconExec.Fetcher.Intake

namespace Eth

open FilePool (Ref Heap)
open Sql Db

structure KnownCache where
  hashes : Finset Hash
  max : Nat

namespace KnownCache

def newKnownCache (max : Nat) : KnownCache where
  hashes := ∅
  max := max

-- Elements are popped until there is room for the new ones. Which ones is left to the runtime.
def add (order : IterOrder Hash) (k : KnownCache) (hashes : List Hash) : KnownCache :=
  let excess := k.hashes.card - (k.max - hashes.length)
  let kept := (order.list k.hashes).drop excess
  { k with hashes := kept.toFinset ∪ hashes.toFinset }

def contains (k : KnownCache) (hash : Hash) : Bool :=
  hash ∈ k.hashes

end KnownCache

def maxKnownFds : Nat :=
  32768

inductive Version
  | eth67
  | eth68

inductive Message : Version → Type
  | fileData {v : Version} (fds : List (Option Ref)) : Message v
  | newPooledFileDataHashes67 (hashes : List Hash) : Message .eth67
  | newPooledFileDataHashes68 (sizes : List UInt32) (hashes : List Hash) : Message .eth68
  | getPooledFileDatas {v : Version} (requestId : UInt64) (query : List Hash) : Message v
  | pooledFileDatas {v : Version} (fds : List (Option Ref)) : Message v

inductive Packet
  | fileData (fds : List Ref)
  | newPooledFileDataHashes67 (hashes : List Hash)
  | newPooledFileDataHashes68 (sizes : List UInt32) (hashes : List Hash)
  | pooledFileDataResponse (fds : List Ref)

structure Peer where
  id : Fetcher.Peer
  knownFds : KnownCache

structure Backend where
  pool : FilePool
  das : Table DARow

structure Context where
  heap : Heap
  setBytes : SetBytes
  -- The surroundings of each call of `Add`.
  env : Nat → FilePool.Env
  -- The order in which each addition to the known hashes pops elements.
  popOrder : Nat → IterOrder Hash
  -- Whether the fetcher has quit.
  quit : Bool
  -- The error of sending a reply.
  sendError : Option GoError
  -- The text by which errors refer to the message.
  text : String

structure Reply where
  requestId : UInt64
  fds : List Bytes

-- The state after a message, the event handed to the fetcher, the reply and the returned error.
structure Result where
  peer : Peer
  backend : Backend
  event : Option Fetcher.Event
  reply : Option Reply
  err : Option GoError

def errDecode : GoError :=
  ⟨"invalid message"⟩

def errDADataIllegal : GoError :=
  ⟨"da data is illegal"⟩

def handle (ctx : Context) (b : Backend) (peer : Peer) (packet : Packet) :
    Except GoPanic Result := do
  match packet with
  | .fileData fds =>
    let (pool, event, err) ←
      Fetcher.enqueue ctx.quit ctx.heap ctx.env b.pool peer.id fds true
    return ⟨peer, { b with pool }, event, none, err⟩
  | .newPooledFileDataHashes67 hashes =>
    let (event, err) ← Fetcher.notify ctx.quit b.pool peer.id [] hashes
    return ⟨peer, b, event, none, err⟩
  | .newPooledFileDataHashes68 sizes hashes =>
    let (event, err) ← Fetcher.notify ctx.quit b.pool peer.id sizes hashes
    return ⟨peer, b, event, none, err⟩
  | .pooledFileDataResponse fds =>
    let (pool, event, err) ←
      Fetcher.enqueue ctx.quit ctx.heap ctx.env b.pool peer.id fds true
    return ⟨peer, { b with pool }, event, none, err⟩

def Peer.markFileDatas (ctx : Context) (peer : Peer) (hashes : List Hash) : Peer :=
  { peer with
    knownFds := hashes.zipIdx.foldl (fun k (hash, i) => k.add (ctx.popOrder i) [hash]) peer.knownFds
  }

-- The loop of `handleFileDatas`: the hashes it marks, and the error that ends it early. Once there
-- was an empty commitment, `commitIsEmpty` remains set.
def validateFileDatas (heap : Heap) :
    Bool → Nat → List (Option Ref) → List Hash × Option GoError
  | _, _, [] => ([], none)
  | _, i, none :: _ => ([], some ⟨s!"{errDecode.text}: fileData {i} is nil"⟩)
  | commitIsEmpty, i, some fd :: fds =>
    let da := heap fd
    let commitIsEmpty := commitIsEmpty || da.commitIsEmpty
    if da.txHash = .zero ∧ commitIsEmpty then
      ([], some errDADataIllegal)
    else
      let marks :=
        if da.txHash = .zero then [da.commitment.hash]
        else if commitIsEmpty then [da.txHash]
        else [da.commitment.hash, da.txHash]
      let (rest, err) := validateFileDatas heap commitIsEmpty (i + 1) fds
      (marks ++ rest, err)

-- Whether a broadcast is ignored because of its first element. The last case is never reached.
def isKnown (known : KnownCache) (da : DA) : Bool :=
  if da.txHash = .zero ∧ ¬da.commitIsEmpty then
    known.contains da.commitment.hash
  else if da.txHash ≠ .zero ∧ ¬da.commitIsEmpty then
    known.contains da.commitment.hash || known.contains da.txHash
  else if da.txHash ≠ .zero ∧ ¬da.commitIsEmpty then
    known.contains da.txHash
  else
    false

def handleFileDatas (ctx : Context) (b : Backend) (peer : Peer) :
    List (Option Ref) → Except GoPanic Result
  | [] => .error .indexOutOfRange
  | none :: _ => .error .nilDereference
  | some fd :: rest =>
    let da := ctx.heap fd
    let fds := some fd :: rest
    if da.txHash = .zero ∧ da.commitIsEmpty then
      .ok ⟨peer, b, none, none, some errDADataIllegal⟩
    else if isKnown peer.knownFds da then
      .ok ⟨peer, b, none, none, none⟩
    else
      let (marks, err) := validateFileDatas ctx.heap da.commitIsEmpty 0 fds
      let peer := peer.markFileDatas ctx marks
      match err with
      | some err => .ok ⟨peer, b, none, none, some err⟩
      | none     => handle ctx b peer (.fileData fds.reduceOption)

def validatePooledFileDatas (heap : Heap) : Nat → List (Option Ref) → List Hash × Option GoError
  | _, [] => ([], none)
  | i, none :: _ => ([], some ⟨s!"{errDecode.text}: fileData {i} is nil"⟩)
  | i, some fd :: fds =>
    let (rest, err) := validatePooledFileDatas heap (i + 1) fds
    ((heap fd).txHash :: rest, err)

def handlePooledFileDatas (ctx : Context) (b : Backend) (peer : Peer) (fds : List (Option Ref)) :
    Except GoPanic Result :=
  let (marks, err) := validatePooledFileDatas ctx.heap 0 fds
  let peer := peer.markFileDatas ctx marks
  match err with
  | some err => .ok ⟨peer, b, none, none, some err⟩
  | none     => handle ctx b peer (.pooledFileDataResponse fds.reduceOption)

def handleNewPooledFileDataHashes67 (ctx : Context) (b : Backend) (peer : Peer)
    (hashes : List Hash) : Except GoPanic Result :=
  handle ctx b (peer.markFileDatas ctx hashes) (.newPooledFileDataHashes67 hashes)

def handleNewPooledFileDataHashes68 (ctx : Context) (b : Backend) (peer : Peer)
    (sizes : List UInt32) (hashes : List Hash) : Except GoPanic Result :=
  if hashes.length ≠ sizes.length then
    let text := s!"{errDecode.text}: message {ctx.text}: invalid len of fields: "
    .ok ⟨peer, b, none, none, some ⟨text ++ s!"{hashes.length} {sizes.length}"⟩⟩
  else
    handle ctx b (peer.markFileDatas ctx hashes) (.newPooledFileDataHashes68 sizes hashes)

-- The method `GetDA` of the pool. The lookup in the database fails like that of `GetDAByCommit`, so
-- no second attempt is made.
def getDA (ctx : Context) (b : Backend) (hash : Hash) : Except GoPanic (Option DA) :=
  match b.pool.all.get hash with
  | some fd => .ok (some (ctx.heap fd))
  | none => do
    match ← getCommitmentByTxHash ctx.setBytes b.das hash with
    | .ok da   => return some da
    | .error _ =>
      match ← getDAByCommitmentHash ctx.setBytes b.das hash with
      | .ok da   => return some da
      | .error _ => return none

-- The loop of `answerGetPooledFileDatas`. A zero hash discards all that was found before it.
def answer (ctx : Context) (b : Backend) :
    List Hash → List (Hash × Bytes) → Except GoPanic (List (Hash × Bytes))
  | [], l => .ok l
  | hash :: query, l =>
    if hash = .zero then
      .ok []
    else do
      match ← getDA ctx b hash with
      | none => answer ctx b query l
      | some da =>
        match da.encode with
        | .error _ => answer ctx b query l
        | .ok b'   => answer ctx b query (l ++ [(hash, b')])

def answerGetPooledFileDatas (ctx : Context) (b : Backend) (query : List Hash) :
    Except GoPanic (List (Hash × Bytes)) :=
  answer ctx b query []

-- The first hash of the query is logged.
def handleGetPooledFileDatas (ctx : Context) (b : Backend) (peer : Peer) (requestId : UInt64)
    (query : List Hash) : Except GoPanic Result :=
  match query with
  | [] => .error .indexOutOfRange
  | hash :: rest => do
    let l ← answerGetPooledFileDatas ctx b (hash :: rest)
    let knownFds := peer.knownFds.add (ctx.popOrder 0) (l.map Prod.fst)
    let reply := if ctx.sendError.isSome then none else some ⟨requestId, l.map Prod.snd⟩
    return ⟨{ peer with knownFds }, b, none, reply, ctx.sendError⟩

-- The handlers of both versions, as `handleMessage` selects them.
def handleMessage {v : Version} (ctx : Context) (b : Backend) (peer : Peer) :
    Message v → Except GoPanic Result
  | .fileData fds                           => handleFileDatas ctx b peer fds
  | .newPooledFileDataHashes67 hashes       => handleNewPooledFileDataHashes67 ctx b peer hashes
  | .newPooledFileDataHashes68 sizes hashes =>
    handleNewPooledFileDataHashes68 ctx b peer sizes hashes
  | .getPooledFileDatas requestId query     => handleGetPooledFileDatas ctx b peer requestId query
  | .pooledFileDatas fds                    => handlePooledFileDatas ctx b peer fds

end Eth
