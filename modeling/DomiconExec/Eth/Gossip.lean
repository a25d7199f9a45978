import DomiconExec.Eth.Handler

namespace Eth

open FilePool (Ref Heap)

def fdChanSize : Nat :=
  60

def maxQueuedFileData : Nat :=
  4096

inductive Connection
  | registered
  | unregistered
  | closed
deriving DecidableEq

-- The goroutine that sends data in the background: there is none (`done` is nil), it is in
-- `SendFileDatas`, it has closed `done`, it has sent to `fail`, or its error has been received. In
-- the last two cases `done` stays open.
inductive Flight
  | idle
  | running (fds : List DA)
  | done
  | fail
  | received

-- Where `broadcastFileData` is: at the top of its loop, looking up the queue, at its `select`
-- statement, or at its end.
inductive Broadcaster.Pc
  | top
  | looking (rest : List Hash) (fds : List DA)
  | select
  | returned

-- A peer with the goroutine `broadcastFileData`, with all that was handed to `SendFileDatas`, and
-- with the hashes that did not fit into the queue.
structure Broadcaster where
  peer : Peer
  connection : Connection
  queue : List Hash
  flight : Flight
  failed : Bool
  pc : Broadcaster.Pc
  handed : List DA
  dropped : List Hash

-- A goroutine waits, or the program ends.
inductive Stop
  | blocked
  | panic (p : GoPanic)

def sendFileDatas : Bool → List DA → List Hash × Option GoError
  | _, [] => ([], none)
  | commitIsEmpty, da :: fds =>
    let commitIsEmpty := commitIsEmpty || da.commitIsEmpty
    if da.txHash = .zero ∧ commitIsEmpty then
      ([], some errDADataIllegal)
    else
      let marks :=
        if da.txHash = .zero then [da.commitment.hash]
        else if commitIsEmpty then [da.txHash]
        else [da.commitment.hash, da.txHash]
      let (rest, err) := sendFileDatas commitIsEmpty fds
      (marks ++ rest, err)

namespace Broadcaster

-- The choices of the `select` statement, the next step elsewhere, and the end of a send.
inductive Action
  | next
  | done
  | fail
  | term
  | sent (popOrder : Nat → IterOrder Hash) (err : Option GoError)

def enqueue (max : Nat) (b : Broadcaster) (hashes : List Hash) : Broadcaster :=
  let queue := b.queue ++ hashes
  let excess := queue.length - max
  { b with queue := queue.drop excess, dropped := b.dropped ++ queue.take excess }

def receive (b : Broadcaster) (hashes : List Hash) : Broadcaster :=
  { (if b.failed then b else b.enqueue maxQueuedFileData hashes) with pc := .top }

-- What the goroutines do apart from looking up a hash. The queue is only read by its own goroutine,
-- which empties it after the loop over it.
def act (ctx : Context) (b : Broadcaster) (a : Action) : Except Stop Broadcaster :=
  match a, b.pc, b.flight with
  | .next, .top, .idle =>
    if b.queue.length > 0 then
      .ok { b with pc := .looking b.queue [], queue := [] }
    else
      .ok { b with pc := .select }
  | .next, .top, _ => .ok { b with pc := .select }
  | .next, .looking [] fds, _ =>
    if fds.length > 0 then
      .ok { b with pc := .select, flight := .running fds, handed := b.handed ++ fds }
    else
      .ok { b with pc := .select }
  | .done, .select, .done => .ok { b with pc := .top, flight := .idle }
  | .fail, .select, .fail => .ok { b with pc := .top, flight := .received, failed := true }
  | .term, .select, _ =>
    if b.connection = .closed then .ok { b with pc := .returned } else .error .blocked
  | .sent popOrder err, _, .running fds =>
    let (marks, illegal) := sendFileDatas false fds
    let peer := b.peer.markFileDatas { ctx with popOrder } marks
    let flight := if (illegal <|> err).isSome then .fail else .done
    .ok { b with peer, flight }
  | _, _, _ => .error .blocked

def disconnect (b : Broadcaster) : Except Stop Broadcaster :=
  match b.connection with
  | .registered   => .ok { b with connection := .unregistered }
  | .unregistered => .ok { b with connection := .closed }
  | .closed       => .error .blocked

end Broadcaster

inductive Gossip.Syncer
  | sending (daDatas : List Ref)
  | removing (daDatas : List Ref)
  | finished

-- Where `fdBroadcastLoop` is: at its `select` statement, or in one of the two loops of
-- `BroadcastFileData`.
inductive Gossip.Loop
  | select
  | choosing (fds : List Ref) (fdset : List (Nat × Hash))
  | sending (fdset : List (Nat × Hash))

-- The subscription of `fdsCh` does not end, and there is always room in `fdHashCh`.
structure Gossip where
  backend : Backend
  syncer : Gossip.Syncer
  fdsCh : List (List Ref)
  fdHashCh : List Hash
  loop : Gossip.Loop
  peers : List Broadcaster

namespace Gossip

-- `SendNewFileDataEvent` waits for room in the channel.
def sync (ctx : Context) (s : Gossip) : Except Stop Gossip :=
  match s.syncer with
  | .sending []      => .ok { s with syncer := .finished }
  | .sending daDatas =>
    if s.fdsCh.length < fdChanSize then
      .ok { s with syncer := .removing daDatas, fdsCh := s.fdsCh ++ [daDatas] }
    else
      .error .blocked
  | .removing daDatas =>
    let pool := s.backend.pool.removeAll ctx.heap daDatas
    .ok { s with syncer := .finished, backend := { s.backend with pool } }
  | .finished => .error .blocked

def hashOf (da : DA) : Hash :=
  if da.commitIsEmpty then da.txHash else da.commitment.hash

-- The test of `peerWithOutFileData` for data without a transaction or a commitment, and of
-- `peerWithOutFileData2` for other data.
def isWithOut (peer : Peer) (da : DA) : Bool :=
  if da.txHash = .zero then
    !peer.knownFds.contains da.commitment.hash
  else if da.commitIsEmpty then
    !peer.knownFds.contains da.txHash
  else
    !peer.knownFds.contains da.txHash && !peer.knownFds.contains da.commitment.hash

def peersWithOut (peers : List Broadcaster) (da : DA) : List Nat :=
  peers.zipIdx.filterMap fun x =>
    if x.fst.connection = .registered ∧ isWithOut x.fst.peer da then some x.snd else none

-- The body of the first loop of `BroadcastFileData`. Data without a transaction and a commitment ends
-- the whole broadcast.
def choose (peers : List Broadcaster) (fdset : List (Nat × Hash)) (da : DA) :
    Option (List (Nat × Hash)) :=
  if da.txHash = .zero ∧ da.commitIsEmpty then
    none
  else
    some (fdset ++ (peersWithOut peers da).map (·, hashOf da))

def broadcast (ctx : Context) (s : Gossip) : Except Stop Gossip :=
  match s.loop, s.fdsCh with
  | .select, fds :: fdsCh => .ok { s with loop := .choosing fds [], fdsCh }
  | .choosing (fd :: fds) fdset, _ =>
    match choose s.peers fdset (ctx.heap fd) with
    | none       => .ok { s with loop := .select }
    | some fdset => .ok { s with loop := .choosing fds fdset }
  | .choosing [] fdset, _ => .ok { s with loop := .sending fdset }
  | .sending [], _ => .ok { s with loop := .select }
  | _, _ => .error .blocked

-- The first loop of `BroadcastFileData`, while the peers stay the same. It may return early.
def broadcastFileData (peers : List Broadcaster) (fds : List DA) (fdset : List (Nat × Hash)) :
    Option (List (Nat × Hash)) :=
  fds.foldlM (choose peers) fdset

def hashesFor (fdset : List (Nat × Hash)) (i : Nat) : List Hash :=
  fdset.filter (·.fst = i) |>.map Prod.snd

def without (fdset : List (Nat × Hash)) (i : Nat) : List (Nat × Hash) :=
  fdset.filter (·.fst ≠ i)

-- The case of `AsyncSendFileData` in which the peer receives the hashes.
def serve (s : Gossip) (i : Nat) (popOrder : IterOrder Hash) : Except Stop Gossip :=
  match s.loop, s.peers[i]? with
  | .sending fdset, some b =>
    match b.pc, hashesFor fdset i with
    | .select, hash :: hashes =>
      let knownFds := b.peer.knownFds.add popOrder (hash :: hashes)
      let b := { b.receive (hash :: hashes) with peer := { b.peer with knownFds } }
      .ok { s with loop := .sending (without fdset i), peers := s.peers.set i b }
    | _, _ => .error .blocked
  | _, _ => .error .blocked

def drop (s : Gossip) (i : Nat) : Except Stop Gossip :=
  match s.loop, s.peers[i]? with
  | .sending fdset, some b =>
    if b.connection = .closed ∧ (hashesFor fdset i).length > 0 then
      .ok { s with loop := .sending (without fdset i) }
    else
      .error .blocked
  | _, _ => .error .blocked

-- The method `Get` of the pool differs from `GetDA` in that it asks for what it does not find.
def lookup (ctx : Context) (s : Gossip) (i : Nat) (b : Broadcaster) (hash : Hash)
    (rest : List Hash) (fds : List DA) : Except Stop Gossip :=
  match getDA ctx s.backend hash with
  | .error p        => .error (.panic p)
  | .ok (some da)   =>
    .ok { s with peers := s.peers.set i { b with pc := .looking rest (fds ++ [da]) } }
  | .ok none        =>
    .ok { s with
      fdHashCh := s.fdHashCh ++ [hash]
      peers := s.peers.set i { b with pc := .looking rest fds }
    }

def peer (ctx : Context) (s : Gossip) (i : Nat) (a : Broadcaster.Action) : Except Stop Gossip :=
  match s.peers[i]? with
  | none   => .error .blocked
  | some b =>
    match a, b.pc with
    | .next, .looking (hash :: rest) fds => s.lookup ctx i b hash rest fds
    | a, _ => do
      let b ← b.act ctx a
      return { s with peers := s.peers.set i b }

def disconnect (s : Gossip) (i : Nat) : Except Stop Gossip :=
  match s.peers[i]? with
  | none   => .error .blocked
  | some b => do
    let b ← b.disconnect
    return { s with peers := s.peers.set i b }

inductive Event
  | sync
  | broadcast
  | serve (i : Nat) (popOrder : IterOrder Hash)
  | drop (i : Nat)
  | peer (i : Nat) (a : Broadcaster.Action)
  | disconnect (i : Nat)

def step (ctx : Context) (s : Gossip) : Event → Except Stop Gossip
  | .sync             => s.sync ctx
  | .broadcast        => s.broadcast ctx
  | .serve i popOrder => s.serve i popOrder
  | .drop i           => s.drop i
  | .peer i a         => s.peer ctx i a
  | .disconnect i     => s.disconnect i

def machine (ctx : Context) (s : Gossip) : Transition.System Gossip Event Stop where
  init := s
  step := step ctx

end Gossip
end Eth
