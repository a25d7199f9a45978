import DomiconExec.P2p.Peer
import DomiconExec.Primitives.Transition

namespace Eth

-- A connection with the protocols that run on it, and those that the other side offers.
structure P2PPeer where
  running : GoMap String Nat
  caps : List P2p.Cap
deriving DecidableEq

def P2PPeer.runningCap (p : P2PPeer) (protocol : String) (versions : List Nat) : Bool :=
  match p.running.get protocol with
  | some version => versions.any (version = ·)
  | none         => false

-- An object of type `snap.Peer`. Each connection has its own one, which `ref` stands for.
structure SnapPeer where
  ref : Nat
  id : String
  conn : P2PPeer
deriving DecidableEq

structure EthPeer where
  id : String
  conn : P2PPeer
deriving DecidableEq

structure PeerEntry where
  peer : EthPeer
  snapExt : Option SnapPeer

def ethProtocolVersions : List Nat :=
  [68, 67]

def snapProtocolVersions : List Nat :=
  [1]

def errPeerSetClosed : GoError :=
  ⟨"peerset closed"⟩

def errPeerAlreadyRegistered : GoError :=
  ⟨"peer already registered"⟩

def errPeerNotRegistered : GoError :=
  ⟨"peer not registered"⟩

def errSnapWithoutEth (caps : List P2p.Cap) : GoError :=
  ⟨"peer connected on snap without compatible eth support: have [" ++
    " ".intercalate (caps.map P2p.Cap.string) ++ "]"⟩

-- The channels of `snapWait` are referred to by the numbers of the calls that wait for them.
structure PeerSet where
  peers : GoMap String PeerEntry
  snapPeers : Int
  snapWait : GoMap String Nat
  snapPend : GoMap String SnapPeer
  closed : Bool

-- Where `waitSnapExtension` is: at its receive operation or at its end.
inductive Wait.Pc
  | waiting
  | returned (snap : Option SnapPeer) (err : Option GoError)
deriving DecidableEq

structure Wait where
  peer : EthPeer
  pc : Wait.Pc

namespace PeerSet

def newPeerSet : PeerSet where
  peers := ∅
  snapPeers := 0
  snapWait := ∅
  snapPend := ∅
  closed := false

-- Returns the channel that the peer is to be sent to, if there is one.
def registerSnapExtension (ps : PeerSet) (peer : SnapPeer) : PeerSet × Option Nat × Option GoError :=
  if ¬peer.conn.runningCap "eth" ethProtocolVersions then
    (ps, none, some (errSnapWithoutEth peer.conn.caps))
  else if peer.id ∈ ps.peers then
    (ps, none, some errPeerAlreadyRegistered)
  else if peer.id ∈ ps.snapPend then
    (ps, none, some errPeerAlreadyRegistered)
  else
    match ps.snapWait.get peer.id with
    | some wait => ({ ps with snapWait := ps.snapWait.del peer.id }, some wait, none)
    | none      => ({ ps with snapPend := ps.snapPend.set peer.id peer }, none, none)

def waitSnapExtension (ps : PeerSet) (peer : EthPeer) (wait : Nat) : PeerSet × Wait.Pc :=
  if ¬peer.conn.runningCap "snap" snapProtocolVersions then
    (ps, .returned none none)
  else if peer.id ∈ ps.peers then
    (ps, .returned none (some errPeerAlreadyRegistered))
  else if peer.id ∈ ps.snapWait then
    (ps, .returned none (some errPeerAlreadyRegistered))
  else
    match ps.snapPend.get peer.id with
    | some snap => ({ ps with snapPend := ps.snapPend.del peer.id }, .returned (some snap) none)
    | none      => ({ ps with snapWait := ps.snapWait.set peer.id wait }, .waiting)

def registerPeer (ps : PeerSet) (peer : EthPeer) (ext : Option SnapPeer) : PeerSet × Option GoError :=
  if ps.closed then
    (ps, some errPeerSetClosed)
  else if peer.id ∈ ps.peers then
    (ps, some errPeerAlreadyRegistered)
  else
    let snapPeers := if ext.isSome then ps.snapPeers + 1 else ps.snapPeers
    ({ ps with peers := ps.peers.set peer.id ⟨peer, ext⟩, snapPeers }, none)

def unregisterPeer (ps : PeerSet) (id : String) : PeerSet × Option GoError :=
  match ps.peers.get id with
  | none      => (ps, some errPeerNotRegistered)
  | some peer =>
    let snapPeers := if peer.snapExt.isSome then ps.snapPeers - 1 else ps.snapPeers
    ({ ps with peers := ps.peers.del id, snapPeers }, none)

-- The peers are disconnected, which does not remove them yet.
def close (ps : PeerSet) : PeerSet :=
  { ps with closed := true }

end PeerSet

-- The peer set with the calls of `waitSnapExtension` so far, and the arguments of the successful
-- calls of `registerSnapExtension`.
structure Peering where
  set : PeerSet
  waits : List Wait
  registered : List SnapPeer

namespace Peering

def start : Peering where
  set := .newPeerSet
  waits := []
  registered := []

inductive Call
  | registerSnapExtension (peer : SnapPeer)
  | waitSnapExtension (peer : EthPeer)
  | registerPeer (peer : EthPeer) (ext : Option SnapPeer)
  | unregisterPeer (id : String)
  | close

-- The lock is held while the peer is sent, so the two calls go on together. If nobody receives from
-- the channel then the call does not return.
def registerSnapExtension (s : Peering) (peer : SnapPeer) : Option (Peering × Option GoError) :=
  match s.set.registerSnapExtension peer with
  | (set, none, none)      => some (⟨set, s.waits, s.registered ++ [peer]⟩, none)
  | (set, some wait, none) =>
    match s.waits[wait]? with
    | some ⟨eth, .waiting⟩ =>
      some (⟨set, s.waits.set wait ⟨eth, .returned (some peer) none⟩, s.registered ++ [peer]⟩, none)
    | _ => none
  | (set, _, some err) => some ({ s with set }, some err)

-- The error with which the call has returned, if it has.
def waitSnapExtension (s : Peering) (peer : EthPeer) : Peering × Option GoError :=
  let (set, pc) := s.set.waitSnapExtension peer s.waits.length
  let err := match pc with
    | .waiting        => none
    | .returned _ err => err
  ({ s with set, waits := s.waits ++ [⟨peer, pc⟩] }, err)

def call (s : Peering) : Call → Option (Peering × Option GoError)
  | .registerSnapExtension peer => s.registerSnapExtension peer
  | .waitSnapExtension peer     => s.waitSnapExtension peer
  | .registerPeer peer ext      =>
    let (set, err) := s.set.registerPeer peer ext
    some ({ s with set }, err)
  | .unregisterPeer id =>
    let (set, err) := s.set.unregisterPeer id
    some ({ s with set }, err)
  | .close => some ({ s with set := s.set.close }, none)

def machine : Transition.System Peering Call Unit where
  init := start
  step s c :=
    match s.call c with
    | some (s', _) => .ok s'
    | none         => .error ()

end Peering
end Eth
