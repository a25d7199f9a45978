import DomiconExec.Primitives.Bytes
import DomiconExec.Primitives.GoMap

namespace Fetcher

abbrev Peer :=
  String

abbrev AbsTime :=
  Int64

def maxFdAnnounces : Nat :=
  4096

def maxFdRetrievals : Nat :=
  256

def maxFdRetrievalSize : UInt64 :=
  500 * 1024

def millisecond : AbsTime :=
  1000000

def fdGatherSlack : AbsTime :=
  100 * millisecond

def fdArriveTimeout : AbsTime :=
  500 * millisecond

def fdFetchTimeout : AbsTime :=
  5000 * millisecond

structure FdMetadata where
  size : UInt32
  deriving DecidableEq

-- The channel message of `Notify`. It allocates both slices with one entry for each hash.
structure FdAnnounce where
  origin : Peer
  hashes : List Hash
  metas : List (Option FdMetadata)
  len_eq : metas.length = hashes.length

-- The channel message of `Enqueue`. It appends to both slices in lockstep.
structure FdDelivery where
  origin : Peer
  hashes : List Hash
  metas : List FdMetadata
  direct : Bool
  len_eq : metas.length = hashes.length

-- The set `stolen` is allocated lazily, a nil map and an empty one behave the same.
structure FdRequest where
  hashes : List Hash
  stolen : Finset Hash
  time : AbsTime

-- The calls that the loop makes on its callbacks.
inductive Call
  | fetchFds (peer : Peer) (hashes : List Hash)
  | dropPeer (peer : Peer)

-- A set of peers that is shared by reference and that may be the nil map.
abbrev Origins :=
  Option (Finset Peer)

-- The announcements of each peer with their metadata. The inner maps are always allocated, while
-- the metadata may be the nil pointer.
abbrev Tracker :=
  GoMap Peer (GoMap Hash (Option FdMetadata))

structure State where
  waitlist : GoMap Hash Origins
  waittime : GoMap Hash AbsTime
  waitslots : Tracker
  announces : Tracker
  announced : GoMap Hash Origins
  fetching : GoMap Hash Peer
  requests : GoMap Peer FdRequest
  alternates : GoMap Hash Origins
  calls : List Call

def State.init : State where
  waitlist := ∅
  waittime := ∅
  waitslots := ∅
  announces := ∅
  announced := ∅
  fetching := ∅
  requests := ∅
  alternates := ∅
  calls := []

-- The ways in which the loop can crash: the four panics, and the dereference of
-- `f.requests[origin]` when a stolen delivery is recorded.
inductive Panic
  | announceContainsWaitlist
  | timeoutContainsAlternate
  | deliveryContainsAlternate
  | alternateContainsFetching
  | missingRequest
  deriving DecidableEq

-- What the runtime decides during one iteration: the clock readings, and the order of each `range`
-- loop.
structure Oracle where
  hashClock : Hash → AbsTime
  peerClock : Peer → AbsTime
  requestClock : Peer → AbsTime
  waitOrder : IterOrder Hash
  originOrder : Hash → IterOrder Peer
  requestOrder : IterOrder Peer
  slotOrder : Hash → IterOrder Peer
  peerOrder : IterOrder Peer
  announceOrder : Peer → IterOrder Hash

namespace Tracker

def of (m : Tracker) (peer : Peer) : GoMap Hash (Option FdMetadata) :=
  (m.get peer).getD ∅

def track (m : Tracker) (peer : Peer) (hash : Hash) (md : Option FdMetadata) : Tracker :=
  m.set peer <| (m.of peer).set hash md

-- Removes an announcement, and the inner map as well if it is empty afterwards.
def untrack (m : Tracker) (peer : Peer) (hash : Hash) : Tracker :=
  let inner := (m.of peer).del hash
  if inner.len = 0 then m.del peer else m.set peer inner

-- Peer `peer` has an announcement of `hash` in the tracker.
def Tracks (m : Tracker) (peer : Peer) (hash : Hash) : Prop :=
  hash ∈ m.of peer

instance {m : Tracker} {peer : Peer} {hash : Hash} : Decidable (m.Tracks peer hash) :=
  inferInstanceAs <| Decidable (hash ∈ m.of peer)

variable {m : Tracker} {p q : Peer} {h h' : Hash} {md : Option FdMetadata}

@[simp, grind =]
theorem tracks_track : (m.track p h md).Tracks q h' ↔ (q = p ∧ h' = h) ∨ m.Tracks q h' := by
  by_cases hq : q = p
  case pos => subst hq; simp [Tracks, of, track]
  case neg => simp [Tracks, of, track, GoMap.get_set, hq]

@[simp, grind =]
theorem tracks_untrack : (m.untrack p h).Tracks q h' ↔ ¬(q = p ∧ h' = h) ∧ m.Tracks q h' := by
  by_cases hq : q = p
  case neg =>
    unfold untrack
    dsimp only
    split <;> simp [Tracks, of, GoMap.get_set, GoMap.get_del, hq]
  case pos =>
    subst hq
    unfold untrack
    dsimp only
    split
    case isFalse => simp [Tracks, of]
    case isTrue hz =>
      -- The inner map is dropped because `h` was the only announcement in it.
      have hz := GoMap.len_eq_zero.mp hz h'
      simp only [GoMap.get_eq_none, GoMap.mem_del, not_and] at hz
      simp [Tracks, of] at hz ⊢
      exact hz

@[simp]
theorem not_tracks_empty : ¬Tracks ∅ p h := by
  simp [Tracks, of]

theorem tracks_iff : m.Tracks p h ↔ ∃ inner, m.get p = some inner ∧ h ∈ inner := by
  cases hm : m.get p <;> simp [Tracks, of, hm]

end Tracker
end Fetcher
