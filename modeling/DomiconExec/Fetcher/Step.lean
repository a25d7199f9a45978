import DomiconExec.Primitives.Transition
import DomiconExec.Fetcher.State

namespace Fetcher

-- The events that `loop` selects on. The two timers may fire at any time.
inductive Event
  | notify (ann : FdAnnounce)
  | waitTrigger
  | timeoutTrigger
  | cleanup (delivery : FdDelivery)
  | drop (peer : Peer)

def origins (m : GoMap Hash Origins) (hash : Hash) : Origins :=
  (m.get hash).join

namespace State

-- The loop of `forEachAnnounce` within `scheduleFetches`. It returns the allocated hashes.
def allocate (peer : Peer) (announces : GoMap Hash (Option FdMetadata)) :
    List Hash → State → List Hash → UInt64 → Except Panic (State × List Hash)
  | [], s, hashes, _ => .ok (s, hashes)
  | hash :: rest, s, hashes, bytes =>
    if hash ∈ s.fetching then
      allocate peer announces rest s hashes bytes
    else if hash ∈ s.alternates then
      .error .alternateContainsFetching
    else
      let s := { s with
        fetching := s.fetching.set hash peer
        alternates := s.alternates.set hash (origins s.announced hash)
        announced := s.announced.del hash
      }
      let hashes := hashes ++ [hash]
      if hashes.length ≥ maxFdRetrievals then
        .ok (s, hashes)
      else
        match (announces.get hash).join with
        | none => allocate peer announces rest s hashes bytes
        | some md =>
          let bytes := bytes + md.size.toUInt64
          if bytes ≥ maxFdRetrievalSize then
            .ok (s, hashes)
          else
            allocate peer announces rest s hashes bytes

def schedulePeer (o : Oracle) (s : State) (peer : Peer) : Except Panic State := do
  if peer ∈ s.requests then
    return s
  let announces := s.announces.of peer
  if announces.len = 0 then
    return s
  let (s, hashes) ← allocate peer announces ((o.announceOrder peer).list announces.keys) s [] 0
  if hashes.length > 0 then
    return { s with
      requests := s.requests.set peer { hashes, stolen := ∅, time := o.requestClock peer }
      calls := s.calls ++ [.fetchFds peer hashes]
    }
  return s

def scheduleFetches (o : Oracle) (s : State) (whitelist : Option (Finset Peer)) :
    Except Panic State :=
  let actives := whitelist.getD s.announces.keys
  (o.peerOrder.list actives).foldlM (schedulePeer o) s

def notifyHash (o : Oracle) (origin : Peer) (s : State) : Hash × Option FdMetadata → State
  | (hash, md) =>
    match origins s.alternates hash with
    | some alternates =>
      { s with
        alternates := s.alternates.set hash (some (insert origin alternates))
        announces := s.announces.track origin hash md
      }
    | none =>
      match origins s.announced hash with
      | some announced =>
        { s with
          announced := s.announced.set hash (some (insert origin announced))
          announces := s.announces.track origin hash md
        }
      | none =>
        match origins s.waitlist hash with
        | some waitlist =>
          if origin ∈ waitlist then
            s
          else
            { s with
              waitlist := s.waitlist.set hash (some (insert origin waitlist))
              waitslots := s.waitslots.track origin hash md
            }
        | none =>
          { s with
            waitlist := s.waitlist.set hash (some {origin})
            waittime := s.waittime.set hash (o.hashClock hash)
            waitslots := s.waitslots.track origin hash md
          }

def used (s : State) (peer : Peer) : Nat :=
  (s.waitslots.of peer).len + (s.announces.of peer).len

-- The entries of an announcement that are left after the truncation. The slice expression keeps a
-- prefix whose length is the number of excess entries.
def considered (s : State) (ann : FdAnnounce) : List (Hash × Option FdMetadata) :=
  let want := s.used ann.origin + ann.hashes.length
  let entries := ann.hashes.zip ann.metas
  if want > maxFdAnnounces then entries.take (want - maxFdAnnounces) else entries

def notify (o : Oracle) (s : State) (ann : FdAnnounce) : Except Panic State :=
  if s.used ann.origin ≥ maxFdAnnounces then
    .ok s
  else
    let oldPeer := ann.origin ∈ s.announces
    let s' := (s.considered ann).foldl (notifyHash o ann.origin) s
    if oldPeer ∧ (s'.announces.of ann.origin).len > 0 then
      s'.scheduleFetches o (some {ann.origin})
    else
      .ok s'

def promotePeer (hash : Hash) (s : State) (peer : Peer) : State :=
  { s with
    announces := s.announces.track peer hash ((s.waitslots.of peer).get hash).join
    waitslots := s.waitslots.untrack peer hash
  }

def expired (o : Oracle) (hash : Hash) (instant : AbsTime) : Prop :=
  o.hashClock hash - instant + fdGatherSlack > fdArriveTimeout

instance {o : Oracle} {hash : Hash} {instant : AbsTime} : Decidable (expired o hash instant) :=
  inferInstanceAs <| Decidable (_ > _)

def promote (o : Oracle) : State × Finset Peer → Hash → Except Panic (State × Finset Peer)
  | (s, actives), hash =>
    match s.waittime.get hash with
    | none => .ok (s, actives)
    | some instant =>
      if expired o hash instant then
        if (origins s.announced hash).isSome then
          .error .announceContainsWaitlist
        else
          let peers := (origins s.waitlist hash).getD ∅
          let s := { s with announced := s.announced.set hash (origins s.waitlist hash) }
          let s := ((o.originOrder hash).list peers).foldl (promotePeer hash) s
          let s := { s with waittime := s.waittime.del hash, waitlist := s.waitlist.del hash }
          .ok (s, actives ∪ peers)
      else
        .ok (s, actives)

def waitTrigger (o : Oracle) (s : State) : Except Panic State := do
  let (s, actives) ← (o.waitOrder.list s.waittime.keys).foldlM (promote o) (s, ∅)
  if actives.card > 0 then
    s.scheduleFetches o (some actives)
  else
    return s

-- Moves an undelivered hash of a timed out request back from fetching to queued.
def requeueHash (peer : Peer) (stolen : Finset Hash) (s : State) (hash : Hash) :
    Except Panic State :=
  if hash ∈ stolen then
    .ok s
  else if hash ∈ s.announced then
    .error .timeoutContainsAlternate
  else
    let rest := ((origins s.alternates hash).getD ∅).erase peer
    .ok { s with
      announced := if rest.card = 0 then s.announced else s.announced.set hash (some rest)
      alternates := s.alternates.del hash
      fetching := s.fetching.del hash
    }

def timedOut (o : Oracle) (peer : Peer) (req : FdRequest) : Prop :=
  o.peerClock peer - req.time + 100 * millisecond > fdFetchTimeout

instance {o : Oracle} {peer : Peer} {req : FdRequest} : Decidable (timedOut o peer req) :=
  inferInstanceAs <| Decidable (_ > _)

def timeoutPeer (o : Oracle) (s : State) (peer : Peer) : Except Panic State :=
  match s.requests.get peer with
  | none => .ok s
  | some req =>
    if timedOut o peer req then do
      let s ← req.hashes.foldlM (requeueHash peer req.stolen) s
      return { s with
        announces := if (s.announces.of peer).len = 0 then s.announces.del peer else s.announces
        requests := s.requests.set peer { req with hashes := [] }
      }
    else
      .ok s

def timeoutTrigger (o : Oracle) (s : State) : Except Panic State := do
  let s ← (o.requestOrder.list s.requests.keys).foldlM (timeoutPeer o) s
  s.scheduleFetches o none

-- The announced size may be off by up to eight bytes before the peer is dropped for it.
def mismatch (md : FdMetadata) : Option (Option FdMetadata) → Bool
  | some (some announced) => ((md.size.toNat : Int) - announced.size.toNat).natAbs > 8
  | _ => false

-- Removes a delivered hash from one peer of a tracker, and drops a peer that lied about the size.
def deliverPeer (hash : Hash) (md : FdMetadata) :
    Tracker × List Call → Peer → Tracker × List Call
  | (m, calls), peer =>
    let bad := mismatch md ((m.of peer).get hash)
    (m.untrack peer hash, if bad then calls ++ [.dropPeer peer] else calls)

-- Marks a hash as delivered by someone else if it is being fetched from another origin.
def steal (delivery : FdDelivery) (s : State) (hash : Hash) : Except Panic State :=
  match s.fetching.get hash with
  | none => .ok s
  | some origin =>
    if origin ≠ delivery.origin ∨ ¬delivery.direct then
      match s.requests.get origin with
      | none => .error .missingRequest
      | some req =>
        .ok { s with
          requests := s.requests.set origin { req with stolen := insert hash req.stolen }
        }
    else
      .ok s

def deliverHash (o : Oracle) (delivery : FdDelivery) (s : State) :
    Hash × FdMetadata → Except Panic State
  | (hash, md) =>
    if hash ∈ s.waitlist then
      let peers := (o.slotOrder hash).list s.waitslots.keys
      let (waitslots, calls) := peers.foldl (deliverPeer hash md) (s.waitslots, s.calls)
      .ok { s with
        waitslots, calls
        waitlist := s.waitlist.del hash
        waittime := s.waittime.del hash
      }
    else do
      let peers := (o.slotOrder hash).list s.announces.keys
      let (announces, calls) := peers.foldl (deliverPeer hash md) (s.announces, s.calls)
      let s := { s with
        announces, calls
        announced := s.announced.del hash
        alternates := s.alternates.del hash
      }
      let s ← s.steal delivery hash
      return { s with fetching := s.fetching.del hash }

-- The position of the last requested hash that was delivered. The hashes before it were left out by
-- the peer, those after it may have been cut off.
def cutoff (req : FdRequest) (delivered : List Hash) : Nat :=
  (req.hashes.zipIdx.foldl (fun c (hash, i) => if hash ∈ delivered then i else c)) req.hashes.length

-- Moves a hash of an answered request out of fetching. If it was not delivered, it is queued again.
def settleHash (delivery : FdDelivery) (req : FdRequest) (s : State) :
    Hash × Nat → Except Panic State
  | (hash, i) =>
    if hash ∈ req.stolen then
      .ok s
    else if hash ∈ delivery.hashes then
      .ok { s with alternates := s.alternates.del hash, fetching := s.fetching.del hash }
    else
      let refused := i < cutoff req delivery.hashes
      let origins := (origins s.alternates hash).getD ∅
      let rest := if refused then origins.erase delivery.origin else origins
      let announces := if refused then s.announces.untrack delivery.origin hash else s.announces
      if rest.card > 0 ∧ hash ∈ s.announced then
        .error .deliveryContainsAlternate
      else
        .ok { s with
          announces
          announced := if rest.card > 0 then s.announced.set hash (some rest) else s.announced
          alternates := s.alternates.del hash
          fetching := s.fetching.del hash
        }

def cleanup (o : Oracle) (s : State) (delivery : FdDelivery) : Except Panic State := do
  let s ← (delivery.hashes.zip delivery.metas).foldlM (deliverHash o delivery) s
  if delivery.direct then
    match s.requests.get delivery.origin with
    | none => return s
    | some req =>
      let s := { s with requests := s.requests.del delivery.origin }
      let s ← req.hashes.zipIdx.foldlM (settleHash delivery req) s
      s.scheduleFetches o none
  else
    return s

-- Moves an undelivered hash of a dropped peer back to queued if there is another origin for it.
def releaseHash (peer : Peer) (stolen : Finset Hash) (s : State) (hash : Hash) : State :=
  if hash ∈ stolen then
    s
  else
    let rest := ((origins s.alternates hash).getD ∅).erase peer
    { s with
      announced := if rest.card = 0 then s.announced else s.announced.set hash (some rest)
      alternates := s.alternates.del hash
      fetching := s.fetching.del hash
    }

def drop (o : Oracle) (s : State) (peer : Peer) : Except Panic State :=
  match s.requests.get peer with
  | none => .ok s
  | some req =>
    let s := req.hashes.foldl (releaseHash peer req.stolen) s
    let s := { s with requests := s.requests.del peer }
    s.scheduleFetches o none

def step (s : State) : Oracle × Event → Except Panic State
  | (o, .notify ann)       => s.notify o ann
  | (o, .waitTrigger)      => s.waitTrigger o
  | (o, .timeoutTrigger)   => s.timeoutTrigger o
  | (o, .cleanup delivery) => s.cleanup o delivery
  | (o, .drop peer)        => s.drop o peer

end State

def machine : Transition.System State (Oracle × Event) Panic where
  init := State.init
  step := State.step

end Fetcher
