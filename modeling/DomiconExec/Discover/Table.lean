import DomiconExec.Discover.Netutil
import DomiconExec.Primitives.Search
import DomiconExec.Primitives.Transition

namespace Enode

def distCmp (target a b : Bytes) : Ordering :=
  match target, a, b with
  | t :: target, x :: a, y :: b =>
    let da := x ^^^ t
    let db := y ^^^ t
    if da > db then .gt else if da < db then .lt else distCmp target a b
  | _, _, _ => .eq

def leadingZeros8 (x : UInt8) : Nat :=
  if x = 0 then 8 else 7 - x.toNat.log2

def commonBits : Bytes → Bytes → Nat
  | x :: a, y :: b =>
    if x ^^^ y = 0 then 8 + commonBits a b else leadingZeros8 (x ^^^ y)
  | _, _ => 0

def logDist (a b : Hash) : Nat :=
  a.val.length * 8 - commonBits a.val b.val

theorem logDist_le (a b : Hash) : logDist a b ≤ 256 := by
  rw [logDist, a.property]
  exact Nat.sub_le ..

-- The signed record of a node, as far as the table reads it.
structure Node where
  id : Hash
  seq : UInt64
  ip : IP
deriving DecidableEq

end Enode

namespace Discover
open Netutil

structure Node extends Enode.Node where
  livenessChecks : Nat
deriving DecidableEq

def bucketSize : Nat :=
  16

def maxReplacements : Nat :=
  10

def hashBits : Nat :=
  256

def nBuckets : Nat :=
  hashBits / 15

def bucketMinDistance : Nat :=
  hashBits - nBuckets

def bucketIPLimit : Nat :=
  2

def bucketSubnet : Nat :=
  24

def tableIPLimit : Nat :=
  10

def tableSubnet : Nat :=
  24

structure Bucket where
  entries : List Node := []
  replacements : List Node := []
  ips : DistinctNetSet := { subnet := bucketSubnet, limit := bucketIPLimit }

def Bucket.nodes (b : Bucket) : List Node :=
  b.entries ++ b.replacements

structure Table where
  self : Hash
  buckets : Fin nBuckets → Bucket := fun _ => {}
  ips : DistinctNetSet := { subnet := tableSubnet, limit := tableIPLimit }

def contains (ns : List Node) (id : Hash) : Bool :=
  ns.any (·.id = id)

def pushNode (list : List Node) (n : Node) (max : Nat) : List Node × Option Node :=
  if list.length < max then (n :: list, none) else (n :: list.dropLast, list.getLast?)

def deleteNode (list : List Node) (n : Node) : List Node :=
  list.eraseP (·.id = n.id)

namespace Table

def bucketAtDistance (d : Nat) (h : d ≤ hashBits) : Fin nBuckets :=
  if d ≤ bucketMinDistance then
    ⟨0, by decide⟩
  else
    ⟨d - bucketMinDistance - 1, by simp only [bucketMinDistance, nBuckets, hashBits] at *; omega⟩

def bucket (tab : Table) (id : Hash) : Fin nBuckets :=
  bucketAtDistance (Enode.logDist tab.self id) (Enode.logDist_le _ _)

def setBucket (tab : Table) (b : Fin nBuckets) (bucket : Bucket) : Table :=
  { tab with buckets := Function.update tab.buckets b bucket }

def addIP (tab : Table) (b : Fin nBuckets) (ip : IP) : Bool × Table :=
  if ip.length = 0 then
    (false, tab)
  else if isLAN ip then
    (true, tab)
  else
    match tab.ips.add ip with
    | (false, ips) => (false, { tab with ips })
    | (true, ips)  =>
      match (tab.buckets b).ips.add ip with
      | (false, _)      => (false, { tab with ips := ips.remove ip })
      | (true, bucketIPs) => (true, { tab with ips }.setBucket b { tab.buckets b with ips := bucketIPs })

def removeIP (tab : Table) (b : Fin nBuckets) (ip : IP) : Table :=
  if isLAN ip then
    tab
  else
    { tab with ips := tab.ips.remove ip }.setBucket b
      { tab.buckets b with ips := (tab.buckets b).ips.remove ip }

def setEntries (tab : Table) (b : Fin nBuckets) (entries : List Node) : Table :=
  tab.setBucket b { tab.buckets b with entries }

def setReplacements (tab : Table) (b : Fin nBuckets) (replacements : List Node) : Table :=
  tab.setBucket b { tab.buckets b with replacements }

def addReplacement (tab : Table) (b : Fin nBuckets) (n : Node) : Table :=
  if contains (tab.buckets b).replacements n.id then
    tab
  else
    match tab.addIP b n.ip with
    | (false, tab) => tab
    | (true, tab)  =>
      let (replacements, removed) := pushNode (tab.buckets b).replacements n maxReplacements
      let tab := tab.setReplacements b replacements
      match removed with
      | some removed => tab.removeIP b removed.ip
      | none         => tab

def bumpInBucket (tab : Table) (b : Fin nBuckets) (n : Node) : Bool × Table :=
  let entries := (tab.buckets b).entries
  match entries.find? (·.id = n.id) with
  | none   => (false, tab)
  | some e =>
    if n.ip.equal e.ip then
      (true, tab.setEntries b (n :: entries.eraseP (·.id = n.id)))
    else
      match (tab.removeIP b e.ip).addIP b n.ip with
      | (false, tab) => (false, (tab.addIP b e.ip).snd)
      | (true, tab)  => (true, tab.setEntries b (n :: entries.eraseP (·.id = n.id)))

def deleteInBucket (tab : Table) (b : Fin nBuckets) (n : Node) : Table :=
  if contains (tab.buckets b).entries n.id then
    (tab.setEntries b (deleteNode (tab.buckets b).entries n)).removeIP b n.ip
  else
    tab

-- Replaces the last entry, if it is still the given one, by the replacement that `pick` selects.
def replace (tab : Table) (b : Fin nBuckets) (last : Node) (pick : Nat) : Table :=
  let bucket := tab.buckets b
  if (bucket.entries.getLast?.map (·.id)) ≠ some last.id then
    tab
  else
    match bucket.replacements[pick % bucket.replacements.length]? with
    | none   => tab.deleteInBucket b last
    | some r =>
      (tab.setBucket b { bucket with
        entries := bucket.entries.dropLast ++ [r]
        replacements := deleteNode bucket.replacements r
      }).removeIP b last.ip

def addSeenNode (tab : Table) (n : Node) : Table :=
  if n.id = tab.self then
    tab
  else
    let b := tab.bucket n.id
    if contains (tab.buckets b).entries n.id then
      tab
    else if (tab.buckets b).entries.length ≥ bucketSize then
      tab.addReplacement b n
    else
      match tab.addIP b n.ip with
      | (false, tab) => tab
      | (true, tab)  =>
        tab.setBucket b { tab.buckets b with
          entries := (tab.buckets b).entries ++ [n]
          replacements := deleteNode (tab.buckets b).replacements n
        }

-- Nothing is added before the table has been initialised.
def addVerifiedNode (tab : Table) (initDone : Bool) (n : Node) : Table :=
  if !initDone then
    tab
  else if n.id = tab.self then
    tab
  else
    let b := tab.bucket n.id
    match tab.bumpInBucket b n with
    | (true, tab)  => tab
    | (false, tab) =>
      if (tab.buckets b).entries.length ≥ bucketSize then
        tab.addReplacement b n
      else
        match tab.addIP b n.ip with
        | (false, tab) => tab
        | (true, tab)  =>
          tab.setBucket b { tab.buckets b with
            entries := (pushNode (tab.buckets b).entries n bucketSize).fst
            replacements := deleteNode (tab.buckets b).replacements n
          }

def delete (tab : Table) (n : Node) : Table :=
  tab.deleteInBucket (tab.bucket n.id) n

-- The last entry of the first bucket in `perm` that is not empty.
def nodeToRevalidate (tab : Table) (perm : List (Fin nBuckets)) : Option (Node × Fin nBuckets) :=
  perm.findSome? fun bi => (tab.buckets bi).entries.getLast?.map (·, bi)

-- What happened to a node while the table was not locked.
structure Ping where
  remoteSeq : UInt64
  err : Option GoError
  requestENR : Except GoError Enode.Node

-- The node with a newer record, if it has announced one.
def Ping.refresh (p : Ping) (last : Node) : Node :=
  if last.seq < p.remoteSeq then
    match p.requestENR with
    | .ok n    => { n with livenessChecks := last.livenessChecks }
    | .error _ => last
  else
    last

-- The part of `doRevalidate` after the ping.
def finishRevalidate (tab : Table) (last : Node) (bi : Fin nBuckets) (p : Ping) (pick : Nat) :
    Table :=
  let last := p.refresh last
  match p.err with
  | none   => (tab.bumpInBucket bi { last with livenessChecks := last.livenessChecks + 1 }).snd
  | some _ => tab.replace bi last pick

structure NodesByDistance where
  entries : List Node := []
  target : Hash

def NodesByDistance.farther (h : NodesByDistance) (n : Node) (i : Nat) : Bool :=
  h.entries[i]?.any fun e => Enode.distCmp h.target.val e.id.val n.id.val = .gt

-- Existing entries are moved to make room, the last one may be overwritten.
def slide (entries : List Node) (ix : Nat) (n : Node) (maxElems : Nat) : List Node :=
  let grown := if entries.length < maxElems then entries ++ [n] else entries
  if ix < entries.length then grown.take ix ++ n :: (grown.drop ix).dropLast else grown

def NodesByDistance.push (h : NodesByDistance) (n : Node) (maxElems : Nat) : NodesByDistance :=
  { h with entries := slide h.entries (search h.entries.length (h.farther n)) n maxElems }

def entries (tab : Table) : List Node :=
  (List.ofFn fun i => (tab.buckets i).entries).flatten

def nodes (tab : Table) : List Node :=
  (List.ofFn fun i => (tab.buckets i).nodes).flatten

def findnodeByID (tab : Table) (target : Hash) (nresults : Nat) (preferLive : Bool) :
    NodesByDistance :=
  let nodes := tab.entries.foldl (·.push · nresults) { target }
  let liveNodes := tab.entries.foldl
    (fun h n => if preferLive && n.livenessChecks > 0 then h.push n nresults else h) { target }
  if preferLive && liveNodes.entries.length > 0 then liveNodes else nodes
end Table

-- A table with the revalidations that have been started and are not finished yet.
structure Session where
  tab : Table
  revalidations : List (Node × Fin nBuckets) := []

inductive Event
  | addSeenNode (n : Node)
  | addVerifiedNode (initDone : Bool) (n : Node)
  | delete (n : Node)
  | startRevalidate (perm : List (Fin nBuckets))
  -- The revalidation with this index is finished.
  | finishRevalidate (i : Nat) (p : Table.Ping) (pick : Nat)

def Session.step (s : Session) : Event → Session
  | .addSeenNode n              => { s with tab := s.tab.addSeenNode n }
  | .addVerifiedNode initDone n => { s with tab := s.tab.addVerifiedNode initDone n }
  | .delete n                   => { s with tab := s.tab.delete n }
  | .startRevalidate perm       =>
    { s with revalidations := s.revalidations ++ (s.tab.nodeToRevalidate perm).toList }
  | .finishRevalidate i p pick  =>
    match s.revalidations[i]? with
    | none            => s
    | some (last, bi) => {
        tab := s.tab.finishRevalidate last bi p pick
        revalidations := s.revalidations.eraseIdx i
      }

def sessions (self : Hash) : Transition.System Session Event GoPanic where
  init := { tab := { self } }
  step s e := .ok (s.step e)
end Discover
