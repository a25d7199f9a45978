import DomiconExec.Fetcher.Step
import DomiconExec.Pool.Step

-- The size of the encoding, or 0 if the data cannot be encoded.
def DA.size (da : DA) : UInt64 :=
  match da.encode with
  | .error _ => 0
  | .ok b    => .ofNat b.length

namespace Fetcher

open FilePool (Ref Heap Env)

def errTerminated : GoError :=
  ⟨"terminated"⟩

def send (quit : Bool) (e : Event) : Option Event × Option GoError :=
  if quit then (none, some errTerminated) else (some e, none)

def FdAnnounce.of (origin : Peer) (l : List (Hash × FdMetadata)) : FdAnnounce where
  origin := origin
  hashes := l.map Prod.fst
  metas := l.map (some ·.snd)
  len_eq := by simp

-- The loop of `Notify` collects the hashes that the pool does not have, with the sizes next to
-- them.
def unknown (hasFd : Hash → Bool) (sizes : List UInt32) :
    Nat → List Hash → Except GoPanic (List (Hash × FdMetadata))
  | _, [] => .ok []
  | i, hash :: hashes =>
    if hasFd hash then
      unknown hasFd sizes (i + 1) hashes
    else
      match sizes[i]? with
      | none      => .error .indexOutOfRange
      | some size => do
        let rest ← unknown hasFd sizes (i + 1) hashes
        return (hash, ⟨size⟩) :: rest

def notify (quit : Bool) (pool : FilePool) (peer : Peer) (sizes : List UInt32)
    (hashes : List Hash) : Except GoPanic (Option Event × Option GoError) := do
  let l ← unknown (fun hash => (pool.all.get hash).isSome) sizes 0 hashes
  if l.length = 0 then
    return (none, none)
  else
    return send quit (.notify (.of peer l))

def FdDelivery.of (origin : Peer) (l : List (Hash × FdMetadata)) (direct : Bool) :
    FdDelivery where
  origin := origin
  hashes := l.map Prod.fst
  metas := l.map Prod.snd
  direct := direct
  len_eq := by simp

def reported (heap : Heap) (fd : Ref) : Hash × FdMetadata :=
  ((heap fd).txHash, ⟨(heap fd).size.toUInt32⟩)

-- The body of the loop over the errors of a batch. The errors themselves are only counted.
def report (heap : Heap) (batch : List Ref) (l : List (Hash × FdMetadata)) (j : Nat) :
    Except GoPanic (List (Hash × FdMetadata)) :=
  match batch[j]? with
  | none    => .error .indexOutOfRange
  | some fd => .ok (l ++ [reported heap fd])

def batchSize : Nat :=
  128

def batch (fds : List Ref) (i : Nat) : List Ref :=
  fds.drop (batchSize * i) |>.take batchSize

-- The body of the loop over the batches, each of which finds its own surroundings.
def enqueueBatch (heap : Heap) (env : Nat → Env) (fds : List Ref) :
    FilePool × List (Hash × FdMetadata) → Nat →
    Except GoPanic (FilePool × List (Hash × FdMetadata))
  | (pool, l), i => do
    let r ← pool.add { env i with heap } (batch fds i) false
    let l ← (List.range r.errs.length).foldlM (report heap (batch fds i)) l
    return (r.pool, l)

def batches (fds : List Ref) : Nat :=
  (fds.length + batchSize - 1) / batchSize

def enqueue (quit : Bool) (heap : Heap) (env : Nat → Env) (pool : FilePool) (peer : Peer)
    (fds : List Ref) (direct : Bool) :
    Except GoPanic (FilePool × Option Event × Option GoError) := do
  let (pool, l) ← (List.range (batches fds)).foldlM (enqueueBatch heap env fds) (pool, [])
  return (pool, send quit (.cleanup (.of peer l direct)))
end Fetcher
