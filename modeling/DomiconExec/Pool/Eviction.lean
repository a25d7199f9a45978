import DomiconExec.Pool.Journal

namespace FilePool

-- The 24 hours after which data is evicted, in seconds.
def inactivity : Int :=
  24 * 3600

def heartbeat (fp : FilePool) (hash : Hash) : GoTime :=
  (fp.beats.get hash).getD .zero

def stale (now : GoTime) (fp : FilePool) (hash : Hash) : Bool :=
  ((fp.heartbeat hash).addSec inactivity).before now

-- The body of the inner loop. The loop over `diskCache` deletes the entry with the same hash.
def evictHash (fp : FilePool) (txHash : Hash) : FilePool :=
  if txHash ∈ fp.collector then
    (removeFileData { fp with diskCache := fp.diskCache.del txHash } txHash).fst
  else
    fp

-- The case of `loop` that the ticker `evict` triggers. Hashes that were deleted meanwhile are not
-- visited. Each run of the inner loop has an order of its own.
def evict (order : IterOrder Hash) (innerOrder : Hash → IterOrder Hash) (now : GoTime)
    (fp : FilePool) : FilePool :=
  (order.list fp.collector.keys).foldl (fun fp hash =>
    if hash ∈ fp.collector ∧ fp.stale now hash then
      ((innerOrder hash).list fp.collector.keys).foldl evictHash fp
    else
      fp) fp

namespace Life

-- What happens to a pool while it is running: its methods are called, and its tickers fire.
inductive Event
  | journal (op : Journal.Op)
  | evict (order : IterOrder Hash) (innerOrder : Hash → IterOrder Hash) (now : GoTime)
  | remove (order : IterOrder Hash) (now : GoTime)
  | addInToDisk (hash : Hash) (receive : GoTime)

def step (path : String) (fp : FilePool) : Event → Except GoPanic FilePool
  | .journal op                 => Journal.step path fp op
  | .evict order innerOrder now => .ok (fp.evict order innerOrder now)
  | .remove order now           =>
    .ok { fp with diskCache := (removeExpired order now fp.diskCache).fst }
  | .addInToDisk hash receive   => .ok { fp with diskCache := fp.diskCache.set hash receive }

def machine (config : Config) (path nodeType : String) (file : List (Ref × Bytes)) :
    Transition.System FilePool Event GoPanic where
  init := (Journal.machine config path nodeType file).init
  step := step path

end Life
end FilePool
