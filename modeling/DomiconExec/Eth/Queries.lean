import DomiconExec.Eth.Handler

namespace Eth

open Db

-- What a lookup returns, and the hashes of the events that it sends to `fileDataHashFeed`.
structure Found where
  da : Option DA
  err : Option Error
  events : List (List Hash)

-- The loop of `GetDAByCommit`. Each attempt finds its own content of the pool and of the database,
-- where `read` returns an error, a pointer to data or nil.
def lookupCommit (get : Nat → Option DA) (read : Nat → Except GoPanic (Except Error (Option DA)))
    (cmHash : Hash) (getTimes : Nat) : Except GoPanic Found :=
  match get getTimes with
  | some fd => .ok ⟨some fd, none, []⟩
  | none => do
    match ← read getTimes with
    | .error err    => return ⟨none, some err, []⟩
    | .ok (some da) => return ⟨some da, none, []⟩
    | .ok none      =>
      let events := if getTimes < 1 then [[cmHash]] else []
      if getTimes + 1 ≤ 1 then
        let r ← lookupCommit get read cmHash (getTimes + 1)
        return { r with events := events ++ r.events }
      else
        return ⟨none, none, events⟩
termination_by 2 - getTimes

namespace Backend

-- The method `GetDAByCommit` of the pool. An error of `SetBytes` is ignored.
def getDAByCommit (ctx : Context) (b : Nat → Backend) (commit : Bytes) : Except GoPanic Found :=
  let cmHash := (ctx.setBytes commit).fst.hash
  lookupCommit (fun i => (b i).pool.all.get cmHash |>.map ctx.heap)
    (fun i => (·.map some) <$> getDAByCommitment ctx.setBytes (b i).das commit) cmHash 0

def get (ctx : Context) (b : Backend) (hash : Hash) : Except GoPanic Found :=
  match b.pool.all.get hash with
  | some fd => .ok ⟨some (ctx.heap fd), none, []⟩
  | none => do
    match ← getCommitmentByTxHash ctx.setBytes b.das hash with
    | .ok da   => return ⟨some da, none, []⟩
    | .error _ =>
      match ← getDAByCommitmentHash ctx.setBytes b.das hash with
      | .ok da   => return ⟨some da, none, []⟩
      | .error _ => return ⟨none, none, [[hash]]⟩

end Backend

namespace EthAPIBackend

def getDAByCommitment (ctx : Context) (b : Nat → Backend) (commit : Bytes) :
    Except GoPanic Found := do
  let r ← Backend.getDAByCommit ctx b commit
  return if r.da.isSome then { r with err := none } else r

-- The loop of `GetBatchDAsByCommitments`. For each commitment either the data or the error is set.
def getBatchDAsByCommitments (ctx : Context) (b : Backend) (commitments : List Bytes) :
    Except GoPanic (List Found) :=
  commitments.mapM fun commitment => do
    let r ← b.get ctx (bytesToHash commitment)
    return if r.da.isSome then { r with err := none } else r

end EthAPIBackend
end Eth
