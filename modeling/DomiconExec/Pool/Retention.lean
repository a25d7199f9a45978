import DomiconExec.Db.DAData
import DomiconExec.Pool.State

namespace FilePool

open Sql Db

-- The end of `Init`: a node of type "b" looks up which data is stored on disk.
def initDiskCache (setBytes : SetBytes) (t : Table DARow) (fp : FilePool) : FilePool :=
  if fp.nodeType = "b" then
    { fp with
      diskCache := (getAllDARecords setBytes t).foldl (fun hashes da =>
        hashes.set da.txHash da.receiveAt |>.set da.commitment.hash da.receiveAt) fp.diskCache
    }
  else
    fp

def retention : Int :=
  14 * 24 * 3600

def expires (receive now : GoTime) : Bool :=
  (receive.addSec retention).before now

-- The body of the loop over `diskCache`, with the hashes for which `DeleteDAByHash` is called.
def removeHash (now : GoTime) (s : GoMap Hash GoTime × List Hash) (hash : Hash) :
    GoMap Hash GoTime × List Hash :=
  match s.fst.get hash with
  | none => s
  | some receive =>
    if expires receive now then (s.fst.del hash, s.snd ++ [hash]) else s

def removeExpired (order : IterOrder Hash) (now : GoTime) (hashes : GoMap Hash GoTime) :
    GoMap Hash GoTime × List Hash :=
  (order.list hashes.keys).foldl (removeHash now) (hashes, [])

def removeTicks (hashes : GoMap Hash GoTime) :
    List (IterOrder Hash × GoTime) → List (List Hash)
  | [] => []
  | (order, now) :: ticks =>
    let (hashes, calls) := removeExpired order now hashes
    calls :: removeTicks hashes ticks

end FilePool
