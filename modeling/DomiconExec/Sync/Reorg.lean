import DomiconExec.Sync.Block

namespace Sync

-- The answers of the underlying chain and of the database, where `none` stands for an error.
structure Sources where
  blockByNumber : Nat → Option EthBlock
  blockByHash : Hash → Option EthBlock
  getBlockByHash : Hash → Option EthBlock

inductive Stop
  | nilDereference
  | outOfFuel
deriving DecidableEq

-- The error of `blockByNumber` is only logged, so that the hash of a missing block is accessed. The
-- block in the last line is the argument of the function, neither its parent nor the result of the
-- recursive call.
def checkReorg (s : Sources) (genesisBlockNumber : Nat) :
    Nat → EthBlock → Except Stop (Bool × EthBlock)
  | 0, _ => .error .outOfFuel
  | fuel + 1, block =>
    if block.hash = .zero then
      .ok (false, block)
    else
      match s.blockByNumber block.number with
      | none => .error .nilDereference
      | some l1Block =>
        if block.hash = l1Block.hash then
          .ok (false, block)
        else
          match s.blockByHash block.parentHash with
          | some _ => .ok (true, block)
          | none =>
            match s.getBlockByHash block.parentHash with
            | none => .error .nilDereference
            | some parent =>
              if parent.number = genesisBlockNumber then
                .ok (true, parent)
              else
                match checkReorg s genesisBlockNumber fuel parent with
                | .error stop => .error stop
                | .ok _       => .ok (true, block)

end Sync
