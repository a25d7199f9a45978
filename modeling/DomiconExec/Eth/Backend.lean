import DomiconExec.Objects.Signing
import DomiconExec.Pool.Step

namespace Eth

open FilePool (Ref Heap Env)

-- What the interface for clients finds around it.
structure EthAPIBackend (PrivateKey : Type) where
  crypto : Crypto PrivateKey
  config : ChainConfig
  prv : PrivateKey
  sdk : KzgSdk
  -- What is in a variable after decoding into it failed.
  leftover : DA → Bytes → DA

namespace EthAPIBackend

variable {PrivateKey : Type}

-- The variables of the loop of `SendBatchDA`, with a signature and an error for each item so far.
structure Batch where
  pool : FilePool
  heap : Heap
  outcomes : List (Option Bytes × Option GoError)

-- The body of the loop. All items are decoded into the variable at `da`, which the pool gets as
-- well. The error of the decoding is lost.
def sendDA (b : EthAPIBackend PrivateKey) (env : Nat → Env) (da : Ref) (s : Batch) (data : Bytes) :
    Except GoPanic Batch :=
  match (s.heap da).decode data with
  | .error _ =>
    let heap := Function.update s.heap da (b.leftover (s.heap da) data)
    .ok ⟨s.pool, heap, s.outcomes ++ [(none, none)]⟩
  | .ok fd =>
    match SingerTool.verifyEth b.sdk fd with
    | (true, none) => do
      let env := env s.outcomes.length
      let fd := { fd with receiveAt := env.now }
      let heap := Function.update s.heap da fd
      let r ← s.pool.add { env with heap } [da] true
      let sign ← SingerTool.sign b.crypto b.config b.prv fd
      return ⟨r.pool, heap, s.outcomes ++ [(some sign, none)]⟩
    | (_, err) => .ok ⟨s.pool, Function.update s.heap da fd, s.outcomes ++ [(none, err)]⟩

-- The variable is a new one. Each item finds its own surroundings.
def sendBatchDA (b : EthAPIBackend PrivateKey) (env : Nat → Env) (da : Ref) (pool : FilePool)
    (heap : Heap) (datas : List Bytes) : Except GoPanic Batch :=
  datas.foldlM (b.sendDA env da) ⟨pool, Function.update heap da .zero, []⟩

end EthAPIBackend
end Eth
