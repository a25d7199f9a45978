import DomiconExec.Primitives.Transition
import DomiconExec.Sync.Block

namespace Sync

-- A timer is set, or it has expired and its tick is in its channel, or the tick has been received.
inductive Timer
  | set
  | expired
  | consumed
deriving DecidableEq

def Timer.expire : Timer → Timer
  | .set => .expired
  | t    => t

-- Where `startSyncWithNum` is: it waits for its timer or for the end of the context, or for the
-- answer to a request, or it processes a block, or it is about to write `forced` and to return.
inductive Follow.Pc
  | select
  | blockByNumber
  | blockNumber (block : EthBlock)
  | processBlocks (block : EthBlock)
  | clear
  | returned

-- The variables of `startSyncWithNum`.
structure Follow where
  num : UInt64
  timer : Timer
  pc : Follow.Pc

namespace Follow

def start (num : UInt64) : Follow where
  num := num
  timer := .set
  pc := .select

-- The error of `BlockNumber` is ignored, its number is used in any case.
inductive Event
  | expire
  | tick
  | done
  | blockByNumber (answer : Except GoError (Option EthBlock))
  | blockNumber (currentNum : UInt64)
  | processBlocks
  | clear

def compare (s : Follow) (block : EthBlock) (currentNum : UInt64) : Follow :=
  if block.numberU64 = currentNum then
    { s with pc := .clear }
  else if block.numberU64 < currentNum then
    { num := s.num + 1, timer := .set, pc := .processBlocks block }
  else
    { s with pc := .returned }

-- A step of `startSyncWithNum` with `forced` after it. Other events have no effect. The result of
-- `processBlocks` is ignored.
def step (cancelled forced : Bool) (s : Follow) (e : Event) : Follow × Bool :=
  match s.pc, e with
  | _, .expire =>
    ({ s with timer := s.timer.expire }, forced)
  | .select, .tick =>
    (if s.timer = .expired then { s with timer := .consumed, pc := .blockByNumber } else s, forced)
  | .select, .done =>
    (if cancelled then { s with pc := .returned } else s, forced)
  | .blockByNumber, .blockByNumber (.ok (some block)) =>
    ({ s with pc := .blockNumber block }, forced)
  | .blockByNumber, .blockByNumber _ =>
    ({ s with pc := .select }, forced)
  | .blockNumber block, .blockNumber currentNum =>
    (s.compare block currentNum, forced)
  | .processBlocks _, .processBlocks =>
    ({ s with pc := .select }, forced)
  | .clear, .clear =>
    ({ s with pc := .returned }, false)
  | _, _ =>
    (s, forced)

end Follow

-- A call of `startSyncWithNum` with what it shares with the rest of the node.
structure Following extends Follow where
  forced : Bool
  cancelled : Bool

namespace Following

inductive Event
  | cancel
  | follow (e : Follow.Event)

def step (s : Following) : Event → Following
  | .cancel   => { s with cancelled := true }
  | .follow e =>
    let (follow, forced) := s.toFollow.step s.cancelled s.forced e
    { s with toFollow := follow, forced }

def machine (num : UInt64) (cancelled : Bool) : Transition.System Following Event Empty where
  init := { toFollow := .start num, forced := true, cancelled }
  step s e := .ok (s.step e)

end Following

def chunkSize : UInt64 :=
  10

-- Where the loop of `doEthereumSync` over the blocks from the genesis block on is.
inductive Chunk.Pc
  | select
  | blockByNumber
  | processBlocks (shouldBreak : Bool)

structure Chunk where
  i : UInt64
  j : UInt64
  l1Num : UInt64
  blocks : List (Option EthBlock)
  timer : Timer
  pc : Chunk.Pc

namespace Chunk

def next (s : Chunk) : Chunk :=
  { s with pc :=
    if s.j < s.i + chunkSize then
      if s.j ≥ s.l1Num then .processBlocks true else .select
    else
      .processBlocks false
  }

def start (startNum l1Num : UInt64) (timer : Timer) : Chunk :=
  next { i := startNum, j := startNum, l1Num, blocks := [], timer, pc := .select }

end Chunk

inductive Chain
  | ethereum
  | bitcoin
  | unknown
deriving DecidableEq

structure Setup where
  chain : Chain
  genesisBlockNumber : UInt64

-- Where the goroutine that runs `doSync` is: about to read or write `forced`, waiting for the
-- database or a client, with the result of the function, or after the result has been sent.
inductive Worker.Pc
  | guard
  | header
  | blockNumber (currentHeader : UInt64)
  | force (currentHeader l1Num : UInt64)
  | chunk (s : Chunk)
  | latest (currentHeader : UInt64)
  | checkReorg
  | follow (s : Follow)
  | forceBitcoin
  | runSync
  | clear (result : Option GoError)
  | finished (result : Option GoError)
  | sent

-- The channel for the result is `none` as long as it has not been read.
structure Worker where
  pc : Worker.Pc
  ch : Option (Option Nat)

namespace Worker

-- The goroutine has passed the guard and is not at the end of the function.
def Pc.Critical : Pc → Prop
  | .guard | .finished _ | .sent => False
  | _                            => True

-- Nothing is done for an unknown chain.
def start (u : Setup) : Worker where
  pc := if u.chain = .unknown then .finished none else .guard
  ch := none

inductive Event
  | guard
  | header (answer : Except GoError UInt64)
  | blockNumber (answer : Except GoError UInt64)
  | force
  | expire
  | tick
  | done
  | blockByNumber (answer : Except GoError (Option EthBlock))
  | processBlocks
  | latest (answer : Except GoError EthBlock)
  | checkReorg (org : EthBlock)
  | follow (e : Follow.Event)
  | runSync (err : Option GoError)
  | clear

def errSyncing : GoError :=
  ⟨"chainSyncer is syncing"⟩

-- A step of the loop of `doEthereumSync` over the blocks.
def chunkStep (cancelled : Bool) (s : Chunk) (e : Event) : Pc :=
  match s.pc, e with
  | _, .expire => .chunk { s with timer := s.timer.expire }
  | .select, .tick =>
    .chunk <| if s.timer = .expired then { s with timer := .consumed, pc := .blockByNumber } else s
  | .select, .done =>
    if cancelled then .finished none else .chunk s
  | .blockByNumber, .blockByNumber (.ok block) =>
    .chunk <| Chunk.next { s with j := s.j + 1, blocks := s.blocks ++ [block], timer := .set }
  | .blockByNumber, .blockByNumber (.error err) =>
    .clear (some err)
  | .processBlocks shouldBreak, .processBlocks =>
    if shouldBreak then .clear none else .chunk <| .start (s.i + chunkSize) s.l1Num s.timer
  | _, _ => .chunk s

-- A step of `doSync` with the value of `forced` after it.
def doSync (u : Setup) (cancelled forced : Bool) (pc : Pc) (e : Event) : Pc × Bool :=
  match pc, e with
  | .guard, .guard =>
    let pc := if u.chain = .bitcoin then .forceBitcoin else .header
    (if forced then .finished (some errSyncing) else pc, forced)
  | .header, .header (.error err)             => (.finished (some err), forced)
  | .header, .header (.ok currentHeader)      => (.blockNumber currentHeader, forced)
  | .blockNumber _, .blockNumber (.error err) => (.finished (some err), forced)
  | .blockNumber h, .blockNumber (.ok l1Num)  => (.force h l1Num, forced)
  | .force h l1Num, .force                    =>
    let chunk := .start u.genesisBlockNumber l1Num .set
    (if h = 0 then .chunk chunk else .latest h, true)
  | .chunk s, e                               => (chunkStep cancelled s e, forced)
  | .latest _, .latest (.error err)           => (.finished (some err), forced)
  | .latest _, .latest (.ok _)                => (.checkReorg, forced)
  | .checkReorg, .checkReorg org              => (.follow (.start (org.numberU64 + 1)), forced)
  | .follow s, .follow e                      =>
    let (s, forced) := s.step cancelled forced e
    (match s.pc with
      | .returned => .finished none
      | _         => .follow s, forced)
  | .forceBitcoin, .force                     => (.runSync, true)
  | .runSync, .runSync (some err)             => (.finished (some err), forced)
  | .runSync, .runSync none                   => (.clear none, forced)
  | .clear result, .clear                     => (.finished result, false)
  | pc, _                                     => (pc, forced)

end Worker
end Sync
