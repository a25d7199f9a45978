import DomiconExec.Sync.Worker

namespace Sync

-- Where `loop` is: it waits for its events, it is about to read `forced` after a tick, to start a
-- goroutine, or to write `doneCh` and `forced` after a result, or it waits for a last result.
inductive ChainSyncer.Pc
  | select
  | ticked
  | starting
  | received
  | released
  | awaiting
  | returned
deriving DecidableEq

-- The goroutines are numbered in the order of their start, which creates the channel with this
-- number. A channel holds at most one result, given like those that `loop` has received by the
-- goroutine it comes from.
structure ChainSyncer where
  forced : Bool
  doneCh : Option Nat
  channels : List (Option Nat)
  workers : List Worker
  timer : Timer
  pc : ChainSyncer.Pc
  quitSync : Bool
  cancelled : Bool
  received : List Nat

namespace ChainSyncer

-- The goroutine starts with the new channel in place.
def startSync (u : Setup) (s : ChainSyncer) : ChainSyncer :=
  { s with
    doneCh := some s.workers.length
    channels := s.channels ++ [none]
    workers := s.workers ++ [.start u]
  }

-- A nil channel is never ready.
def receive (next : Pc) (s : ChainSyncer) : ChainSyncer :=
  match s.doneCh with
  | none   => s
  | some c =>
    match s.channels[c]? with
    | some (some i) =>
      { s with channels := s.channels.set c none, received := s.received ++ [i], pc := next }
    | _ => s

-- The choices of the `select` statement, and the next step elsewhere.
inductive Action
  | receive
  | tick
  | quit
  | next

def loop (u : Setup) (s : ChainSyncer) (a : Action) : ChainSyncer :=
  match s.pc, a with
  | .select, .receive => s.receive .received
  | .select, .tick    =>
    if s.timer = .expired then { s with timer := .consumed, pc := .ticked } else s
  | .select, .quit    =>
    let pc := if s.doneCh = none then .returned else .awaiting
    if s.quitSync then { s with cancelled := true, pc } else s
  | .received, .next  => { s with doneCh := none, pc := .released }
  | .released, .next  => { s with forced := false, timer := .set, pc := .select }
  | .ticked, .next    =>
    if s.forced then { s with timer := .set, pc := .select } else { s with pc := .starting }
  | .starting, .next  => { s.startSync u with timer := .set, pc := .select }
  | .awaiting, .next  => s.receive .returned
  | _, _              => s

-- The language does not say whether `doneCh` is read before or after `doSync` is called.
def evaluate (s : ChainSyncer) (i : Nat) (w : Worker) : ChainSyncer :=
  match w.ch, w.pc with
  | none, .guard | none, .finished _ =>
    { s with workers := s.workers.set i { w with ch := some s.doneCh } }
  | _, _ => s

-- The goroutine waits as long as the channel is full, and forever if it is nil.
def send (s : ChainSyncer) (i : Nat) (w : Worker) : ChainSyncer :=
  match w.ch, w.pc with
  | some (some c), .finished _ =>
    if s.channels[c]? = some none then
      { s with
        channels := s.channels.set c (some i)
        workers := s.workers.set i { w with pc := .sent }
      }
    else
      s
  | _, _ => s

def work (u : Setup) (s : ChainSyncer) (i : Nat) (w : Worker) (e : Worker.Event) : ChainSyncer :=
  let (pc, forced) := Worker.doSync u s.cancelled s.forced w.pc e
  { s with workers := s.workers.set i { w with pc }, forced }

inductive Job
  | evaluate
  | work (e : Worker.Event)
  | send

def goroutine (u : Setup) (s : ChainSyncer) (i : Nat) (j : Job) : ChainSyncer :=
  match s.workers[i]? with
  | none   => s
  | some w =>
    match j with
    | .evaluate => s.evaluate i w
    | .work e   => s.work u i w e
    | .send     => s.send i w

inductive Event
  | expire
  | quitSync
  | loop (a : Action)
  | goroutine (i : Nat) (j : Job)

def step (u : Setup) (s : ChainSyncer) : Event → ChainSyncer
  | .expire        => { s with timer := s.timer.expire }
  | .quitSync      => { s with quitSync := true }
  | .loop a        => s.loop u a
  | .goroutine i j => s.goroutine u i j

def init : ChainSyncer where
  forced := false
  doneCh := none
  channels := []
  workers := []
  timer := .set
  pc := .select
  quitSync := false
  cancelled := false
  received := []

def machine (u : Setup) : Transition.System ChainSyncer Event Empty where
  init := init
  step s e := .ok (s.step u e)

end ChainSyncer
end Sync
