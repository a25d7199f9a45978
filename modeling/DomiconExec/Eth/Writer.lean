import DomiconExec.Eth.Gossip

namespace Eth

-- A goroutine that `broadcastFileData` has started: it is in `SendFileDatas`, it is about to send its
-- error to `fail`, it has closed its channel `done`, or it has returned after an error.
inductive Writer.Sender
  | sending (fds : List DA)
  | failing (err : GoError)
  | closed
  | returned
deriving DecidableEq

inductive Writer.Pc
  | top
  | looking (i hashesCount : Nat) (fds : List DA)
  | select
  | returned
deriving DecidableEq

-- How a hash has left the queue: it was cut off while the given number of hashes was waiting, or it
-- was looked up without or with success.
inductive Writer.Fate
  | cut (waiting : Nat)
  | missing
  | found (da : DA)
deriving DecidableEq

-- The goroutine `broadcastFileData` with the goroutines that it has started. The variable `done` is
-- given by the number of the goroutine that closes the channel, and `fail` by the contents of its
-- buffer. The last three fields record the hashes that were put into the queue, those that have left
-- it, and the data that was handed to `SendFileDatas`.
structure Writer where
  queue : List Hash
  done : Option Nat
  fail : List GoError
  failed : Bool
  senders : List Writer.Sender
  pc : Writer.Pc
  enqueued : List Hash
  left : List (Hash × Writer.Fate)
  handed : List DA
deriving DecidableEq

namespace Writer

def start : Writer where
  queue := []
  done := none
  fail := []
  failed := false
  senders := []
  pc := .top
  enqueued := []
  left := []
  handed := []

def failChanSize : Nat :=
  1

section Queue

variable {α : Type}

-- The memory of `dst` after `copy(dst, src)`.
def copy (dst src : List α) : List α :=
  src.take dst.length ++ dst.drop src.length

def shift (queue : List α) (n : Nat) : List α :=
  let src := queue.drop n
  (copy queue src).take (min queue.length src.length)

end Queue

-- The choices of the `select` statement, the answer of the pool for a hash, the next step elsewhere,
-- the end of `SendFileDatas` in one of the goroutines, and its send to `fail`.
inductive Event
  | next
  | lookup (fd : Option DA) (err : Option GoError)
  | receive (hashes : List Hash)
  | done
  | fail
  | term
  | sent (i : Nat) (err : Option GoError)
  | push (i : Nat)

-- The end of the loop over the queue.
def launch (s : Writer) (hashesCount : Nat) (fds : List DA) : Writer :=
  let s := { s with queue := shift s.queue hashesCount, pc := .select }
  if fds.length > 0 then
    { s with
      done := some s.senders.length
      senders := s.senders ++ [.sending fds]
      handed := s.handed ++ fds
    }
  else
    s

-- Only data without an error is used.
def lookup (s : Writer) (i hashesCount : Nat) (fds : List DA) (hash : Hash) (fd : Option DA)
    (err : Option GoError) : Writer :=
  match fd, err with
  | some da, none =>
    { s with
      left := s.left ++ [(hash, .found da)]
      pc := .looking (i + 1) (hashesCount + 1) (fds ++ [da])
    }
  | _, _ =>
    { s with
      left := s.left ++ [(hash, .missing)]
      pc := .looking (i + 1) (hashesCount + 1) fds
    }

def receive (s : Writer) (hashes : List Hash) : Writer :=
  if s.failed then
    { s with pc := .top }
  else
    let queue := s.queue ++ hashes
    let s := { s with enqueued := s.enqueued ++ hashes, pc := .top }
    if queue.length > maxQueuedFileData then
      let excess := queue.length - maxQueuedFileData
      { s with
        queue := shift queue excess
        left := s.left ++ (queue.take excess).map (·, .cut queue.length)
      }
    else
      { s with queue }

def step (s : Writer) (e : Event) : Except Stop Writer :=
  match e, s.pc with
  | .next, .top =>
    if s.done = none ∧ s.queue.length > 0 then
      .ok { s with pc := .looking 0 0 [] }
    else
      .ok { s with pc := .select }
  | .lookup fd err, .looking i hashesCount fds =>
    match s.queue[i]? with
    | some hash => .ok (s.lookup i hashesCount fds hash fd err)
    | none      => .error .blocked
  | .next, .looking i hashesCount fds =>
    if i < s.queue.length then .error .blocked else .ok (s.launch hashesCount fds)
  | .receive hashes, .select => .ok (s.receive hashes)
  | .done, .select =>
    match s.done.bind (s.senders[·]?) with
    | some .closed => .ok { s with done := none, pc := .top }
    | _            => .error .blocked
  | .fail, .select =>
    match s.fail with
    | _ :: fail => .ok { s with fail, failed := true, pc := .top }
    | []        => .error .blocked
  | .term, .select => .ok { s with pc := .returned }
  | .sent i err, _ =>
    match s.senders[i]?, err with
    | some (.sending _), none     => .ok { s with senders := s.senders.set i .closed }
    | some (.sending _), some err => .ok { s with senders := s.senders.set i (.failing err) }
    | _, _                        => .error .blocked
  | .push i, _ =>
    match s.senders[i]? with
    | some (.failing err) =>
      if s.fail.length < failChanSize then
        .ok { s with fail := s.fail ++ [err], senders := s.senders.set i .returned }
      else
        .error .blocked
    | _ => .error .blocked
  | _, _ => .error .blocked

def machine : Transition.System Writer Event Stop where
  init := start
  step := step

end Writer
end Eth
