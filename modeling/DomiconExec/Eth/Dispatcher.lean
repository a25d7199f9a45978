import DomiconExec.Primitives.Bytes
import DomiconExec.Primitives.GoMap
import DomiconExec.Primitives.Transition

namespace Eth

def errDisconnected : GoError :=
  ⟨"disconnected"⟩

def errDanglingResponse : GoError :=
  ⟨"response to non-existent request"⟩

def errMismatchingResponseType (code want : UInt64) : GoError :=
  ⟨"mismatching response type: have " ++ toString code.toNat ++ ", want " ++ toString want.toNat⟩

structure Request where
  id : UInt64
  code : UInt64
  want : UInt64
deriving DecidableEq

-- Where `dispatchRequest` is for a request: it has not been called, it waits at its `select`
-- statement, the dispatcher has received the request, or it has returned.
inductive Request.Pc
  | idle
  | offering
  | waiting
  | returned (err : Option GoError)
deriving DecidableEq

-- A request with the goroutine that sends it. The channel `cancel` is open or closed.
structure Request.Call where
  req : Request
  pc : Request.Pc
  cancelled : Bool
deriving DecidableEq

-- Where `Close` is: at its `select` statement, after the dispatcher has received the operation, about
-- to close the channel `cancel`, or at its end.
inductive Close.Pc
  | offering
  | waiting
  | closing
  | returned (err : Option GoError)
deriving DecidableEq

structure Close where
  req : Nat
  pc : Close.Pc
deriving DecidableEq

-- Where `dispatchResponse` is: at its first `select` statement, after the dispatcher has received the
-- response, accepted and at the test for a cancellation, at the last `select` statement, or waiting
-- for the sink. It returns nil for a response that was rejected.
inductive Response.Pc
  | offering
  | waiting
  | checking
  | delivering
  | delivered
  | discarded
  | handled (err : Option GoError)
  | rejected
  | disconnected
deriving DecidableEq

-- A call of `dispatchResponse`. The number of the request is filled in by the dispatcher.
structure Response where
  id : UInt64
  code : UInt64
  req : Option Nat
  pc : Response.Pc
deriving DecidableEq

-- Where `dispatcher` is. It sends the results of its operations to the channels `fail` of the calls,
-- and updates `pending` before or after that.
inductive Dispatcher.Pc
  | select
  | sending (i : Nat)
  | failRequest (i : Nat) (err : Option GoError)
  | track (i : Nat) (err : Option GoError)
  | failCancel (c : Nat)
  | failResponse (k : Nat) (err : Option GoError)
  | untrack (id : UInt64)
  | returned
deriving DecidableEq

-- What the dispatcher has done: the request `i` was sent, an id was cancelled, or the response `k` was
-- accepted for the request `i`.
inductive Dispatcher.Op
  | sent (i : Nat)
  | cancelled (id : UInt64)
  | accepted (k i : Nat)
deriving DecidableEq

-- The dispatcher of a peer with the calls of its clients. Requests are referred to by their numbers.
structure Dispatcher where
  requests : List Request.Call
  closes : List Close
  responses : List Response
  term : Bool
  pending : GoMap UInt64 Nat
  pc : Dispatcher.Pc
  log : List Dispatcher.Op

namespace Dispatcher

inductive Stop
  | blocked
  | panic (p : GoPanic)

def start (reqs : List Request) : Dispatcher where
  requests := reqs.map (⟨·, .idle, false⟩)
  closes := []
  responses := []
  term := false
  pending := ∅
  pc := .select
  log := []

-- The calls of the clients, the operations that the dispatcher receives, the answer of the network,
-- the exchange over a channel `fail`, what the dispatcher does after it, and what the clients do next.
inductive Event
  | dispatchRequest (i : Nat)
  | close (i : Nat)
  | dispatchResponse (id code : UInt64)
  | receiveRequest (i : Nat)
  | send (err : Option GoError)
  | receiveCancel (c : Nat)
  | receiveResponse (k : Nat)
  | fail
  | finish
  | closeCancel (c : Nat)
  | check (k : Nat)
  | deliver (k : Nat)
  | discard (k : Nat)
  | done (k : Nat) (err : Option GoError)
  | term
  | quit
  | abortRequest (i : Nat)
  | abortClose (c : Nat)
  | abortResponse (k : Nat)

def setRequest (s : Dispatcher) (i : Nat) (call : Request.Call) (pc : Request.Pc) : Dispatcher :=
  { s with requests := s.requests.set i { call with pc } }

def setClose (s : Dispatcher) (c : Nat) (call : Close) (pc : Close.Pc) : Dispatcher :=
  { s with closes := s.closes.set c { call with pc } }

def setResponse (s : Dispatcher) (k : Nat) (res : Response) (pc : Response.Pc) : Dispatcher :=
  { s with responses := s.responses.set k { res with pc } }

def close (s : Dispatcher) (i : Nat) : Except Stop Dispatcher :=
  match s.requests[i]? with
  | none      => .error .blocked
  | some call =>
    let pc := if call.pc = .idle then .returned none else .offering
    .ok { s with closes := s.closes ++ [⟨i, pc⟩] }

def closeCancel (s : Dispatcher) (c i : Nat) (call : Close) : Except Stop Dispatcher :=
  match s.requests[i]? with
  | none => .error .blocked
  | some r =>
    if r.cancelled then
      .error (.panic (.explicit "close of closed channel"))
    else
      .ok { s.setClose c call (.returned none) with
        requests := s.requests.set i { r with cancelled := true } }

def isCancelled (s : Dispatcher) (res : Response) : Bool :=
  (res.req.bind (s.requests[·]?)).any Request.Call.cancelled

def receiveRequest (s : Dispatcher) (i : Nat) : Except Stop Dispatcher :=
  match s.pc, s.requests[i]? with
  | .select, some ⟨req, .offering, cancelled⟩ =>
    .ok { s.setRequest i ⟨req, .offering, cancelled⟩ .waiting with pc := .sending i }
  | _, _ => .error .blocked

def receiveCancel (s : Dispatcher) (c : Nat) : Except Stop Dispatcher :=
  match s.pc, s.closes[c]? with
  | .select, some ⟨i, .offering⟩ =>
    match s.requests[i]? with
    | none      => .error .blocked
    | some call =>
      let id := call.req.id
      .ok { s.setClose c ⟨i, .offering⟩ .waiting with
        pending := if (s.pending.get id).isNone then s.pending else s.pending.del id
        pc := .failCancel c
        log := s.log ++ [.cancelled id]
      }
  | _, _ => .error .blocked

def verdict (s : Dispatcher) (req : Option Nat) (code : UInt64) : Option GoError :=
  match req.bind (s.requests[·]?) with
  | none      => some errDanglingResponse
  | some call =>
    if call.req.want ≠ code then some (errMismatchingResponseType code call.req.want) else none

def receiveResponse (s : Dispatcher) (k : Nat) : Except Stop Dispatcher :=
  match s.pc, s.responses[k]? with
  | .select, some ⟨id, code, _, .offering⟩ =>
    let req := s.pending.get id
    .ok { s.setResponse k ⟨id, code, req, .offering⟩ .waiting with
      pc := .failResponse k (s.verdict req code) }
  | _, _ => .error .blocked

def fail (s : Dispatcher) : Except Stop Dispatcher :=
  match s.pc with
  | .failRequest i err =>
    match s.requests[i]? with
    | some ⟨req, .waiting, cancelled⟩ =>
      .ok { s.setRequest i ⟨req, .waiting, cancelled⟩ (.returned err) with
        pc := .track i err
        log := if err = none then s.log ++ [.sent i] else s.log
      }
    | _ => .error .blocked
  | .failCancel c =>
    match s.closes[c]? with
    | some ⟨i, .waiting⟩ => .ok { s.setClose c ⟨i, .waiting⟩ .closing with pc := .select }
    | _                  => .error .blocked
  | .failResponse k err =>
    match s.responses[k]?, err with
    | some ⟨id, code, req, .waiting⟩, some _ =>
      .ok { s.setResponse k ⟨id, code, req, .waiting⟩ .rejected with pc := .select }
    | some ⟨id, code, some i, .waiting⟩, none =>
      .ok { s.setResponse k ⟨id, code, some i, .waiting⟩ .checking with
        pc := .untrack id
        log := s.log ++ [.accepted k i]
      }
    | _, _ => .error .blocked
  | _ => .error .blocked

-- What remains to be done after the client has received the result.
def finish (s : Dispatcher) : Except Stop Dispatcher :=
  match s.pc with
  | .track i none =>
    match s.requests[i]? with
    | none      => .error .blocked
    | some call => .ok { s with pending := s.pending.set call.req.id i, pc := .select }
  | .track _ (some _) => .ok { s with pc := .select }
  | .untrack id       => .ok { s with pending := s.pending.del id, pc := .select }
  | _                 => .error .blocked

def step (s : Dispatcher) : Event → Except Stop Dispatcher
  | .dispatchRequest i =>
    match s.requests[i]? with
    | some ⟨req, .idle, cancelled⟩ => .ok (s.setRequest i ⟨req, .idle, cancelled⟩ .offering)
    | _                            => .error .blocked
  | .close i => s.close i
  | .dispatchResponse id code =>
    .ok { s with responses := s.responses ++ [⟨id, code, none, .offering⟩] }
  | .receiveRequest i => s.receiveRequest i
  | .send err =>
    match s.pc with
    | .sending i => .ok { s with pc := .failRequest i err }
    | _          => .error .blocked
  | .receiveCancel c => s.receiveCancel c
  | .receiveResponse k => s.receiveResponse k
  | .fail => s.fail
  | .finish => s.finish
  | .closeCancel c =>
    match s.closes[c]? with
    | some ⟨i, .closing⟩ => s.closeCancel c i ⟨i, .closing⟩
    | _                  => .error .blocked
  | .check k =>
    match s.responses[k]? with
    | some ⟨id, code, req, .checking⟩ =>
      let res : Response := ⟨id, code, req, .checking⟩
      .ok (s.setResponse k res (if s.isCancelled res then .discarded else .delivering))
    | _ => .error .blocked
  | .deliver k =>
    match s.responses[k]? with
    | some ⟨id, code, req, .delivering⟩ =>
      .ok (s.setResponse k ⟨id, code, req, .delivering⟩ .delivered)
    | _ => .error .blocked
  | .discard k =>
    match s.responses[k]? with
    | some ⟨id, code, req, .delivering⟩ =>
      let res : Response := ⟨id, code, req, .delivering⟩
      if s.isCancelled res then .ok (s.setResponse k res .discarded) else .error .blocked
    | _ => .error .blocked
  | .done k err =>
    match s.responses[k]? with
    | some ⟨id, code, req, .delivered⟩ =>
      .ok (s.setResponse k ⟨id, code, req, .delivered⟩ (.handled err))
    | _ => .error .blocked
  | .term => .ok { s with term := true }
  | .quit =>
    match s.pc with
    | .select => if s.term then .ok { s with pc := .returned } else .error .blocked
    | _       => .error .blocked
  | .abortRequest i =>
    match s.requests[i]?, s.term with
    | some ⟨req, .offering, cancelled⟩, true =>
      .ok (s.setRequest i ⟨req, .offering, cancelled⟩ (.returned (some errDisconnected)))
    | _, _ => .error .blocked
  | .abortClose c =>
    match s.closes[c]?, s.term with
    | some ⟨i, .offering⟩, true =>
      .ok (s.setClose c ⟨i, .offering⟩ (.returned (some errDisconnected)))
    | _, _ => .error .blocked
  | .abortResponse k =>
    match s.responses[k]?, s.term with
    | some ⟨id, code, req, .offering⟩, true =>
      .ok (s.setResponse k ⟨id, code, req, .offering⟩ .disconnected)
    | _, _ => .error .blocked

def machine (reqs : List Request) : Transition.System Dispatcher Event Stop where
  init := start reqs
  step := step

end Dispatcher
end Eth
