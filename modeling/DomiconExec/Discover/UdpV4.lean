import DomiconExec.Discover.Netutil
import DomiconExec.Primitives.Transition

namespace Discover.UDPv4

def respTimeout : Int :=
  500 * 10 ^ 6

def errTimeout : GoError :=
  ⟨"RPC timeout"⟩

def errClockWarp : GoError :=
  ⟨"reply deadline too far in the future"⟩

def errClosed : GoError :=
  ⟨"socket closed"⟩

-- A pending reply, with the number of its own channel. What the callback answers is left to the
-- events, since it depends on what it was called with before.
structure ReplyMatcher where
  errc : Nat
  fromID : Hash
  ip : IP
  ptype : UInt8
  deadline : Int
deriving DecidableEq

structure Reply where
  fromID : Hash
  ip : IP
  kind : UInt8

def Reply.isFor (r : Reply) (p : ReplyMatcher) : Bool :=
  p.fromID = r.fromID ∧ p.ptype = r.kind ∧ p.ip.equal r.ip

structure Visit where
  matched : Option Bool := none
  removed : Option (Option GoError) := none
deriving DecidableEq

-- The pending list after a loop, the matchers whose callbacks were called, and what was sent.
structure Outcome where
  plist : List ReplyMatcher
  invoked : List ReplyMatcher
  sent : List (Nat × Option GoError)
  matched : Bool

-- A loop over the pending list. `Next` of a removed element is nil, which ends the loop.
def sweep (visit : ReplyMatcher → Visit) : List ReplyMatcher → Outcome
  | []      => ⟨[], [], [], false⟩
  | p :: ps =>
    let called := if (visit p).matched.isSome then [p] else []
    let ok := (visit p).matched.getD false
    match (visit p).removed with
    | some err => ⟨ps, called, [(p.errc, err)], ok⟩
    | none     =>
      let o := sweep visit ps
      ⟨p :: o.plist, called ++ o.invoked, o.sent, ok || o.matched⟩

def Reply.visit (r : Reply) (answer : ReplyMatcher → Bool × Bool) (p : ReplyMatcher) : Visit :=
  if r.isFor p then
    { matched := some (answer p).fst, removed := if (answer p).snd then some none else none }
  else
    {}

def dispatch (r : Reply) (answer : ReplyMatcher → Bool × Bool) : List ReplyMatcher → Outcome :=
  sweep (r.visit answer)

def overdue (now : Int) (p : ReplyMatcher) : Visit where
  removed := if p.deadline ≤ now then some (some errTimeout) else none

def expire (now : Int) : List ReplyMatcher → Outcome :=
  sweep (overdue now)

-- The variables of `loop`, without those for the check of the clock. The matchers are counted, and
-- what was sent on their channels is recorded.
structure Loop where
  plist : List ReplyMatcher := []
  nextTimeout : Option Nat := none
  returned : Bool := false
  created : Nat := 0
  sent : List (Nat × Option GoError) := []

namespace Loop

-- At most one matcher is removed here, since that ends the loop over the list.
def resetTimeout (s : Loop) (now : Int) : Loop :=
  match s.plist with
  | []      => s
  | p :: ps =>
    if s.nextTimeout = some p.errc then
      s
    else if p.deadline - now < 2 * respTimeout then
      { s with nextTimeout := some p.errc }
    else
      { s with plist := ps, nextTimeout := none, sent := s.sent ++ [(p.errc, some errClockWarp)] }

inductive Case
  | closeCtx
  | addReplyMatcher (now : Int) (fromID : Hash) (ip : IP) (ptype : UInt8)
  | gotreply (r : Reply) (answer : ReplyMatcher → Bool × Bool)
  | timeout (now : Int)

def select (s : Loop) : Case → Loop
  | .closeCtx =>
    { s with
      plist := []
      returned := true
      sent := s.sent ++ s.plist.map (·.errc, some errClosed)
    }
  | .addReplyMatcher now fromID ip ptype =>
    { s with
      plist := s.plist ++ [⟨s.created, fromID, ip, ptype, now + respTimeout⟩]
      created := s.created + 1
    }
  | .gotreply r answer =>
    let o := dispatch r answer s.plist
    { s with plist := o.plist, sent := s.sent ++ o.sent }
  | .timeout now =>
    let o := expire now s.plist
    { s with plist := o.plist, nextTimeout := none, sent := s.sent ++ o.sent }

inductive Event
  | select (now : Int) (c : Case)
  -- A call of `pending` after the context has ended.
  | refuse

def step (s : Loop) : Event → Loop
  | .select now c => if s.returned then s else (s.resetTimeout now).select c
  | .refuse       =>
    { s with created := s.created + 1, sent := s.sent ++ [(s.created, some errClosed)] }

def machine : Transition.System Loop Event GoPanic where
  init := {}
  step s e := .ok (s.step e)

end Loop
end Discover.UDPv4
