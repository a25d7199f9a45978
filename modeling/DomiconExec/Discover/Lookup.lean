import DomiconExec.Discover.Table

namespace Discover
open Table

def alpha : Int :=
  3

-- Where `advance` is. Its caller calls it again unless it has returned false.
inductive Lookup.Pc
  | start
  | select
  | shutdown
  | ended
deriving DecidableEq

-- The map `asked` is the list of its keys, and `seen` that of the nodes under its keys. The queries
-- without an answer and the channel are part of the state.
structure Lookup where
  asked : List Hash
  seen : List Node := []
  result : NodesByDistance
  queries : Int := -1
  cancelled : Bool := false
  pc : Lookup.Pc := .start
  running : List Node := []
  replyCh : List (List (Option Node)) := []

namespace Lookup

def ask (s : Lookup) (n : Node) : Lookup :=
  if s.queries < alpha ∧ !s.asked.contains n.id then
    { s with asked := n.id :: s.asked, queries := s.queries + 1, running := n :: s.running }
  else
    s

-- The first query returns nodes from the local table.
def startQueries (s : Lookup) (tab : Table) : Lookup :=
  if s.cancelled then
    { s with pc := .ended }
  else if s.queries = -1 then
    let closest := tab.findnodeByID s.result.target bucketSize false
    { s with queries := 1, replyCh := s.replyCh ++ [closest.entries.map some], pc := .select }
  else
    let s := s.result.entries.foldl ask s
    { s with pc := if s.queries > 0 then .select else .ended }

def see (s : Lookup) (n : Node) : Lookup :=
  if s.seen.any (·.id = n.id) then
    s
  else
    { s with seen := s.seen ++ [n], result := s.result.push n bucketSize }

inductive Event
  | startQueries (tab : Table)
  -- The query with this index sends its reply.
  | reply (i : Nat) (nodes : List (Option Node))
  | replyCh
  | cancelCh
  -- The end of `shutdown`.
  | closed

-- An event that is not possible in a state has no effect.
def step (s : Lookup) : Event → Lookup
  | .startQueries tab => if s.pc = .start then s.startQueries tab else s
  | .reply i nodes    =>
    if i < s.running.length ∧ s.replyCh.length < alpha then
      { s with running := s.running.eraseIdx i, replyCh := s.replyCh ++ [nodes] }
    else
      s
  | .replyCh          =>
    match s.pc, s.replyCh with
    | .select, nodes :: replyCh =>
      nodes.reduceOption.foldl see { s with replyCh, queries := s.queries - 1, pc := .start }
    | .shutdown, _ :: replyCh   =>
      if s.queries > 0 then { s with replyCh, queries := s.queries - 1 } else s
    | _, _                      => s
  | .cancelCh         => if s.pc = .select then { s with pc := .shutdown } else s
  | .closed           =>
    if s.pc = .shutdown ∧ s.queries ≤ 0 then { s with cancelled := true, pc := .start } else s

end Lookup

end Discover
