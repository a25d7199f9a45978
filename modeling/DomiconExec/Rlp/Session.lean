import DomiconExec.Rlp.Tree

namespace Rlp

namespace Stream

-- Reads a value together with its tag. A new tag is put in front of the content.
def raw : Reader Bytes := do
  let (kind, size) ← getKind
  if kind = .byte then
    rearm
    return [(← get).byteval]
  let content ← readFull size
  if kind = .string then
    return puthead 0x80 0xB7 (UInt64.ofNat size) ++ content
  else
    return puthead 0xC0 0xF7 (UInt64.ofNat size) ++ content

def moreDataInList (s : Stream) : Bool :=
  s.listLimit.getD 0 > 0

end Stream

-- The calls by which a value is read step by step.
inductive Call
  | kind
  | list
  | listEnd
  | bytes
  | raw
  | uint64
  | moreDataInList
deriving DecidableEq

inductive Output
  | kind (kind : Kind) (size : Nat)
  | size (size : Nat)
  | none
  | bytes (b : Bytes)
  | number (n : Nat)
  | flag (b : Bool)
deriving DecidableEq

namespace Call

def run : Call → Reader Output
  | kind => do
    let (k, size) ← Stream.getKind
    return .kind k size
  | list => do
    let size ← Stream.list
    return .size size
  | listEnd => do
    Stream.listEnd
    return .none
  | bytes => do
    let b ← Stream.bytes
    return .bytes b
  | raw => do
    let b ← Stream.raw
    return .bytes b
  | uint64 => do
    let n ← Stream.uint 64
    return .number n
  | moreDataInList => do
    return .flag (← get).moreDataInList

-- The stream after a call, whether it fails or not.
def next (c : Call) (s : Stream) : Stream :=
  Program.final (c.run s)

-- The size of the buffer for the result. It is allocated before the content is read.
def allocated (c : Call) (s : Stream) : Nat :=
  match c, Stream.getKind s with
  | bytes, .ok (.byte, _) _      => 1
  | bytes, .ok (.string, size) _ => size
  | raw, .ok (.byte, _) _        => 1
  | raw, .ok (_, size) _         => headsize (UInt64.ofNat size) + size
  | _, _                         => 0

end Call

-- A stream over `input`, and the offsets at which its open lists were declared to end, innermost
-- first.
structure Session (input : Bytes) where
  stream : Stream
  ends : List Nat

namespace Session

variable {input : Bytes}

def start (input : Bytes) : Session input where
  stream := .ofBytes input
  ends := []

def offset (x : Session input) : Nat :=
  input.length - x.stream.r.length

def call (x : Session input) (c : Call) : Session input where
  stream := c.next x.stream
  ends :=
    match c, c.run x.stream with
    | .list, .ok (.size size) s' => (input.length - s'.r.length + size) :: x.ends
    | .listEnd, .ok _ _          => x.ends.tail
    | _, _                       => x.ends

-- The sessions that arise from calls that meet a condition.
inductive Reached (P : Call → Stream → Prop) : Session input → Prop
  | start : Reached P (start input)
  | call {x} (c : Call) : Reached P x → P c x.stream → Reached P (x.call c)

end Session
end Rlp
