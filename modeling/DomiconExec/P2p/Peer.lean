import DomiconExec.Primitives.Bytes
import DomiconExec.Primitives.GoMap
import Mathlib.Data.String.Basic

namespace P2p

structure Cap where
  name : String
  version : Nat
deriving DecidableEq

def Cap.string (cap : Cap) : String :=
  cap.name ++ "/" ++ toString cap.version

-- The canonical sorting order of capabilities.
def Cap.cmp (cap other : Cap) : Ordering :=
  if cap.name = other.name then
    compare cap.version other.version
  else
    compare cap.name other.name

structure Protocol where
  name : String
  version : Nat
  length : UInt64
deriving DecidableEq

def Protocol.cap (p : Protocol) : Cap where
  name := p.name
  version := p.version

structure ProtoRW extends Protocol where
  offset : UInt64
deriving DecidableEq

def baseProtocolLength : UInt64 :=
  16

-- The body of the loop over the capabilities. An older version of the protocol is replaced.
def assign (protocols : List Protocol) (s : UInt64 × GoMap String ProtoRW) (cap : Cap) :
    UInt64 × GoMap String ProtoRW :=
  match protocols.find? (·.cap = cap) with
  | none => s
  | some proto =>
    let offset := match s.snd.get cap.name with
      | some old => s.fst - old.length
      | none     => s.fst
    (offset + proto.length, s.snd.set cap.name ⟨proto, offset⟩)

def Cap.sort (caps : List Cap) : List Cap :=
  caps.mergeSort fun a b => a.cmp b ≠ .gt

def matchProtocols (protocols : List Protocol) (caps : List Cap) : GoMap String ProtoRW :=
  ((Cap.sort caps).foldl (assign protocols) (baseProtocolLength, ∅)).snd

def errInvalidMsgCode : GoError :=
  ⟨"invalid message code: not handled"⟩

def ProtoRW.writeMsg (rw : ProtoRW) (code : UInt64) : Except GoError UInt64 :=
  if code ≥ rw.length then
    .error errInvalidMsgCode
  else
    .ok (code + rw.offset)

def ProtoRW.readMsg (rw : ProtoRW) (code : UInt64) : UInt64 :=
  code - rw.offset

def ProtoRW.covers (rw : ProtoRW) (code : UInt64) : Bool :=
  code ≥ rw.offset && code < rw.offset + rw.length

-- The running protocols are visited in any order.
def getProto (order : IterOrder String) (running : GoMap String ProtoRW) (code : UInt64) :
    Option ProtoRW :=
  (order.list running.keys).filterMap running.get |>.find? (·.covers code)

inductive Incoming
  | ping
  | disc
  | ignored
  | proto (rw : ProtoRW)
  | outOfRange

def discMsg : UInt64 :=
  0x01

def pingMsg : UInt64 :=
  0x02

def handle (order : IterOrder String) (running : GoMap String ProtoRW) (code : UInt64) :
    Incoming :=
  if code = pingMsg then
    .ping
  else if code = discMsg then
    .disc
  else if code < baseProtocolLength then
    .ignored
  else
    match getProto order running code with
    | none    => .outOfRange
    | some rw => .proto rw
end P2p
