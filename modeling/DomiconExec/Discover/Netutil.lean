import DomiconExec.Primitives.Bytes
import DomiconExec.Primitives.GoMap

-- An address of 4 or 16 bytes, or an empty one.
abbrev IP :=
  Bytes

namespace IP

def v4InV6 : Bytes :=
  [0, 0, 0, 0, 0, 0, 0, 0, 0, 0, 0xff, 0xff]

def to4 (ip : IP) : Option Bytes :=
  if ip.length = 4 then
    some ip
  else if ip.length = 16 ∧ ip.take 12 = v4InV6 then
    some (ip.drop 12)
  else
    none

def equal (ip x : IP) : Bool :=
  if ip.length = x.length then
    ip = x
  else if ip.length = 4 ∧ x.length = 16 then
    x.take 12 = v4InV6 ∧ ip = x.drop 12
  else if ip.length = 16 ∧ x.length = 4 then
    ip.take 12 = v4InV6 ∧ ip.drop 12 = x
  else
    false

def v6Loopback : IP :=
  [0, 0, 0, 0, 0, 0, 0, 0, 0, 0, 0, 0, 0, 0, 0, 1]

def isLoopback (ip : IP) : Bool :=
  match ip.to4 with
  | some ip4 => ip4[0]? = some 127
  | none     => ip.equal v6Loopback

end IP

namespace Netutil

structure IPNet where
  ip : Bytes
  mask : Bytes

def cidrMask (bits n : Nat) : Bytes :=
  (List.range n).map fun i =>
    if bits ≥ 8 * (i + 1) then 0xff else ~~~(0xff >>> UInt8.ofNat (bits - 8 * i))

def parseCIDR (ip : Bytes) (bits : Nat) : IPNet where
  ip := ip
  mask := cidrMask bits ip.length

def IPNet.contains (net : IPNet) (ip : IP) : Bool :=
  let ip := ip.to4.getD ip
  ip.length = net.ip.length &&
    (ip.zip (net.ip.zip net.mask)).all fun e => e.fst &&& e.snd.snd = e.snd.fst &&& e.snd.snd

def lan4 : List IPNet :=
  [parseCIDR [0, 0, 0, 0] 8, parseCIDR [10, 0, 0, 0] 8, parseCIDR [172, 16, 0, 0] 12,
    parseCIDR [192, 168, 0, 0] 16]

def lan6 : List IPNet :=
  [parseCIDR [0xfe, 0x80, 0, 0, 0, 0, 0, 0, 0, 0, 0, 0, 0, 0, 0, 0] 10,
    parseCIDR [0xfc, 0, 0, 0, 0, 0, 0, 0, 0, 0, 0, 0, 0, 0, 0, 0] 7]

def isLAN (ip : IP) : Bool :=
  if ip.isLoopback then
    true
  else
    match ip.to4 with
    | some v4 => lan4.any (·.contains v4)
    | none    => lan6.any (·.contains ip)

-- The type of an address, followed by its first bits.
def subnetKey (subnet : Nat) (ip : IP) : Bytes :=
  let (typ, ip) : UInt8 × Bytes := match ip.to4 with
    | some ip4 => (0x34, ip4)
    | none     => (0x36, ip)
  let bits := min subnet (ip.length * 8)
  let nb := bits / 8
  let mask : UInt8 := ~~~(0xff >>> UInt8.ofNat (bits % 8))
  typ :: ip.take nb ++ if mask = 0 then [] else (ip.drop nb).head?.toList.map (· &&& mask)

-- Counts addresses by subnet. No subnet gets more than `limit` of them.
structure DistinctNetSet where
  subnet : Nat
  limit : Nat
  members : GoMap Bytes Nat := ∅

namespace DistinctNetSet

def key (s : DistinctNetSet) (ip : IP) : Bytes :=
  subnetKey s.subnet ip

def count (s : DistinctNetSet) (k : Bytes) : Nat :=
  (s.members.get k).getD 0

def add (s : DistinctNetSet) (ip : IP) : Bool × DistinctNetSet :=
  if s.count (s.key ip) < s.limit then
    (true, { s with members := s.members.set (s.key ip) (s.count (s.key ip) + 1) })
  else
    (false, s)

def remove (s : DistinctNetSet) (ip : IP) : DistinctNetSet :=
  match s.members.get (s.key ip) with
  | none   => s
  | some n =>
    if n = 1 then
      { s with members := s.members.del (s.key ip) }
    else
      { s with members := s.members.set (s.key ip) (n - 1) }

end DistinctNetSet
end Netutil
