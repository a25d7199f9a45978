import DomiconExec.Rlp.Encode
import DomiconExec.Rlp.Decode

-- Access to encoded values without a stream.
namespace Rlp.Raw

def bytesSize : Bytes → Nat
  | []  => 1
  | [x] => if x ≤ 0x7F then 1 else 2
  | b   => headsize (UInt64.ofNat b.length) + b.length

def listSize (contentSize : Nat) : Nat :=
  headsize (UInt64.ofNat contentSize) + contentSize

def intSize (x : UInt64) : Nat :=
  if x < 0x80 then 1 else 1 + intsize x

-- Sizes below 56 do not have a size of their own, and there are no leading zeros.
def readSize (b : Bytes) (slen : Nat) : Except DecodeError Nat :=
  if slen > b.length then
    .error .unexpectedEOF
  else
    let s := Bytes.toNat (b.take slen)
    if s < 56 ∨ b.head? = some 0 then .error .canonSize else .ok s

-- The kind of a value, and the sizes of its tag and of its content.
def readTag : Bytes → Except DecodeError (Kind × Nat × Nat)
  | []       => .error .unexpectedEOF
  | b :: buf =>
    if b < 0x80 then
      .ok (.byte, 0, 1)
    else if b < 0xB8 then
      let contentsize := (b - 0x80).toNat
      if contentsize = 1 ∧ buf.head?.any (· < 128) then
        .error .canonSize
      else
        .ok (.string, 1, contentsize)
    else if b < 0xC0 then
      (readSize buf (b - 0xB7).toNat).map (.string, (b - 0xB7).toNat + 1, ·)
    else if b < 0xF8 then
      .ok (.list, 1, (b - 0xC0).toNat)
    else
      (readSize buf (b - 0xF7).toNat).map (.list, (b - 0xF7).toNat + 1, ·)

-- Values that are larger than the input are rejected.
def readKind (buf : Bytes) : Except DecodeError (Kind × Nat × Nat) := do
  let (k, tagsize, contentsize) ← readTag buf
  if contentsize > buf.length - tagsize then
    throw .valueTooLarge
  return (k, tagsize, contentsize)

def split (b : Bytes) : Except DecodeError (Kind × Bytes × Bytes) := do
  let (k, ts, cs) ← readKind b
  return (k, (b.drop ts).take cs, b.drop (ts + cs))

def splitList (b : Bytes) : Except DecodeError (Bytes × Bytes) := do
  let (k, content, rest) ← split b
  if k ≠ .list then
    throw .expectedList
  return (content, rest)

def splitString (b : Bytes) : Except DecodeError (Bytes × Bytes) := do
  let (k, content, rest) ← split b
  if k = .list then
    throw .expectedString
  return (content, rest)

-- Integers of several bytes are read like sizes, since they are not below 56 either.
def splitUint64 (b : Bytes) : Except DecodeError (Nat × Bytes) := do
  let (content, rest) ← splitString b
  match content with
  | []  => return (0, rest)
  | [x] =>
    if x = 0 then
      throw .canonInt
    return (x.toNat, rest)
  | content =>
    if content.length > 8 then
      throw .uintOverflow
    match readSize content content.length with
    | .error _ => throw .canonInt
    | .ok x    => return (x, rest)

def uint64Bytes (i : UInt64) : Bytes :=
  if i = 0 then
    [0x80]
  else if i < 128 then
    [i.toUInt8]
  else if i.toNat < 2 ^ 8 then
    [0x81, i.toUInt8]
  else if i.toNat < 2 ^ 16 then
    [0x82, (i >>> 8).toUInt8, i.toUInt8]
  else if i.toNat < 2 ^ 24 then
    [0x83, (i >>> 16).toUInt8, (i >>> 8).toUInt8, i.toUInt8]
  else if i.toNat < 2 ^ 32 then
    [0x84, (i >>> 24).toUInt8, (i >>> 16).toUInt8, (i >>> 8).toUInt8, i.toUInt8]
  else if i.toNat < 2 ^ 40 then
    [0x85, (i >>> 32).toUInt8, (i >>> 24).toUInt8, (i >>> 16).toUInt8, (i >>> 8).toUInt8,
      i.toUInt8]
  else if i.toNat < 2 ^ 48 then
    [0x86, (i >>> 40).toUInt8, (i >>> 32).toUInt8, (i >>> 24).toUInt8, (i >>> 16).toUInt8,
      (i >>> 8).toUInt8, i.toUInt8]
  else if i.toNat < 2 ^ 56 then
    [0x87, (i >>> 48).toUInt8, (i >>> 40).toUInt8, (i >>> 32).toUInt8, (i >>> 24).toUInt8,
      (i >>> 16).toUInt8, (i >>> 8).toUInt8, i.toUInt8]
  else
    [0x88, (i >>> 56).toUInt8, (i >>> 48).toUInt8, (i >>> 40).toUInt8, (i >>> 32).toUInt8,
      (i >>> 24).toUInt8, (i >>> 16).toUInt8, (i >>> 8).toUInt8, i.toUInt8]

def appendUint64 (b : Bytes) (i : UInt64) : Bytes :=
  b ++ uint64Bytes i

end Rlp.Raw
