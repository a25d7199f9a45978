import DomiconExec.Rlp.Item

namespace Rlp

-- Computes the minimum number of bytes required to store a number.
def intsize (i : UInt64) : Nat :=
  go 8 i 1
where
  -- The shifted number is zero after eight rounds.
  go : Nat → UInt64 → Nat → Nat
    | 0, _, size => size
    | n + 1, i, size =>
      let i := i >>> 8
      if i = 0 then size else go n i (size + 1)

-- The bytes that `putint` writes to its buffer.
def putint (i : UInt64) : Bytes :=
  if i.toNat < 2 ^ 8 then
    [i.toUInt8]
  else if i.toNat < 2 ^ 16 then
    [(i >>> 8).toUInt8, i.toUInt8]
  else if i.toNat < 2 ^ 24 then
    [(i >>> 16).toUInt8, (i >>> 8).toUInt8, i.toUInt8]
  else if i.toNat < 2 ^ 32 then
    [(i >>> 24).toUInt8, (i >>> 16).toUInt8, (i >>> 8).toUInt8, i.toUInt8]
  else if i.toNat < 2 ^ 40 then
    [(i >>> 32).toUInt8, (i >>> 24).toUInt8, (i >>> 16).toUInt8, (i >>> 8).toUInt8, i.toUInt8]
  else if i.toNat < 2 ^ 48 then
    [(i >>> 40).toUInt8, (i >>> 32).toUInt8, (i >>> 24).toUInt8, (i >>> 16).toUInt8,
      (i >>> 8).toUInt8, i.toUInt8]
  else if i.toNat < 2 ^ 56 then
    [(i >>> 48).toUInt8, (i >>> 40).toUInt8, (i >>> 32).toUInt8, (i >>> 24).toUInt8,
      (i >>> 16).toUInt8, (i >>> 8).toUInt8, i.toUInt8]
  else
    [(i >>> 56).toUInt8, (i >>> 48).toUInt8, (i >>> 40).toUInt8, (i >>> 32).toUInt8,
      (i >>> 24).toUInt8, (i >>> 16).toUInt8, (i >>> 8).toUInt8, i.toUInt8]

def headsize (size : UInt64) : Nat :=
  if size < 56 then 1 else 1 + intsize size

-- The bytes that `puthead` writes to its buffer.
def puthead (smalltag largetag : UInt8) (size : UInt64) : Bytes :=
  if size < 56 then
    [smalltag + size.toUInt8]
  else
    let be := putint size
    (largetag + UInt8.ofNat be.length) :: be

-- While a list is open, `size` holds the size of the headers that precede it.
structure ListHead where
  offset : Nat
  size : Nat
deriving DecidableEq, Inhabited

def ListHead.encode (head : ListHead) : Bytes :=
  puthead 0xC0 0xF7 (UInt64.ofNat head.size)

-- The string data is collected without the list headers, whose sizes are only known at the end.
structure EncBuffer where
  str : Bytes
  lheads : List ListHead
  lhsize : Nat
deriving DecidableEq

inductive EncodeError
  | negativeBigInt
deriving DecidableEq

namespace EncBuffer

def empty : EncBuffer where
  str := []
  lheads := []
  lhsize := 0

def size (w : EncBuffer) : Nat :=
  w.str.length + w.lhsize

-- The loop of `copyTo`: interleaves the string data with the headers.
def copyTo (str : Bytes) : List ListHead → Nat → Bytes
  | [], strpos => str.drop strpos
  | head :: lheads, strpos =>
    (str.take head.offset).drop strpos ++ head.encode ++ copyTo str lheads head.offset

-- The output is copied to a buffer whose size is determined beforehand.
def makeBytes (w : EncBuffer) : Bytes :=
  (copyTo w.str w.lheads 0).takeD w.size 0

def append (w : EncBuffer) (b : Bytes) : EncBuffer :=
  { w with str := w.str ++ b }

def encodeStringHeader (w : EncBuffer) (size : Nat) : EncBuffer :=
  if size < 56 then
    w.append [0x80 + UInt8.ofNat size]
  else
    let be := putint (UInt64.ofNat size)
    w.append <| (0xB7 + UInt8.ofNat be.length) :: be

def writeUint64 (w : EncBuffer) (i : UInt64) : EncBuffer :=
  if i = 0 then
    w.append [0x80]
  else if i < 128 then
    w.append [i.toUInt8]
  else
    let be := putint i
    w.append <| (0x80 + UInt8.ofNat be.length) :: be

def writeBool (w : EncBuffer) (b : Bool) : EncBuffer :=
  w.append [if b then 0x01 else 0x80]

def writeBytes (w : EncBuffer) : Bytes → EncBuffer
  | [x] => if x ≤ 0x7F then w.append [x] else (w.encodeStringHeader 1).append [x]
  | b   => (w.encodeStringHeader b.length).append b

-- The bytes of a machine word, least significant first.
def wordBytes (d : Nat) : Bytes :=
  (List.range 8).map fun j => UInt8.ofNat (d / 256 ^ j)

-- A number above 64 bits is written from its words, least significant first, so the bytes are
-- filled in from the end.
def writeBigInt (w : EncBuffer) (i : Nat) : EncBuffer :=
  let bitlen := i.size
  if bitlen ≤ 64 then
    w.writeUint64 (UInt64.ofNat i)
  else
    let length := (bitlen + 7) / 8
    let bytes := ((Nat.digits (2 ^ 64) i).flatMap wordBytes).takeD length 0
    (w.encodeStringHeader length).append bytes.reverse

-- One of the four words of a number, which are stored least significant first.
def word (z : BitVec 256) (i : Nat) : Nat :=
  z.toNat / 2 ^ (64 * i) % 2 ^ 64

-- All 32 bytes are put after an unused one. The tag replaces the byte before the first that counts.
def writeUint256 (w : EncBuffer) (z : BitVec 256) : EncBuffer :=
  let bitlen := z.toNat.size
  if bitlen ≤ 64 then
    w.writeUint64 (UInt64.ofNat z.toNat)
  else
    let nBytes := (bitlen + 7) / 8
    let b := 0 :: [3, 2, 1, 0].flatMap fun i => (wordBytes (word z i)).reverse
    w.append <| (b.set (32 - nBytes) (0x80 + UInt8.ofNat nBytes)).drop (32 - nBytes)

-- Opens a list and returns the index of its header.
def list (w : EncBuffer) : EncBuffer × Nat :=
  ({ w with lheads := w.lheads ++ [⟨w.str.length, w.lhsize⟩] }, w.lheads.length)

def listEnd (w : EncBuffer) (index : Nat) : EncBuffer :=
  let lh := w.lheads.getD index default
  let size := w.size - lh.offset - lh.size
  { w with
    lheads := w.lheads.set index { lh with size }
    lhsize := if size < 56 then w.lhsize + 1 else w.lhsize + (1 + intsize (UInt64.ofNat size))
  }

end EncBuffer
end Rlp
