import DomiconExec.Rlp.Encode

namespace Rlp

-- The operations on a buffer, where `writeBytes` also stands for `writeString`. The operations between
-- `list` and the matching `listEnd` are part of the list, so that sequences are well-nested.
inductive Op
  | write (b : Bytes)
  | writeBool (b : Bool)
  | writeUint64 (i : UInt64)
  | writeBytes (b : Bytes)
  | writeBigInt (i : Nat)
  | writeUint256 (z : BitVec 256)
  | list (content : List Op)

namespace Op

mutual

def run : Op → EncBuffer → EncBuffer
  | write b, w        => w.append b
  | writeBool b, w    => w.writeBool b
  | writeUint64 i, w  => w.writeUint64 i
  | writeBytes b, w   => w.writeBytes b
  | writeBigInt i, w  => w.writeBigInt i
  | writeUint256 z, w => w.writeUint256 z
  | list content, w   => (runAll content w.list.fst).listEnd w.list.snd

def runAll : List Op → EncBuffer → EncBuffer
  | [], w        => w
  | op :: ops, w => runAll ops (run op w)

end

end Op

namespace EncBuffer

def writeTo (w : EncBuffer) : List Bytes :=
  go w.str w.lheads 0
where
  go (str : Bytes) : List ListHead → Nat → List Bytes
    | [], strpos => if strpos < str.length then [str.drop strpos] else []
    | head :: lheads, strpos =>
      if strpos < head.offset then
        (str.take head.offset).drop strpos :: head.encode :: go str lheads head.offset
      else
        head.encode :: go str lheads strpos

end EncBuffer

-- The reader over the output of an encoder. There is no buffer after the end was reached.
structure EncReader where
  buf : Option EncBuffer
  lhpos : Nat
  strpos : Nat
  piece : Option Bytes
deriving DecidableEq

namespace EncReader

def new (buf : EncBuffer) : EncReader where
  buf := some buf
  lhpos := 0
  strpos := 0
  piece := none

def next (r : EncReader) : Option Bytes × EncReader :=
  match r.buf, r.piece with
  | none, _          => (none, r)
  | some _, some p   => (some p, r)
  | some buf, none =>
    match buf.lheads[r.lhpos]? with
    | some head =>
      if r.strpos < head.offset then
        (some <| (buf.str.take head.offset).drop r.strpos, { r with strpos := head.offset })
      else
        (some head.encode, { r with lhpos := r.lhpos + 1 })
    | none =>
      if r.strpos < buf.str.length then
        (some <| buf.str.drop r.strpos, { r with strpos := buf.str.length })
      else
        (none, r)

-- The loop of `Read`: the data that is copied, and whether the end was reached. Each round uses up
-- a piece.
def fill : Nat → EncReader → Nat → Option ((Bytes × Bool) × EncReader)
  | 0, _, _ => none
  | fuel + 1, r, space =>
    match r.next with
    | (none, r)       => some (([], true), { r with buf := none, piece := none })
    | (some piece, r) =>
      let nn := min space piece.length
      if nn < piece.length then
        some ((piece.take nn, false), { r with piece := some (piece.drop nn) })
      else do
        let ((data, eof), r) ← fill fuel { r with piece := none } (space - nn)
        return ((piece ++ data, eof), r)

-- The number of pieces that are left is bounded by this.
def pieces (r : EncReader) : Nat :=
  match r.buf with
  | none     => 0
  | some buf => buf.str.length - r.strpos + (buf.lheads.length - r.lhpos) + r.piece.toList.length

def read (r : EncReader) (size : Nat) : Option ((Bytes × Bool) × EncReader) :=
  fill (r.pieces + 1) r size

-- Reads into buffers of different sizes, and the data that they obtain together.
def readAll : List Nat → EncReader → Option (Bytes × EncReader)
  | [], r            => some ([], r)
  | size :: sizes, r => do
    let ((data, _), r) ← r.read size
    let (rest, r) ← readAll sizes r
    return (data ++ rest, r)

end EncReader
end Rlp
