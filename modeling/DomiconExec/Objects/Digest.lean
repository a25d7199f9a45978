import DomiconExec.Rlp.TypeInfo

-- An element of the base field of the curve BN254, as four words in Montgomery form.
abbrev Element :=
  GoArray UInt64 4

namespace Element

def modulus : Nat :=
  21888242871839275222246405745257275088696311157297823662689037894645226208583

-- The inverse of 2^256.
def montgomeryInverse : Nat :=
  20988524275117001072002809824448087578619730785600314334253784976379291040311

def zero : Element :=
  ⟨[0, 0, 0, 0], rfl⟩

def words (z : Element) : Nat :=
  z.val.foldr (fun w n => n * 2 ^ 64 + w.toNat) 0

def isZero (z : Element) : Bool :=
  z.val.all (· = 0)

def bytes (z : Element) : ByteArr 32 :=
  .setBytes <| Bytes.bigEndian <| z.words * montgomeryInverse % modulus

def info : Rlp.TypeInfo Element :=
  .array "fp.Element" 4 .uint64

end Element

-- A commitment, which is a point of the curve BN254.
structure Digest where
  x : Element
  y : Element
deriving DecidableEq

namespace Digest

def zero : Digest where
  x := .zero
  y := .zero

def marshal (d : Digest) : Bytes :=
  d.x.bytes.val ++ d.y.bytes.val

-- The key under which a commitment is stored: `common.BytesToHash(d.Marshal())`.
def hash (d : Digest) : Hash :=
  bytesToHash d.marshal

def info : Rlp.TypeInfo Digest :=
  .struct "bn254.G1Affine" zero [
    .of "X" Element.info x fun d x => { d with x },
    .of "Y" Element.info y fun d y => { d with y }
  ]

end Digest
