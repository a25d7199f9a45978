import DomiconExec.Objects.Digest

namespace Element

def toNat (z : Element) : Nat :=
  z.words * montgomeryInverse % modulus

def ofWords (n : Nat) : Element :=
  ⟨[.ofNat n, .ofNat (n / 2 ^ 64), .ofNat (n / 2 ^ 128), .ofNat (n / 2 ^ 192)], rfl⟩

def ofNat (n : Nat) : Element :=
  ofWords (n * 2 ^ 256 % modulus)

end Element

namespace Digest

-- The affine points of the curve BN254, where the point at infinity is written as zero.
structure IsPoint (d : Digest) : Prop where
  x : d.x.words < Element.modulus
  y : d.y.words < Element.modulus
  equation : d = zero ∨ d.y.toNat ^ 2 ≡ d.x.toNat ^ 3 + 3 [MOD Element.modulus]

-- The two highest bits tell the point at infinity and the greater second coordinate.
def flags (d : Digest) : UInt8 :=
  if d = zero then 64 else if d.y.toNat ≤ Element.modulus / 2 then 128 else 192

-- The compressed representation of the point. The highest bits of the first coordinate are not used.
def compressed (d : Digest) : Bytes :=
  d.x.bytes.val.modifyHead (d.flags + ·)

-- What the curve library documents about the method that reads a point.
structure Codec (setBytes : Bytes → Digest × Option GoError) : Prop where
  marshal : ∀ d : Digest, d.IsPoint → setBytes d.marshal = (d, none)
  compressed : ∀ d : Digest, d.IsPoint → setBytes d.compressed = (d, none)

end Digest
