import Mathlib.Data.List.Basic
import Mathlib.Data.List.TakeDrop

open List

-- A byte slice. Go does not distinguish a nil slice from an empty one in any operation used here.
abbrev Bytes :=
  List UInt8

-- A Go string is an arbitrary sequence of bytes.
abbrev GoString :=
  List UInt8

-- An error value. The errors of the program are told apart by their texts.
structure GoError where
  text : String
deriving DecidableEq

-- The ways in which an operation may crash.
inductive GoPanic
  | nilDereference
  | indexOutOfRange
  -- A call of `panic`.
  | explicit (message : String)
deriving DecidableEq

namespace Bytes

variable {n : Nat}

-- Keeps the last `n` bytes of `b`, or pads `b` with leading zeros if there are fewer.
def fit (n : Nat) (b : Bytes) : Bytes :=
  List.replicate (n - b.length) 0 ++ b.drop (b.length - n)

@[simp]
theorem fit_length (b : Bytes) : (fit n b).length = n := by
  simp only [fit, length_append, length_replicate, length_drop]
  omega

theorem fit_append_of_length {a b : Bytes} (h : b.length = n) : fit n (a ++ b) = b := by
  simp [fit, h]

theorem fit_eq_self {b : Bytes} (h : b.length = n) : fit n b = b := by
  simp [fit, h]

end Bytes

def ByteArr (n : Nat) :=
  { b : Bytes // b.length = n }

namespace ByteArr

variable {n : Nat}

instance : DecidableEq (ByteArr n) :=
  inferInstanceAs <| DecidableEq { b : Bytes // b.length = n }

@[ext]
theorem ext {a b : ByteArr n} (h : a.val = b.val) : a = b :=
  Subtype.ext h

def fill (b : UInt8) : ByteArr n :=
  ⟨List.replicate n b, length_replicate⟩

instance : Inhabited (ByteArr n) where
  default := fill 0

def copy (b : Bytes) : ByteArr n :=
  ⟨b.takeD n 0, takeD_length ..⟩

theorem copy_val (a : ByteArr n) : copy a.val = a := by
  apply ext
  simp [copy, takeD_eq_take, a.property]

-- The method `SetBytes` of hashes and addresses: long input is cropped from the left, short input
-- is put at the right end.
def setBytes (b : Bytes) : ByteArr n :=
  ⟨b.fit n, Bytes.fit_length b⟩

theorem setBytes_append (b : Bytes) (a : ByteArr n) : setBytes (b ++ a.val) = a :=
  ext <| Bytes.fit_append_of_length a.property

end ByteArr

abbrev Hash :=
  ByteArr 32

abbrev Address :=
  ByteArr 20

abbrev Hash.zero : Hash :=
  ByteArr.fill 0

def bytesToHash (b : Bytes) : Hash :=
  ByteArr.setBytes b

def bytesToAddress (b : Bytes) : Address :=
  ByteArr.setBytes b
