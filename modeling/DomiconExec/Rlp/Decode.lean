import DomiconExec.Primitives.BigEndian
import DomiconExec.Primitives.Program

namespace Rlp

inductive Kind
  | byte
  | string
  | list
deriving DecidableEq

def Kind.toString : Kind → String
  | byte   => "Byte"
  | string => "String"
  | list   => "List"

inductive DecodeError
  | eol
  | eof
  | unexpectedEOF
  | expectedString
  | expectedList
  | canonInt
  | canonSize
  | elemTooLarge
  | valueTooLarge
  | moreThanOneValue
  | notInList
  | notAtEOL
  | uintOverflow
  | uint256Large
  | invalidBool (num : Nat)
  | wrongSize (size want : Nat)
  -- The loop over the elements of a list is cut off, which takes elements that are read from no byte.
  | outOfFuel
  -- An error with the type of the target and the path to it, innermost part first.
  | decodeError (msg typ : String) (ctx : List String)
deriving DecidableEq

-- A decoding stream over a byte slice. The field `kind` is empty if the tag of the next value was not
-- read yet, and the innermost list comes first in `stack`. Sizes are below 2^64.
structure Stream where
  r : Bytes
  remaining : Nat
  size : Nat
  kinderr : Option DecodeError
  stack : List Nat
  kind : Option Kind
  byteval : UInt8
  limited : Bool
deriving DecidableEq

abbrev Reader :=
  EStateM DecodeError Stream

namespace Stream

open Program

def reset (r : Bytes) (inputLimit : Nat) : Stream where
  r
  remaining := inputLimit
  size := 0
  kinderr := none
  stack := []
  kind := none
  byteval := 0
  limited := inputLimit > 0

def listLimit (s : Stream) : Option Nat :=
  s.stack.head?

def rearm : Reader Unit :=
  modify fun s => { s with kind := none }

-- Checks the size of a read against the limits, and updates them.
def willRead (n : Nat) : Reader Unit := do
  rearm
  let s ← get
  match s.stack with
  | []             => pure ()
  | limit :: stack =>
    if n > limit then
      throw .elemTooLarge
    set { s with stack := (limit - n) :: stack }
  let s ← get
  if s.limited then
    if n > s.remaining then
      throw .valueTooLarge
    set { s with remaining := s.remaining - n }

def readByte : Reader UInt8 := do
  willRead 1
  let s ← get
  match s.r with
  | []     => throw .unexpectedEOF
  | b :: r =>
    set { s with r }
    return b

def readFull (n : Nat) : Reader Bytes := do
  willRead n
  let s ← get
  set { s with r := s.r.drop n }
  if s.r.length < n then
    throw .unexpectedEOF
  return s.r.take n

-- Reads a number of up to eight bytes. The leading zeros of the fixed-size buffer do not count.
def readUint : Nat → Reader Nat
  | 0 => do
    rearm
    return 0
  | 1 => do
    let b ← readByte
    return b.toNat
  | size => do
    let b ← readFull size
    if b.head? = some 0 then
      throw .canonSize
    return Bytes.toNat b

-- At toplevel, running out of input is reported as the end of it.
def adjustEOF (s : Stream) : DecodeError → DecodeError
  | .unexpectedEOF => if s.stack = [] then .eof else .unexpectedEOF
  | .valueTooLarge => if s.stack = [] then .eof else .valueTooLarge
  | err            => err

-- The size of a long value, and the error if the size is malformed or should have been short.
def readSize (size : Nat) : Reader (Nat × Option DecodeError) := do
  match ← attempt (readUint size) with
  | .error err => return (0, some err)
  | .ok n      => return (n, if n < 56 then some .canonSize else none)

-- An error is not raised, because it is cached together with the kind.
def readKind : Reader (Kind × Nat × Option DecodeError) := do
  match ← attempt readByte with
  | .error err => return (.byte, 0, some <| (← get).adjustEOF err)
  | .ok b      =>
    modify fun s => { s with byteval := 0 }
    if b < 0x80 then
      modify fun s => { s with byteval := b }
      return (.byte, 0, none)
    else if b < 0xB8 then
      return (.string, (b - 0x80).toNat, none)
    else if b < 0xC0 then
      return (.string, ← readSize (b - 0xB7).toNat)
    else if b < 0xF8 then
      return (.list, (b - 0xC0).toNat, none)
    else
      return (.list, ← readSize (b - 0xF7).toNat)

-- The size of the value ahead is checked against the list limit from before its tag was read.
def checkSize (s : Stream) (limit : Option Nat) (size : Nat) : Option DecodeError :=
  if limit.any (size > ·) then
    some .elemTooLarge
  else if s.limited ∧ size > s.remaining then
    some .valueTooLarge
  else
    none

-- The kind and the size of the next value. They are cached until the value is read.
def getKind : Reader (Kind × Nat) := do
  let s ← get
  match s.kind with
  | some kind =>
    match s.kinderr with
    | some err => throw err
    | none     => return (kind, s.size)
  | none =>
    let limit := s.listLimit
    if limit = some 0 then
      throw .eol
    let (kind, size, err) ← readKind
    let s ← get
    let err := err.or (s.checkSize limit size)
    set { s with kind := some kind, size, kinderr := err }
    match err with
    | some err => throw err
    | none     => return (kind, size)

-- A string that consists of a single byte below 0x80 should have been that byte.
def checkCanonSize (b : Bytes) : Reader Unit := do
  if b.length = 1 ∧ b.all (· < 128) then
    throw .canonSize

def bytes : Reader Bytes := do
  let (kind, size) ← getKind
  match kind with
  | .byte =>
    rearm
    return [(← get).byteval]
  | .string =>
    let b ← readFull size
    checkCanonSize b
    return b
  | .list => throw .expectedString

-- Reads a string whose size is that of the target.
def readBytes (n : Nat) : Reader Bytes := do
  let (kind, size) ← getKind
  match kind with
  | .byte =>
    if n ≠ 1 then
      throw <| .wrongSize 1 n
    rearm
    return [(← get).byteval]
  | .string =>
    if n ≠ size then
      throw <| .wrongSize size n
    let b ← readFull n
    checkCanonSize b
    return b
  | .list => throw .expectedString

def uint (maxbits : Nat) : Reader Nat := do
  let (kind, size) ← getKind
  match kind with
  | .byte =>
    let s ← get
    if s.byteval = 0 then
      throw .canonInt
    rearm
    return s.byteval.toNat
  | .string =>
    if size > maxbits / 8 then
      throw .uintOverflow
    -- The error is adjusted because it is not a size that is being read.
    let v ← (readUint size).adaptExcept fun err => if err = .canonSize then .canonInt else err
    if size > 0 ∧ v < 128 then
      throw .canonSize
    return v
  | .list => throw .expectedString

def bool : Reader Bool := do
  match ← uint 8 with
  | 0   => return false
  | 1   => return true
  | num => throw <| .invalidBool num

-- The bytes of a number. A read of length zero is avoided.
def bigIntBuffer : Kind → Nat → Reader Bytes
  | .list, _ => throw .expectedString
  | .byte, _ => do
    rearm
    return [(← get).byteval]
  | .string, 0 => do
    rearm
    return []
  | .string, size => do
    let b ← readFull size
    checkCanonSize b
    return b

def decodeBigInt : Reader Nat := do
  let (kind, size) ← getKind
  let buffer ← bigIntBuffer kind size
  if buffer.head? = some 0 then
    throw .canonInt
  return Bytes.toNat buffer

-- Up to 32 bytes make up a number of 256 bits. They are obtained as for numbers of arbitrary size.
def readUint256 : Reader (BitVec 256) := do
  let (kind, size) ← getKind
  if kind = .string ∧ size > 32 then
    throw .uint256Large
  let buffer ← bigIntBuffer kind size
  if buffer.head? = some 0 then
    throw .canonInt
  return BitVec.ofNat 256 (Bytes.toNat buffer)

-- The subtraction of machine words, which wraps around.
def wrappingSub (a b : Nat) : Nat :=
  (a + 2 ^ 64 - b) % 2 ^ 64

-- Starts a list. The size of the list may exceed what its enclosing list has left, see `checkSize`.
def list : Reader Nat := do
  let (kind, size) ← getKind
  if kind ≠ .list then
    throw .expectedList
  modify fun s => { s with
    stack := size :: s.stack.modifyHead (wrappingSub · size)
    kind := none
    size := 0
  }
  return size

def listEnd : Reader Unit := do
  let s ← get
  match s.stack with
  | [] => throw .notInList
  | limit :: stack =>
    if limit > 0 then
      throw .notAtEOL
    set { s with stack, kind := none, size := 0 }

end Stream
end Rlp
