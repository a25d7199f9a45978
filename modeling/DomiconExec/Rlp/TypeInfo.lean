import DomiconExec.Rlp.Encode
import DomiconExec.Rlp.Decode

def GoArray (α : Type) (n : Nat) :=
  { l : List α // l.length = n }

instance {α : Type} {n : Nat} [DecidableEq α] : DecidableEq (GoArray α n) :=
  inferInstanceAs <| DecidableEq { l : List α // l.length = n }

namespace Rlp

open Program

namespace DecodeError

-- Gives an error of the stream the type of the value that was being decoded.
def wrapStreamError (typ : String) : DecodeError → DecodeError
  | .canonInt       => .decodeError "non-canonical integer (leading zero bytes)" typ []
  | .canonSize      => .decodeError "non-canonical size information" typ []
  | .expectedList   => .decodeError "expected input list" typ []
  | .expectedString => .decodeError "expected input string or byte" typ []
  | .uintOverflow   => .decodeError "input string too long" typ []
  | .notAtEOL       => .decodeError "input list has too many elements" typ []
  | err             => err

def addErrorContext (ctx : String) : DecodeError → DecodeError
  | .decodeError msg typ ctxs => .decodeError msg typ (ctxs ++ [ctx])
  | err                       => err

end DecodeError

-- What is known about a type: its name, its zero value, and how its values are written and read. A
-- value is read into an existing one, which keeps the parts that are not read.
structure TypeInfo (α : Type) where
  typ : String
  zero : α
  writer : α → EncBuffer → Except EncodeError EncBuffer
  decoder : α → Reader α

variable {α β : Type}

def decodeUint64 (_ : UInt64) : Reader UInt64 := do
  let num ← (Stream.uint 64).adaptExcept (.wrapStreamError "uint64")
  return UInt64.ofNat num

def TypeInfo.uint64 : TypeInfo UInt64 where
  typ := "uint64"
  zero := 0
  writer val w := .ok (w.writeUint64 val)
  decoder := decodeUint64

def TypeInfo.uint : TypeInfo UInt64 where
  typ := "uint"
  zero := 0
  writer val w := .ok (w.writeUint64 val)
  decoder _ := do
    let num ← (Stream.uint 64).adaptExcept (.wrapStreamError "uint")
    return UInt64.ofNat num

def TypeInfo.bool : TypeInfo Bool where
  typ := "bool"
  zero := false
  writer val w := .ok (w.writeBool val)
  decoder _ := Stream.bool.adaptExcept (.wrapStreamError "bool")

-- Strings and byte slices are read and written in the same way.
def TypeInfo.ofBytes (typ : String) : TypeInfo Bytes where
  typ
  zero := []
  writer val w := .ok (w.writeBytes val)
  decoder _ := Stream.bytes.adaptExcept (.wrapStreamError typ)

def TypeInfo.string : TypeInfo GoString :=
  .ofBytes "string"

def TypeInfo.byteSlice : TypeInfo Bytes :=
  .ofBytes "[]uint8"

def writeByteArray {n : Nat} (val : ByteArr n) (w : EncBuffer) : EncBuffer :=
  match val.val with
  | []  => w.append [0x80]
  | [b] => if b ≤ 0x7F then w.append [b] else w.append [0x81, b]
  | b   => (w.encodeStringHeader b.length).append b

def decodeByteArray (typ : String) {n : Nat} (_ : ByteArr n) : Reader (ByteArr n) := do
  let (kind, size) ← Stream.getKind
  match kind with
  | .byte =>
    if n = 0 then
      throw <| .decodeError "input string too long" typ []
    if n > 1 then
      throw <| .decodeError "input string too short" typ []
    Stream.rearm
    return .copy [(← get).byteval]
  | .string =>
    if n < size then
      throw <| .decodeError "input string too long" typ []
    if n > size then
      throw <| .decodeError "input string too short" typ []
    let b ← Stream.readFull n
    (Stream.checkCanonSize b).adaptExcept (.wrapStreamError typ)
    return .copy b
  | .list => throw <| .wrapStreamError typ .expectedString

def TypeInfo.byteArray (typ : String) (n : Nat) : TypeInfo (ByteArr n) where
  typ
  zero := ByteArr.fill 0
  writer val w := .ok (writeByteArray val w)
  decoder := decodeByteArray typ

def writeBigIntPtr : Option Int → EncBuffer → Except EncodeError EncBuffer
  | none, w   => .ok (w.append [0x80])
  | some i, w => if i < 0 then .error .negativeBigInt else .ok (w.writeBigInt i.toNat)

def decodeBigInt (_ : Option Int) : Reader (Option Int) := do
  let i ← Stream.decodeBigInt.adaptExcept (.wrapStreamError "*big.Int")
  return some i

def TypeInfo.bigIntPtr : TypeInfo (Option Int) where
  typ := "*big.Int"
  zero := none
  writer := writeBigIntPtr
  decoder := decodeBigInt

def writeU256IntPtr : Option (BitVec 256) → EncBuffer → EncBuffer
  | none, w   => w.append [0x80]
  | some z, w => w.writeUint256 z

def decodeU256 (_ : Option (BitVec 256)) : Reader (Option (BitVec 256)) := do
  let z ← Stream.readUint256.adaptExcept (.wrapStreamError "*uint256.Int")
  return some z

def TypeInfo.u256IntPtr : TypeInfo (Option (BitVec 256)) where
  typ := "*uint256.Int"
  zero := none
  writer val w := .ok (writeU256IntPtr val w)
  decoder := decodeU256

def writePtr (nilKind : Kind) (writer : α → EncBuffer → Except EncodeError EncBuffer) :
    Option α → EncBuffer → Except EncodeError EncBuffer
  | none, w   => .ok (w.append [if nilKind = .string then 0x80 else 0xC0])
  | some a, w => writer a w

-- Empty values of the right kind stand for no value. The kind is still cached when the value is read.
def decodeNilPtr (typ : String) (nilKind : Kind) (info : TypeInfo α) (val : Option α) :
    Reader (Option α) := do
  let (kind, size) ← Stream.getKind.adaptExcept (.wrapStreamError typ)
  if kind ≠ .byte ∧ size = 0 then
    if kind ≠ nilKind then
      throw <| .decodeError ("wrong kind of empty value (got " ++ kind.toString ++ ", want " ++
        nilKind.toString ++ ")") typ []
    Stream.rearm
    return none
  else
    let a ← info.decoder (val.getD info.zero)
    return some a

-- The type of pointers in fields with the tag "nil".
def TypeInfo.nilPtr (nilKind : Kind) (info : TypeInfo α) : TypeInfo (Option α) where
  typ := "*" ++ info.typ
  zero := none
  writer := writePtr nilKind info.writer
  decoder := decodeNilPtr ("*" ++ info.typ) nilKind info

-- The type of other pointers. A value is read into what a pointer refers to.
def TypeInfo.ptr (nilKind : Kind) (info : TypeInfo α) : TypeInfo (Option α) where
  typ := "*" ++ info.typ
  zero := none
  writer := writePtr nilKind info.writer
  decoder val := do
    let a ← info.decoder (val.getD info.zero)
    return some a

def writeSlice (writer : α → EncBuffer → Except EncodeError EncBuffer) (val : List α)
    (w : EncBuffer) : Except EncodeError EncBuffer :=
  if val.length = 0 then
    .ok (w.append [0xC0])
  else do
    let (w, listOffset) := w.list
    let w ← val.foldlM (fun w a => writer a w) w
    return w.listEnd listOffset

-- Reads elements up to the end of the list. New elements are read into the zero value.
def decodeSliceElems (info : TypeInfo α) : Nat → List α → Nat → Reader (List α)
  | 0, _, _ => throw .outOfFuel
  | fuel + 1, old, i => do
    match ← attempt (info.decoder (old.headD info.zero)) with
    | .error .eol => return []
    | .error err  => throw <| err.addErrorContext ("[" ++ toString i ++ "]")
    | .ok a       =>
      let l ← decodeSliceElems info fuel old.tail (i + 1)
      return a :: l

def decodeListSlice (typ : String) (info : TypeInfo α) (val : List α) : Reader (List α) := do
  let size ← Stream.list.adaptExcept (.wrapStreamError typ)
  let val ← (if size = 0 then pure [] else decodeSliceElems info (size + 1) val 0)
  Stream.listEnd
  return val

def TypeInfo.slice (info : TypeInfo α) : TypeInfo (List α) where
  typ := "[]" ++ info.typ
  zero := []
  writer := writeSlice info.writer
  decoder := decodeListSlice ("[]" ++ info.typ) info

def TypeInfo.namedSlice (typ : String) (info : TypeInfo α) : TypeInfo (List α) where
  typ
  zero := []
  writer := writeSlice info.writer
  decoder := decodeListSlice typ info

-- Reads as many elements as the array has.
def decodeArrayElems (typ : String) (info : TypeInfo α) :
    (old : List α) → Nat → Reader { l : List α // l.length = old.length }
  | [], _ => return ⟨[], rfl⟩
  | a :: old, i => do
    match ← attempt (info.decoder a) with
    | .error .eol => throw <| .decodeError "input list has too few elements" typ []
    | .error err  => throw <| err.addErrorContext ("[" ++ toString i ++ "]")
    | .ok a       =>
      let l ← decodeArrayElems typ info old (i + 1)
      return ⟨a :: l.val, congrArg Nat.succ l.property⟩

def decodeListArray (typ : String) (info : TypeInfo α) {n : Nat} (val : GoArray α n) :
    Reader (GoArray α n) := do
  let _ ← Stream.list.adaptExcept (.wrapStreamError typ)
  let l ← decodeArrayElems typ info val.val 0
  Stream.listEnd.adaptExcept (.wrapStreamError typ)
  return ⟨l.val, l.property.trans val.property⟩

def TypeInfo.array (typ : String) (n : Nat) (info : TypeInfo α) : TypeInfo (GoArray α n) where
  typ
  zero := ⟨List.replicate n info.zero, List.length_replicate⟩
  writer val w := writeSlice info.writer val.val w
  decoder := decodeListArray typ info

structure Field (α : Type) where
  name : String
  writer : α → EncBuffer → Except EncodeError EncBuffer
  decoder : α → Reader α

def Field.of (name : String) (info : TypeInfo β) (get : α → β) (set : α → β → α) : Field α where
  name
  writer val w := info.writer (get val) w
  decoder val := do
    let b ← info.decoder (get val)
    return set val b

def writeStruct (fields : List (Field α)) (val : α) (w : EncBuffer) :
    Except EncodeError EncBuffer := do
  let (w, lh) := w.list
  let w ← fields.foldlM (fun w f => f.writer val w) w
  return w.listEnd lh

def decodeFields (typ : String) : List (Field α) → α → Reader α
  | [], val => return val
  | f :: fields, val => do
    match ← attempt (f.decoder val) with
    | .error .eol => throw <| .decodeError "too few elements" typ []
    | .error err  => throw <| err.addErrorContext ("." ++ f.name)
    | .ok val     => decodeFields typ fields val

def decodeStruct (typ : String) (fields : List (Field α)) (val : α) : Reader α := do
  let _ ← Stream.list.adaptExcept (.wrapStreamError typ)
  let val ← decodeFields typ fields val
  Stream.listEnd.adaptExcept (.wrapStreamError typ)
  return val

-- The fields are the exported ones, unexported fields are ignored.
def TypeInfo.struct (typ : String) (zero : α) (fields : List (Field α)) : TypeInfo α where
  typ
  zero
  writer := writeStruct fields
  decoder := decodeStruct typ fields

-- A field with the tag "optional". All fields behind it have this tag as well.
structure OptionalField (α : Type) extends Field α where
  isZero : α → Bool
  clear : α → α

def OptionalField.of [DecidableEq β] (name : String) (info : TypeInfo β) (get : α → β)
    (set : α → β → α) : OptionalField α where
  toField := .of name info get set
  isZero val := get val = info.zero
  clear val := set val info.zero

-- The fields behind the last one that is not zero are left out.
def writeOptionalStruct (fields : List (Field α)) (optional : List (OptionalField α)) (val : α)
    (w : EncBuffer) : Except EncodeError EncBuffer :=
  let used := optional.reverse.dropWhile (·.isZero val)
  writeStruct (fields ++ used.reverse.map (·.toField)) val w

-- The fields that the list is too short for are set to zero.
def decodeOptionalFields : List (OptionalField α) → α → Reader α
  | [], val => return val
  | f :: fields, val => do
    match ← attempt (f.decoder val) with
    | .error .eol => return (f :: fields).foldl (fun val f => f.clear val) val
    | .error err  => throw <| err.addErrorContext ("." ++ f.name)
    | .ok val     => decodeOptionalFields fields val

def decodeOptionalStruct (typ : String) (fields : List (Field α)) (optional : List (OptionalField α))
    (val : α) : Reader α := do
  let _ ← Stream.list.adaptExcept (.wrapStreamError typ)
  let val ← decodeFields typ fields val
  let val ← decodeOptionalFields optional val
  Stream.listEnd.adaptExcept (.wrapStreamError typ)
  return val

def TypeInfo.optionalStruct (typ : String) (zero : α) (fields : List (Field α))
    (optional : List (OptionalField α)) : TypeInfo α where
  typ
  zero
  writer := writeOptionalStruct fields optional
  decoder := decodeOptionalStruct typ fields optional

def encodeToBytes (info : TypeInfo α) (val : α) : Except EncodeError Bytes := do
  let w ← info.writer val .empty
  return w.makeBytes

-- The decode target is added to errors that have a path, so that the path has more meaning.
def Stream.decode (info : TypeInfo α) (val : α) : Reader α :=
  (info.decoder val).adaptExcept fun
    | .decodeError msg typ (c :: ctx) =>
      .decodeError msg typ (c :: ctx ++ ["(" ++ info.typ ++ ")"])
    | err => err

-- The input must contain exactly one value and no trailing data.
def decodeBytes (info : TypeInfo α) (b : Bytes) (val : α) : Except DecodeError α :=
  match Stream.decode info val (.reset b b.length) with
  | .error err _ => .error err
  | .ok val s    => if s.r.length > 0 then .error .moreThanOneValue else .ok val

end Rlp
