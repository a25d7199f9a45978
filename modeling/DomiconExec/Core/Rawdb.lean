import DomiconExec.Primitives.GoMap
import DomiconExec.Objects.DA

namespace Rawdb

open GoString (ascii)

def headerPrefix : Bytes :=
  ascii "h"

def headerNumberPrefix : Bytes :=
  ascii "H"

def blockBodyPrefix : Bytes :=
  ascii "b"

def blockFileDatasPrefix : Bytes :=
  ascii "F"

def encodeBlockNumber (number : UInt64) : Bytes :=
  Bytes.fit 8 (Bytes.bigEndian number.toNat)

def headerKey (number : UInt64) (hash : Hash) : Bytes :=
  headerPrefix ++ encodeBlockNumber number ++ hash.val

def headerNumberKey (hash : Hash) : Bytes :=
  headerNumberPrefix ++ hash.val

def blockBodyKey (number : UInt64) (hash : Hash) : Bytes :=
  blockBodyPrefix ++ encodeBlockNumber number ++ hash.val

def blockFileDatasKey (number : UInt64) (hash : Hash) : Bytes :=
  blockFileDatasPrefix ++ encodeBlockNumber number ++ hash.val

-- The tables of the freezer that are read here.
inductive FreezerTable
  | headers
  | hashes
  | bodies

-- The key-value store and the freezer, which holds old blocks by their numbers.
structure Store where
  kv : GoMap Bytes Bytes
  ancient : FreezerTable → UInt64 → Option Bytes

namespace Store

def get (db : Store) (key : Bytes) : Option Bytes :=
  db.kv.get key

def put (db : Store) (key value : Bytes) : Store :=
  { db with kv := db.kv.set key value }

-- What remains of a failed read is an empty slice.
def read (db : Store) (key : Bytes) : Bytes :=
  (db.get key).getD []

def readAncient (db : Store) (table : FreezerTable) (number : UInt64) : Bytes :=
  (db.ancient table number).getD []

end Store

def readHeaderNumber (db : Store) (hash : Hash) : Option UInt64 :=
  let data := db.read (headerNumberKey hash)
  if data.length ≠ 8 then none else some (.ofNat (Bytes.toNat data))

section Blocks

structure Block (Header Body : Type) where
  header : Header
  body : Body

-- How headers, bodies and blocks are decoded, and how headers are hashed.
structure BlockCodec (Header Body : Type) where
  header : Bytes → Except GoError Header
  body : Bytes → Except GoError Body
  block : Bytes → Except GoError (Block Header Body)
  hash : Header → Hash
  keccak256 : Bytes → Hash

variable {Header Body : Type} (c : BlockCodec Header Body)

def BlockCodec.blockHash (block : Block Header Body) : Hash :=
  c.hash block.header

-- The freezer has canonical blocks only, so that the hash is compared.
def readHeaderRLP (db : Store) (hash : Hash) (number : UInt64) : Bytes :=
  let data := db.readAncient .headers number
  if data.length > 0 ∧ c.keccak256 data = hash then data else db.read (headerKey number hash)

def readHeader (db : Store) (hash : Hash) (number : UInt64) : Option Header :=
  let data := readHeaderRLP c db hash number
  if data.length = 0 then none else (c.header data).toOption

def isCanon (db : Store) (number : UInt64) (hash : Hash) : Bool :=
  db.ancient .hashes number = some hash.val

def readBodyRLP (db : Store) (hash : Hash) (number : UInt64) : Bytes :=
  if isCanon db number hash then
    db.readAncient .bodies number
  else
    db.read (blockBodyKey number hash)

def readBody (db : Store) (hash : Hash) (number : UInt64) : Option Body :=
  let data := readBodyRLP db hash number
  if data.length = 0 then none else (c.body data).toOption

def readBlock (db : Store) (hash : Hash) (number : UInt64) : Option (Block Header Body) := do
  let header ← readHeader c db hash number
  let body ← readBody c db hash number
  return { header, body }

end Blocks

section FileDatas

-- The functions of the package `json` for lists of pointers to data.
structure Json where
  marshal : List (Option DA) → Except GoError Bytes
  unmarshal : Bytes → Except GoError (List (Option DA))

variable (json : Json)

def readFileDatas (db : Store) (hash : Hash) (number : UInt64) : Option (List (Option DA)) :=
  let data := db.read (blockBodyKey number hash)
  if data.length = 0 then none else (json.unmarshal data).toOption

-- If the data cannot be marshalled, then an empty value is stored.
def writeFileDatas (db : Store) (hash : Hash) (number : UInt64) (fileDatas : List (Option DA)) :
    Store :=
  db.put (blockFileDatasKey number hash) ((json.marshal fileDatas).toOption.getD [])

end FileDatas
end Rawdb
