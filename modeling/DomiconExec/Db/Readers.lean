import DomiconExec.Db.DAData

namespace Db

open Sql

section Blocks

variable {Block : Type}

def errNoPointer : GoError :=
  ⟨"rlp: interface given to Decode must be a pointer"⟩

-- The block is decoded into something that is not a pointer, which fails for every row.
def getBlockByHash (fault : Option GoError) (t : Table BlockRow) (blockHash : Hash) :
    Except GoError Block :=
  let hex := String.ofList (blockHash.hex.map fun b => Char.ofNat b.toNat)
  match fault, t.rows.find? (·.blockHash = blockHash.hex) with
  | none, some _ => .error errNoPointer
  | _, _         => .error ⟨s!"can not find block with given blockHash :{hex}"⟩

def getBlockByNum (decode : Bytes → Except GoError Block) (fault : Option GoError)
    (t : Table BlockRow) (blockNum : UInt64) : Except GoError Block :=
  match fault with
  | some err => .error err
  | none =>
    if t.rows.length = 0 then
      .error ⟨"Block table is empty"⟩
    else
      match t.rows.find? (·.blockNum = (blockNum.toNat : Int)) with
      | none       => .error ⟨"record not found"⟩
      | some block => decode (Hex.hex2Bytes block.encodeData)

end Blocks
end Db
