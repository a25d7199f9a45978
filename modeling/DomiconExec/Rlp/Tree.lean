import DomiconExec.Rlp.Encode
import DomiconExec.Rlp.Decode

namespace Rlp

namespace EncBuffer

mutual

-- Writes a tree with the operations for strings and lists.
def writeItem : Item → EncBuffer → EncBuffer
  | .str b, w      => w.writeBytes b
  | .list items, w => (writeItems items w.list.fst).listEnd w.list.snd

def writeItems : List Item → EncBuffer → EncBuffer
  | [], w            => w
  | item :: items, w => writeItems items (writeItem item w)

end

end EncBuffer

def Item.toBytes (item : Item) : Bytes :=
  (EncBuffer.writeItem item .empty).makeBytes

namespace Stream

-- A stream over a byte slice. Its limit is the length of the slice, even if that is zero.
def ofBytes (b : Bytes) : Stream :=
  { reset b b.length with limited := true }

mutual

-- The calls that read a tree succeed, and lead from one state of the stream to another.
def Reads : Item → Stream → Stream → Prop
  | .str b, s, s'      => bytes s = .ok b s'
  | .list items, s, s' => ∃ size s₁ s₂,
    list s = .ok size s₁ ∧ ReadsAll items s₁ s₂ ∧ listEnd s₂ = .ok () s'

def ReadsAll : List Item → Stream → Stream → Prop
  | [], s, s'            => s' = s
  | item :: items, s, s' => ∃ s₁, Reads item s s₁ ∧ ReadsAll items s₁ s'

end

end Stream
end Rlp
