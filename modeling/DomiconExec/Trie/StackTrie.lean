import DomiconExec.Rlp.Output

namespace Trie

abbrev Nibble :=
  Fin 16

-- The nibbles of a key, without the terminator that is cut off before a key is inserted.
def keybytesToHex (str : Bytes) : List Nibble :=
  str.flatMap fun b => [.ofNat 16 (b.toNat / 16), .ofNat 16 (b.toNat % 16)]

def decodeNibbles : List Nibble → Bytes
  | a :: b :: hex => UInt8.ofNat (16 * a + b) :: decodeNibbles hex
  | _             => []

-- The terminator is not among the nibbles. There has to be a place for the first byte.
def hexToCompactInPlace (hex : List Nibble) (terminator : Bool) : Except GoPanic Bytes :=
  let firstByte : UInt8 := if terminator then 0x20 else 0
  match hex with
  | [] => if terminator then .ok [firstByte] else .error .indexOutOfRange
  | n :: rest =>
    if hex.length % 2 = 1 then
      .ok ((firstByte ||| 0x10 ||| UInt8.ofNat n) :: decodeNibbles rest)
    else
      .ok (firstByte :: decodeNibbles hex)

-- The types of a node with the fields that are in use. A child of a branch may be missing.
inductive StNode
  | emptyNode
  | branchNode (children : Nibble → Option StNode)
  | extNode (key : List Nibble) (child : StNode)
  | leafNode (key : List Nibble) (val : Bytes)
  | hashedNode (val : Bytes)

def emptyRootHash : Hash where
  val := [
    0x56, 0xE8, 0x1F, 0x17, 0x1B, 0xCC, 0x55, 0xA6, 0xFF, 0x83, 0x45, 0xE6, 0x92, 0xC0, 0xF8, 0x6E,
    0x5B, 0x48, 0xE0, 0x1B, 0x99, 0x6C, 0xAD, 0xC0, 0x01, 0x62, 0x2F, 0xB5, 0xE3, 0x63, 0xB4, 0x21
  ]
  property := rfl

namespace StNode

section Hash

variable (keccak256 : Bytes → Hash)

def reference (val : Bytes) : Rlp.Op :=
  if val.length < 32 then .write val else .writeBytes val

-- The value of a node with some encoding. Only long encodings are hashed.
def finish (fields : List Rlp.Op) : Bytes :=
  let encodedNode := ((Rlp.Op.list fields).run .empty).makeBytes
  if encodedNode.length < 32 then encodedNode else (keccak256 encodedNode).val

mutual

-- The value of the node after it was converted to a hashed node.
def hash : StNode → Except GoPanic Bytes
  | hashedNode val => .ok val
  | emptyNode => .ok emptyRootHash.val
  | branchNode children => do
    let nodes ← (List.finRange 16).mapM fun i => hashChild (children i)
    return finish keccak256 (nodes ++ [.write [0x80]])
  | extNode key child => do
    let val ← hash child
    let key ← hexToCompactInPlace key false
    return finish keccak256 [.writeBytes key, reference val]
  | leafNode key val => do
    let key ← hexToCompactInPlace key true
    return finish keccak256 [.writeBytes key, .writeBytes val]

def hashChild : Option StNode → Except GoPanic Rlp.Op
  | none       => .ok (.writeBytes [])
  | some child => reference <$> hash child

end

-- The index at which the key of a node differs from a key. The node's key must not be longer.
def getDiffIndex : List Nibble → List Nibble → Except GoPanic Nat
  | [], _           => .ok 0
  | _ :: _, []      => .error .indexOutOfRange
  | n :: ns, k :: ks => if n = k then (· + 1) <$> getDiffIndex ns ks else .ok 0

def nibbleAt (key : List Nibble) (i : Nat) : Except GoPanic Nibble :=
  match key[i]? with
  | some n => .ok n
  | none   => .error .indexOutOfRange

-- Hashes the last child before an index.
def unresolveElder (children : Nibble → Option StNode) (idx : Nibble) :
    Except GoPanic (Nibble → Option StNode) :=
  match (List.finRange 16).reverse.find? fun i => i < idx ∧ (children i).isSome with
  | none   => .ok children
  | some i =>
    match children i with
    | none       => .ok children
    | some child => do
      let val ← hash keccak256 child
      return Function.update children i (some (hashedNode val))

-- A branch with the hashed part of a node that was split, and a new leaf.
def splitAt (prefixKey : List Nibble) (origIdx : Nibble) (orig : Bytes) (newIdx : Nibble) (o : StNode) :
    StNode :=
  let children := Function.update (fun _ => none) origIdx (some (hashedNode orig))
  let p := branchNode (Function.update children newIdx (some o))
  if prefixKey = [] then p else extNode prefixKey p

mutual

def insert : StNode → List Nibble → Bytes → Except GoPanic StNode
  | branchNode children, key, value => do
    let idx ← nibbleAt key 0
    let elder ← unresolveElder keccak256 children idx
    let child ← insertChild (children idx) (key.drop 1) value
    return branchNode (Function.update elder idx (some child))
  | extNode stKey child, key, value => do
    let diffidx ← getDiffIndex stKey key
    if diffidx = stKey.length then
      return extNode stKey (← insert child (key.drop diffidx) value)
    else
      let n ←
        if diffidx < stKey.length - 1 then
          hash keccak256 (extNode (stKey.drop (diffidx + 1)) child)
        else
          hash keccak256 child
      let origIdx ← nibbleAt stKey diffidx
      let newIdx ← nibbleAt key diffidx
      return splitAt (stKey.take diffidx) origIdx n newIdx (leafNode (key.drop (diffidx + 1)) value)
  | leafNode stKey val, key, value => do
    let diffidx ← getDiffIndex stKey key
    if stKey.length ≤ diffidx then
      throw <| .explicit "Trying to insert into existing key"
    let origIdx ← nibbleAt stKey diffidx
    let n ← hash keccak256 (leafNode (stKey.drop (diffidx + 1)) val)
    let newIdx ← nibbleAt key diffidx
    return splitAt (stKey.take diffidx) origIdx n newIdx (leafNode (key.drop (diffidx + 1)) value)
  | emptyNode, key, value => .ok (leafNode key value)
  | hashedNode _, _, _ => .error (.explicit "trying to insert into hash")

def insertChild : Option StNode → List Nibble → Bytes → Except GoPanic StNode
  | none, key, value       => .ok (leafNode key value)
  | some child, key, value => insert child key value

end

end Hash

end StNode

-- There is no function for committing nodes after a reset.
structure StackTrie where
  root : StNode

namespace StackTrie

variable (keccak256 : Bytes → Hash)

def reset (_ : StackTrie) : StackTrie where
  root := .emptyNode

def update (t : StackTrie) (key value : Bytes) : Except GoPanic StackTrie := do
  let k := keybytesToHex key
  if value = [] then
    throw <| .explicit "deletion not supported"
  return { root := ← t.root.insert keccak256 k value }

-- The hash of a root whose encoding is short was not computed yet.
def hash (t : StackTrie) : Except GoPanic (Hash × StackTrie) := do
  let val ← t.root.hash keccak256
  let h := if val.length = 32 then bytesToHash val else keccak256 val
  return (h, { root := .hashedNode val })

end StackTrie
end Trie
