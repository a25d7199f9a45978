import DomiconExec.Rlp.Raw
import DomiconExec.Trie.StackTrie

-- The input of `deriveSha`, which gives the encoding of each of its elements.
structure DerivableList where
  len : Nat
  encodeIndex : Nat → Bytes

-- The errors of `Update` are omitted, since they are ignored.
structure TrieHasher (σ : Type) where
  reset : σ → σ
  update : σ → Bytes → Bytes → Except GoPanic σ
  hash : σ → Except GoPanic (Hash × σ)

def Trie.StackTrie.hasher (keccak256 : Bytes → Hash) : TrieHasher StackTrie where
  reset := reset
  update := update keccak256
  hash := hash keccak256

variable {σ : Type}

-- The body of the loops of `deriveSha`.
def deriveIndex (hasher : TrieHasher σ) (list : DerivableList) (s : σ) (i : Nat) : Except GoPanic σ :=
  let indexBuf := Rlp.Raw.appendUint64 [] (UInt64.ofNat i)
  hasher.update s indexBuf (list.encodeIndex i)

-- The index zero is visited after those with one byte, in the order of the encodings.
def deriveSha (hasher : TrieHasher σ) (list : DerivableList) (s : σ) :
    Except GoPanic (Hash × σ) := do
  let s := hasher.reset s
  let s ← (List.range' 1 (min list.len 0x80 - 1)).foldlM (deriveIndex hasher list) s
  let s ← if 0 < list.len then deriveIndex hasher list s 0 else pure s
  let s ← (List.range' 0x80 (list.len - 0x80)).foldlM (deriveIndex hasher list) s
  hasher.hash s
