import DomiconExec.Primitives.Lru
import DomiconExec.Core.Rawdb
import DomiconExec.Db.Readers

open Rawdb Sql Db

-- The cache of recent blocks. Blocks are added under their hashes only.
structure BlockCache {Header Body : Type} (c : BlockCodec Header Body) where
  lru : Lru Hash (Block Header Body)
  keyed : ∀ e ∈ lru.items, c.blockHash e.snd = e.fst

namespace BlockCache

variable {Header Body : Type} {c : BlockCodec Header Body}

def blockCacheLimit : Nat :=
  256

def new : BlockCache c where
  lru := .empty blockCacheLimit
  keyed _ h := absurd h List.not_mem_nil

def get (cache : BlockCache c) (hash : Hash) : Option (Block Header Body) × BlockCache c :=
  let (block, _) := cache.lru.get hash
  (block, { lru := (cache.lru.get hash).snd, keyed e h := cache.keyed e (Lru.mem_get h) })

def add (cache : BlockCache c) (block : Block Header Body) : BlockCache c where
  lru := cache.lru.add (c.blockHash block) block
  keyed e h := by
    cases Lru.mem_add h
    case inl h => rw [h]
    case inr h => exact cache.keyed e h

theorem hash_of_get {cache : BlockCache c} {hash : Hash} {block : Block Header Body}
    (h : (cache.get hash).fst = some block) : c.blockHash block = hash :=
  cache.keyed _ (Lru.mem_of_get h)

end BlockCache

-- The stores in which blocks are looked up. The queries to the SQL database fail with `sqlError`.
structure BlockChain {Header Body : Type} (c : BlockCodec Header Body) where
  blockCache : BlockCache c
  db : Store
  sqlDb : Table BlockRow
  sqlError : Option GoError

namespace BlockChain

variable {Header Body : Type} {c : BlockCodec Header Body}

-- A block from the SQL database is not cached.
def getBlock (bc : BlockChain c) (hash : Hash) (number : UInt64) :
    Option (Block Header Body) × BlockChain c :=
  let (cached, blockCache) := bc.blockCache.get hash
  match cached with
  | some block => (some block, { bc with blockCache })
  | none =>
    match readBlock c bc.db hash number with
    | some block => (some block, { bc with blockCache := blockCache.add block })
    | none =>
      match getBlockByNum c.block bc.sqlError bc.sqlDb number with
      | .error _  => (none, { bc with blockCache })
      | .ok block => (some block, { bc with blockCache })

def getBlockByHash (bc : BlockChain c) (hash : Hash) : Option (Block Header Body) × BlockChain c :=
  let (cached, blockCache) := bc.blockCache.get hash
  match cached with
  | some block => (some block, { bc with blockCache })
  | none =>
    match readHeaderNumber bc.db hash with
    | some number => getBlock { bc with blockCache } hash number
    | none =>
      match Db.getBlockByHash bc.sqlError bc.sqlDb hash with
      | .error _  => (none, { bc with blockCache })
      | .ok block => (some block, { bc with blockCache })

def getFileDatasByHash (json : Json) (bc : BlockChain c) (hash : Hash) :
    Option (List (Option DA)) := do
  let number ← readHeaderNumber bc.db hash
  readFileDatas json bc.db hash number

end BlockChain
