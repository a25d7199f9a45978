import DomiconExec.Core.BlockChain

open Rawdb Sql Db

namespace BlockChain

variable {Header Body : Type} {c : BlockCodec Header Body} {bc : BlockChain c} {hash : Hash}
variable {number : UInt64} {block : Block Header Body}

def stored (bc : BlockChain c) (hash : Hash) (number : UInt64) : Option (Block Header Body) :=
  (readBlock c bc.db hash number).or
    (getBlockByNum c.block bc.sqlError bc.sqlDb number).toOption

theorem getBlock_fst : (bc.getBlock hash number).fst =
    (bc.blockCache.get hash).fst.or (bc.stored hash number) := by
  unfold getBlock stored
  cases hc : (bc.blockCache.get hash).fst
  case some => simp [hc]
  case none =>
    cases hr : readBlock c bc.db hash number
    case some => simp [hc]
    case none =>
      cases hn : getBlockByNum c.block bc.sqlError bc.sqlDb number <;> simp [hc, Except.toOption]

theorem getBlockByHash_fst : (bc.getBlockByHash hash).fst = (bc.blockCache.get hash).fst.or
    ((readHeaderNumber bc.db hash).bind (bc.stored hash)) := by
  unfold getBlockByHash
  cases hc : (bc.blockCache.get hash).fst
  case some => simp [hc]
  case none =>
    have hs : (bc.blockCache.get hash).snd = bc.blockCache := by
      have hl : (bc.blockCache.lru.get hash).snd = bc.blockCache.lru := Lru.get_snd_of_none hc
      simp only [BlockCache.get, hl]
    cases hn : readHeaderNumber bc.db hash
    case some n =>
      have hb := @getBlock_fst _ _ _ bc hash n
      rw [hc] at hb
      simpa [hc, hs] using hb
    case none =>
      have he : ∃ err, Db.getBlockByHash bc.sqlError bc.sqlDb hash =
          (.error err : Except GoError (Block Header Body)) := by
        unfold Db.getBlockByHash
        dsimp only
        split <;> exact ⟨_, rfl⟩
      obtain ⟨err, he⟩ := he
      simp [hc, he]

theorem getBlock_db : (bc.getBlock hash number).snd.db = bc.db := by
  unfold getBlock
  dsimp only
  split
  case h_1 => rfl
  case h_2 =>
    split
    case h_1 => rfl
    case h_2 => split <;> rfl

theorem getBlockByHash_db : (bc.getBlockByHash hash).snd.db = bc.db := by
  unfold getBlockByHash
  dsimp only
  split
  case h_1 => rfl
  case h_2 =>
    split
    case h_1 => exact getBlock_db
    case h_2 => split <;> rfl

-- The block stored under a number and a hash has this hash. If there is none, the first row with
-- the number does not have another one.
structure Sound (bc : BlockChain c) (hash : Hash) (number : UInt64) : Prop where
  block : ∀ block, readBlock c bc.db hash number = some block → c.blockHash block = hash
  row : readBlock c bc.db hash number = none → bc.sqlError = none →
    ∀ row, bc.sqlDb.rows.find? (·.blockNum = (number.toNat : Int)) = some row →
    ∀ block, c.block (Hex.hex2Bytes row.encodeData) = .ok block → c.blockHash block = hash

theorem getBlockByNum_eq_ok_iff {decode : Bytes → Except GoError (Block Header Body)}
    {fault : Option GoError} {t : Table BlockRow} :
    getBlockByNum decode fault t number = .ok block ↔ fault = none ∧
      ∃ row, t.rows.find? (·.blockNum = (number.toNat : Int)) = some row ∧
        decode (Hex.hex2Bytes row.encodeData) = .ok block := by
  unfold getBlockByNum
  cases fault
  case some => simp
  case none =>
    cases ht : t.rows.find? (·.blockNum = (number.toNat : Int))
    case none =>
      dsimp only
      split <;> simp
    case some row =>
      have hn : t.rows.length ≠ 0 := fun h => by
        rw [List.length_eq_zero_iff.mp h] at ht
        cases ht
      simp [hn]

theorem toOption_eq_some_iff {x : Except GoError (Block Header Body)} :
    x.toOption = some block ↔ x = .ok block := by
  cases x <;> simp [Except.toOption]

theorem stored_iff : (∀ block, bc.stored hash number = some block → c.blockHash block = hash) ↔
    bc.Sound hash number := by
  unfold stored
  cases hr : readBlock c bc.db hash number
  case some block =>
    constructor
    case mp =>
      refine fun h => ⟨fun _ hb => h _ (hr.symm.trans hb), fun hn => ?_⟩
      cases hr.symm.trans hn
    case mpr => exact fun h _ hb => h.block _ (hr.trans hb)
  case none =>
    simp only [Option.none_or, toOption_eq_some_iff, getBlockByNum_eq_ok_iff]
    constructor
    case mp =>
      refine fun h => ⟨fun _ hb => ?_, fun _ he row hf block hd => h block ⟨he, row, hf, hd⟩⟩
      cases hr.symm.trans hb
    case mpr =>
      rintro h block ⟨he, row, hf, hd⟩
      exact h.row hr he row hf block hd

-- Unless the block is cached, what is found by its number has to be the requested block.
theorem faithful_iff (bc : BlockChain c) (hash : Hash) (number : UInt64) :
    (∀ block, (bc.getBlock hash number).fst = some block ∨
      (bc.getBlockByHash hash).fst = some block → c.blockHash block = hash) ↔
    (bc.blockCache.get hash).fst.isSome ∨
      bc.Sound hash number ∧ ∀ n, readHeaderNumber bc.db hash = some n → bc.Sound hash n := by
  rw [getBlock_fst, getBlockByHash_fst]
  cases hc : (bc.blockCache.get hash).fst
  case some block =>
    refine iff_of_true ?_ (.inl rfl)
    rintro _ (hb | hb)
    all_goals
      cases hb
      exact BlockCache.hash_of_get hc
  case none =>
    simp only [Option.none_or, Option.isSome_none, Bool.false_eq_true, false_or, or_imp,
      forall_and, ← stored_iff]
    refine and_congr_right fun _ => ?_
    cases readHeaderNumber bc.db hash <;> simp

def bareCodec : BlockCodec Bytes Unit where
  header := .ok
  body _ := .ok ()
  block b := .ok ⟨b, ()⟩
  hash := .setBytes
  keccak256 := .setBytes

-- The chain after a reorganization, in which another block has taken the number 1.
def reorganized : BlockChain bareCodec where
  blockCache := .new
  db := { kv := ∅, ancient := fun _ _ => none }
  sqlDb := [⟨{
    blockNum := 1
    blockHash := (bytesToHash [2]).hex
    parentHash := (bytesToHash []).hex
    encodeData := Hex.bytes2Hex [2]
    receivedAt := []
  }, false⟩]
  sqlError := none

-- The hash of the block that was replaced is requested.
theorem not_forall_faithful :
    ¬∀ (Header Body : Type) (c : BlockCodec Header Body) (bc : BlockChain c) (hash : Hash)
      (number : UInt64) (block : Block Header Body),
        (bc.getBlock hash number).fst = some block ∨ (bc.getBlockByHash hash).fst = some block →
          c.blockHash block = hash := by
  intro h
  have hb : (reorganized.getBlock (bytesToHash [1]) 1).fst = some ⟨[2], ()⟩ := by
    rw [getBlock_fst]
    rfl
  have he := h Bytes Unit bareCodec reorganized (bytesToHash [1]) 1 ⟨[2], ()⟩ (.inl hb)
  exact absurd he (by decide)
end BlockChain
