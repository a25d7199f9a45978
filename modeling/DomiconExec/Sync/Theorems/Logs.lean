import DomiconExec.Sync.Theorems.Accept

namespace Sync

open List Db Sql

variable {keccak256 : Bytes → Hash} {d : Database} {log log' : EthLog} {logs logs' : List EthLog}
variable {row : LogRow} {rows : List LogRow} {receipts receipts' : List EthReceipt}

-- The part of `processBlocks` that stores the logs of the receipts.
def storeLogs (keccak256 : Bytes → Hash) (receipts : List EthReceipt) (tx : Tx) :
    Except GoPanic (Tx × Option Error) := do
  let logs ← collectLogs (receipts.map some)
  addBatchLogs keccak256 logs tx

-- The logs for which the columns are made.
structure Fits (log : EthLog) : Prop where
  topics : log.topics.length ≤ 4
  index : log.index < 2^31
  blockNumber : log.blockNumber.toNat < 2^63

structure Storable (r : EthReceipt) : Prop where
  successful : r.status = 1
  fits : ∀ log ∈ r.logs, Fits log

-- The logs are stored, and they can be told from the rows.
structure Lossless (keccak256 : Bytes → Hash) (d : Database) (receipts : List EthReceipt) :
    Prop where
  stored : ∃ rows, storeLogs keccak256 receipts (some d) =
    .ok (some { d with logs := d.logs ++ rows }, none)
  determined : ∀ receipts', (∀ r ∈ receipts', Storable r) →
    storeLogs keccak256 receipts' (some d) = storeLogs keccak256 receipts (some d) →
      receipts'.flatMap EthReceipt.logs = receipts.flatMap EthReceipt.logs

theorem storeLogs_eq (tx : Tx) : storeLogs keccak256 receipts tx =
    addBatchLogs keccak256 (receipts.flatMap EthReceipt.logs) tx :=
  Loop.bind_of_eq_ok <| collectLogs_some receipts

-- The columns that do not depend on the topics.
structure Columns (keccak256 : Bytes → Hash) (log : EthLog) (row : LogRow) : Prop where
  txHash : row.txHash = log.txHash.hex
  logIndex : row.logIndex = log.index
  address : row.address = log.address.checksumHex keccak256
  blockNum : row.blockNum = int64 log.blockNumber
  blockHash : row.blockHash = log.blockHash.hex
  removed : row.removed = log.removed
  data : row.data = Hex.bytes2Hex log.data

theorem logRow_columns (h : logRow keccak256 log = .ok row) : Columns keccak256 log row := by
  unfold logRow at h
  split at h
  case h_1 => contradiction
  all_goals
    cases h
    exact ⟨rfl, rfl, rfl, rfl, rfl, rfl, rfl⟩

-- The second column is left empty unless the log has exactly one topic.
theorem logRow_topic1 (h : logRow keccak256 log = .ok row) :
    row.topic1 = [] ∨ ∃ t : Hash, log.topics = [t] ∧ row.topic1 = t.hex := by
  unfold logRow at h
  split at h
  case h_1 => contradiction
  case h_2 t ht =>
    cases h
    exact .inr ⟨t, ht, rfl⟩
  all_goals
    cases h
    exact .inl rfl

theorem logRow_single {t : Hash} (ht : log.topics = [t]) (h : logRow keccak256 log = .ok row) :
    row.topic1 = t.hex := by
  simp only [logRow, ht] at h
  cases h
  rfl

theorem int64_injective {m n : UInt64} (h : int64 m = int64 n) : m = n := by
  rw [← m.toUInt64_toInt64, Int64.toInt_inj.mp h, n.toUInt64_toInt64]

theorem Columns.eq (c : Columns keccak256 log row) (c' : Columns keccak256 log' row)
    (ht : log'.topics = log.topics) : log' = log := by
  have h₁ := ByteArr.hex_injective <| c'.txHash.symm.trans c.txHash
  have h₂ := Int.ofNat_inj.mp <| c'.logIndex.symm.trans c.logIndex
  have h₃ := ByteArr.checksumHex_injective <| c'.address.symm.trans c.address
  have h₄ := int64_injective <| c'.blockNum.symm.trans c.blockNum
  have h₅ := ByteArr.hex_injective <| c'.blockHash.symm.trans c.blockHash
  have h₆ := c'.removed.symm.trans c.removed
  have h₇ := Hex.bytes2Hex_injective <| c'.data.symm.trans c.data
  cases log
  cases log'
  simp_all

-- A row with the only topic of a log belongs to this log alone.
theorem eq_of_logRow (hl : log.topics.length = 1) (h : logRow keccak256 log = .ok row)
    (h' : logRow keccak256 log' = .ok row) : log' = log := by
  obtain ⟨t, ht⟩ := length_eq_one_iff.mp hl
  have hr := logRow_single ht h
  refine (logRow_columns h).eq (logRow_columns h') ?_
  obtain hn | ⟨t', ht', hr'⟩ := logRow_topic1 h'
  case inl => exact absurd (hr.symm.trans hn) t.hex_ne_nil
  case inr => rw [ht, ht', ByteArr.hex_injective (hr'.symm.trans hr)]

theorem addBatchLogs_rows (keccak256 : Bytes → Hash) (d : Database)
    (h : ∀ log ∈ logs, log.topics ≠ []) : ∃ rows,
    List.Forall₂ (fun log row => logRow keccak256 log = .ok row) logs rows ∧
    addBatchLogs keccak256 logs (some d) =
      .ok (some { d with logs := d.logs ++ rows.map (⟨·, false⟩) }, none) := by
  have hk (x : LogRow) (k : GoString) : k ∉ LogRow.key x := Option.not_mem_none k
  obtain ⟨r, hr⟩ := (addBatchLogs_ok_iff keccak256 logs (some d)).mpr h
  obtain ⟨rows, hf, he⟩ := addBatchWith_ok insertLog_inserts
    (pairwise_of_forall fun _ _ _ y _ _ k _ => hk y k) (fun _ _ x _ k h => absurd h (hk x k)) hr
  exact ⟨rows, hf, he ▸ hr⟩

theorem eq_of_forall₂ (hl : ∀ log ∈ logs, log.topics.length = 1)
    (h : List.Forall₂ (fun log row => logRow keccak256 log = .ok row) logs rows)
    (h' : List.Forall₂ (fun log row => logRow keccak256 log = .ok row) logs' rows) :
    logs' = logs := by
  induction h generalizing logs'
  case nil => exact forall₂_nil_right_iff.mp h'
  case cons log row logs rows hr _ hi =>
    obtain ⟨hl, hls⟩ := forall_mem_cons.mp hl
    obtain ⟨log', logs', hr', hf', rfl⟩ := forall₂_cons_right_iff.mp h'
    rw [eq_of_logRow hl hr hr', hi hls hf']

def other (h : Hash) : Hash :=
  if h = .fill 0 then .fill 1 else .fill 0

theorem other_ne (h : Hash) : other h ≠ h := by
  unfold other
  split
  case isTrue he  => exact he ▸ by decide
  case isFalse hn => exact Ne.symm hn

-- Replaces the topics that are not stored if there are several.
def alter (log : EthLog) : EthLog :=
  { log with topics := log.topics.take 1 ++ (log.topics.drop 1).map other }

theorem logRow_alter (log : EthLog) : logRow keccak256 (alter log) = logRow keccak256 log := by
  unfold logRow alter
  rcases log.topics with _ | ⟨t, _ | ⟨u, _ | ⟨v, _ | ⟨w, l⟩⟩⟩⟩ <;> rfl

theorem addBatchLogs_alter (logs : List EthLog) (tx : Tx) :
    addBatchLogs keccak256 (logs.map alter) tx = addBatchLogs keccak256 logs tx := by
  unfold addBatchLogs
  induction logs generalizing tx
  case nil => rfl
  case cons log logs hi => simp only [map_cons, addBatchWith, logRow_alter, hi]

theorem alter_eq_self (h : alter log = log) : log.topics.length ≤ 1 := by
  have ht : log.topics.take 1 ++ (log.topics.drop 1).map other = log.topics :=
    congrArg EthLog.topics h
  revert ht
  rcases log.topics with _ | ⟨t, _ | ⟨u, l⟩⟩ <;> intro ht
  case nil       => exact Nat.zero_le 1
  case cons.nil  => exact Nat.le_refl 1
  case cons.cons => exact absurd (List.cons.inj (List.cons.inj ht).right).left (other_ne u)

theorem Fits.alter (f : Fits log) : Fits (alter log) := by
  refine ⟨?_, f.index, f.blockNumber⟩
  have hl := f.topics
  simp only [Sync.alter, length_append, length_take, length_map, length_drop]
  omega

def alterReceipt (r : EthReceipt) : EthReceipt :=
  { r with logs := r.logs.map alter }

theorem Storable.alter {r : EthReceipt} (s : Storable r) : Storable (alterReceipt r) := by
  refine ⟨s.successful, ?_⟩
  intro log hl
  obtain ⟨log₁, hm, rfl⟩ := mem_map.mp hl
  exact (s.fits log₁ hm).alter

theorem flatMap_alterReceipt (receipts : List EthReceipt) :
    (receipts.map alterReceipt).flatMap EthReceipt.logs =
      (receipts.flatMap EthReceipt.logs).map Sync.alter := by
  rw [flatMap_map, map_flatMap]
  rfl

theorem Lossless.length_topics (l : Lossless keccak256 d receipts)
    (hs : ∀ r ∈ receipts, Storable r) :
    ∀ log ∈ receipts.flatMap EthReceipt.logs, log.topics.length = 1 := by
  intro log hm
  apply Nat.le_antisymm
  case h₁ =>
    -- The other topics can be replaced without any effect on the rows.
    have hs' : ∀ r ∈ receipts.map alterReceipt, Storable r := by
      rw [forall_mem_map]
      exact fun r hr => (hs r hr).alter
    have he : storeLogs keccak256 (receipts.map alterReceipt) (some d) =
        storeLogs keccak256 receipts (some d) := by
      rw [storeLogs_eq, storeLogs_eq, flatMap_alterReceipt, addBatchLogs_alter]
    have hd := l.determined _ hs' he
    rw [flatMap_alterReceipt] at hd
    exact alter_eq_self <| map_inj_left.mp (hd.trans (map_id _).symm) log hm
  case h₂ =>
    obtain ⟨rows, hr⟩ := l.stored
    rw [storeLogs_eq] at hr
    have hn := (addBatchLogs_ok_iff keccak256 _ (some d)).mp ⟨_, hr⟩ log hm
    exact length_pos_of_ne_nil hn

theorem lossless_of_length (hl : ∀ log ∈ receipts.flatMap EthReceipt.logs, log.topics.length = 1) :
    Lossless keccak256 d receipts := by
  have hn : ∀ log ∈ receipts.flatMap EthReceipt.logs, log.topics ≠ [] :=
    fun log hm => ne_nil_of_length_pos <| (hl log hm).symm ▸ Nat.one_pos
  obtain ⟨rows, hf, hr⟩ := addBatchLogs_rows keccak256 d hn
  constructor
  case stored => exact ⟨_, (storeLogs_eq _).trans hr⟩
  case determined =>
    intro receipts' _ he
    rw [storeLogs_eq, storeLogs_eq, hr] at he
    have hn' := (addBatchLogs_ok_iff keccak256 _ (some d)).mp ⟨_, he⟩
    obtain ⟨rows', hf', hr'⟩ := addBatchLogs_rows keccak256 d hn'
    have hd := Option.some.inj (Prod.mk.inj (Except.ok.inj (hr'.symm.trans he))).left
    have hd := append_cancel_left (congrArg Database.logs hd)
    have hd := map_injective_iff.mpr (fun _ _ h => (Record.mk.inj h).left) hd
    exact eq_of_forall₂ hl hf (hd ▸ hf')

theorem lossless_iff (keccak256 : Bytes → Hash) (d : Database) (receipts : List EthReceipt)
    (hs : ∀ r ∈ receipts, Storable r) : Lossless keccak256 d receipts ↔
      ∀ log ∈ receipts.flatMap EthReceipt.logs, log.topics.length = 1 :=
  ⟨fun l => l.length_topics hs, lossless_of_length⟩

def sampleKeccak : Bytes → Hash :=
  fun _ => .fill 0

-- A log of `count` topics in an otherwise empty receipt of a successful transaction.
def sampleReceipt (count : Nat) : EthReceipt where
  type := 0
  status := 1
  cumulativeGasUsed := 0
  gasUsed := 0
  txHash := .fill 0
  blockNumber := 0
  contractAddress := .fill 0
  logs := [{
    address := .fill 0
    topics := List.replicate count (.fill 0)
    data := []
    blockNumber := 0
    txHash := .fill 0
    index := 0
    blockHash := .fill 0
    removed := false
  }]

theorem storable_sampleReceipt {count : Nat} (h : count ≤ 4) : Storable (sampleReceipt count) where
  successful := rfl
  fits log hl := by
    cases mem_singleton.mp hl
    refine ⟨?_, Nat.two_pow_pos 31, Nat.two_pow_pos 63⟩
    rwa [length_replicate]

theorem lossless_sampleReceipt : Lossless sampleKeccak .empty [sampleReceipt 1] := by
  refine (lossless_iff sampleKeccak .empty [sampleReceipt 1] ?_).mpr ?_
  case refine_1 => exact forall_mem_singleton.mpr <| storable_sampleReceipt (by decide)
  case refine_2 => exact forall_mem_singleton.mpr rfl

-- A log without topics ends the insertion, and of two topics only the first one is stored.
theorem not_lossless_sampleReceipt :
    storeLogs sampleKeccak [sampleReceipt 0] (some .empty) = .error .indexOutOfRange ∧
    storeLogs sampleKeccak [alterReceipt (sampleReceipt 2)] (some .empty) =
      storeLogs sampleKeccak [sampleReceipt 2] (some .empty) ∧
    ¬∀ receipts, (∀ r ∈ receipts, Storable r) → Lossless sampleKeccak .empty receipts := by
  refine ⟨rfl, rfl, ?_⟩
  intro h
  have hs : ∀ r ∈ [sampleReceipt 2], Storable r :=
    forall_mem_singleton.mpr <| storable_sampleReceipt (by decide)
  have hl := (h _ hs).length_topics hs
  exact absurd (forall_mem_singleton.mp hl) (by decide)

end Sync
