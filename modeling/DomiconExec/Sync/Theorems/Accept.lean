import DomiconExec.Objects.Theorems.Signing
import DomiconExec.Pool.Theorems.Admission
import DomiconExec.Sync.Theorems.Batch
import DomiconExec.Sync.Theorems.Rollback

namespace Sync

open List Db Sql FilePool

variable {c : Config} {env : Env} {blocks : List EthBlock} {logs : List EthLog} {tx : Tx}
variable {cache cache' : CommitCache} {k : Hash} {log : EthLog} {detail : CommitDetail}

-- The calldata is long enough for a commitment, if there is any.
def Sliced (t : EthTransaction) : Prop :=
  t.data.length = 0 ∨ 196 ≤ t.data.length

def detailOf (env : Env) (bc : EthBlock) (t : EthTransaction) : CommitDetail where
  nonce := 0
  index := 0
  blockNum := .ofNat bc.number
  commit :=
    coordinate (t.data.drop 132 |>.take 32) ++ coordinate (t.data.drop 164 |>.take 32)
  sigData := []
  nameSpaceId := none
  signAddress := []
  time := .ofUnix env.zone (int64 bc.time)
  outOfTime := .zero
  root := .zero

def record (env : Env) (bc : EthBlock) (cache : CommitCache) (t : EthTransaction) : CommitCache :=
  if t.data.length = 0 then cache else cache.set t.hash (some (detailOf env bc t))

def recordAll (c : Config) (env : Env) (blocks : List EthBlock) (cache : CommitCache) :
    CommitCache :=
  blocks.foldl (fun cache bc =>
    (bc.transactions.filter (isCommitment c env)).foldl (record env bc) cache) cache

theorem readCommitment_eq {bc : EthBlock} {t : EthTransaction} (h : Sliced t) :
    readCommitment env bc cache t = .ok (record env bc cache t) := by
  unfold readCommitment record
  by_cases hz : t.data.length = 0
  case pos => rw [if_neg (not_not.mpr hz), if_pos hz]; rfl
  case neg =>
    have hl : ¬t.data.length < 196 := Nat.not_lt.mpr (h.resolve_left hz)
    rw [if_pos hz, if_neg hz, slice, if_neg hl]
    rfl

theorem sliced_of_readCommitment {bc : EthBlock} {t : EthTransaction}
    (h : readCommitment env bc cache t = .ok cache') : Sliced t := by
  unfold readCommitment at h
  split at h
  case isFalse hz => exact .inl (not_not.mp hz)
  case isTrue =>
    obtain ⟨_, hs, _⟩ := Loop.bind_eq_ok h
    unfold slice at hs
    split at hs
    case isTrue     => cases hs
    case isFalse hl => exact .inr (Nat.not_lt.mp hl)

theorem transactionRows_cons (bc : EthBlock) (blocks : List EthBlock) :
    transactionRows c env (bc :: blocks) =
      (bc.transactions.filter (isCommitment c env)).map (transactionRow bc.number) ++
        transactionRows c env blocks :=
  List.flatMap_cons

theorem addTransactions_eq (h : ∀ t ∈ commitments c env blocks, Sliced t) (cache : CommitCache)
    (tx : Tx) : ∃ errs, addTransactions .quiet c env blocks cache tx =
      .ok (recordAll c env blocks cache,
        insertRows insertTransaction (transactionRows c env blocks) tx, errs) := by
  induction blocks generalizing cache tx
  case nil => exact ⟨[], rfl⟩
  case cons bc blocks hi =>
    obtain ⟨hb, hbs⟩ := forall_mem_append.mp h
    have hr : List.Forall₂ (fun t x => (.ok (transactionRow bc.number t) : Except GoPanic _) = .ok x)
        (bc.transactions.filter (isCommitment c env))
        ((bc.transactions.filter (isCommitment c env)).map (transactionRow bc.number)) :=
      forall₂_map_right_iff.mpr (forall₂_same.mpr fun _ _ => rfl)
    obtain ⟨err, he, _⟩ := addBatchWith_rows insertTransaction hr tx
    obtain ⟨errs, hes⟩ := hi hbs ((bc.transactions.filter (isCommitment c env)).foldl
      (record env bc) cache) (insertRows insertTransaction _ tx)
    refine ⟨err.toList ++ errs, ?_⟩
    simp only [addTransactions, Faults.quiet_transactions, ite_self, orFail]
    rw [Loop.foldlM_eq_ok fun t ht _ => readCommitment_eq (hb t ht),
      transactionRows_cons, insertRows_append]
    exact (Loop.bind_of_eq_ok he).trans (Loop.bind_of_eq_ok hes)

theorem sliced_of_addTransactions {r : CommitCache × Tx × List Error}
    (h : addTransactions .quiet c env blocks cache tx = .ok r) :
    ∀ t ∈ commitments c env blocks, Sliced t := by
  induction blocks generalizing cache tx r
  case nil => simp [commitments]
  case cons bc blocks hi =>
    obtain ⟨cache₁, h₁, h⟩ := Loop.bind_eq_ok h
    obtain ⟨_, _, h⟩ := Loop.bind_eq_ok h
    obtain ⟨_, h₃, _⟩ := Loop.bind_eq_ok h
    refine forall_mem_append.mpr ⟨fun t ht => ?_, hi h₃⟩
    obtain ⟨_, _, hr⟩ := Loop.foldlM_ok_mem h₁ ht
    exact sliced_of_readCommitment hr

def receiptsOf (env : Env) (keys : List Hash) : List EthReceipt :=
  keys.filterMap (receipt env)

def logsOf (env : Env) (keys : List Hash) : List EthLog :=
  (receiptsOf env keys).flatMap EthReceipt.logs

theorem map_receipt {keys : List Hash} (h : ∀ k ∈ keys, receipt env k ≠ none) :
    keys.map (receipt env) = (receiptsOf env keys).map some := by
  induction keys
  case nil => rfl
  case cons k keys hi =>
    obtain ⟨hk, hks⟩ := forall_mem_cons.mp h
    obtain ⟨r, hr⟩ := Option.ne_none_iff_exists'.mp hk
    rw [map_cons, receiptsOf, filterMap_cons_some hr, map_cons, hr]
    exact congrArg (some r :: ·) (hi hks)

theorem collectLogs_some (rs : List EthReceipt) :
    collectLogs (rs.map some) = .ok (rs.flatMap EthReceipt.logs) := by
  rw [collectLogs, foldlM_map, flatMap_eq_foldl]
  exact Loop.foldlM_eq_ok fun _ _ _ => rfl

theorem ne_none_of_collectLogs {rs : List (Option EthReceipt)} (h : collectLogs rs = .ok logs) :
    ∀ r ∈ rs, r ≠ none := by
  rintro r hr rfl
  obtain ⟨_, _, he⟩ := Loop.foldlM_ok_mem h hr
  cases he

theorem addBatchReceipts_some (keccak256 : Bytes → Hash) (rs : List EthReceipt) (tx : Tx) :
    ∃ rows err, rows.filterMap ReceiptRow.key = rs.map (·.txHash.hex) ∧
      addBatchReceipts keccak256 (rs.map some) tx = .ok (insertRows insertReceipt rows tx, err) := by
  have hr (r : EthReceipt) : ∃ x, receiptRow keccak256 (some r) = .ok x ∧
    x.key = some r.txHash.hex := ⟨_, rfl, rfl⟩
  choose row hr hk using hr
  have hf : List.Forall₂ (fun r x => receiptRow keccak256 r = .ok x) (rs.map some) (rs.map row) :=
    forall₂_map_left_iff.mpr <| forall₂_map_right_iff.mpr <|
      forall₂_same.mpr fun r _ => hr r
  obtain ⟨err, he, _⟩ := addBatchWith_rows insertReceipt hf tx
  refine ⟨rs.map row, err, ?_, addBatchReceipts_eq ▸ he⟩
  rw [filterMap_map, ← filterMap_eq_map]
  exact congrArg (List.filterMap · rs) (funext hk)

theorem logRow_ok_iff {keccak256 : Bytes → Hash} :
    (∃ x, logRow keccak256 log = .ok x) ↔ log.topics ≠ [] := by
  unfold logRow
  split <;> simp_all

-- Without a transaction, no log after the first one is looked at.
theorem addBatchLogs_ok_iff (keccak256 : Bytes → Hash) (logs : List EthLog) (tx : Tx) :
    (∃ r, addBatchLogs keccak256 logs tx = .ok r) ↔
      ∀ log ∈ if tx.isSome then logs else logs.take 1, log.topics ≠ [] := by
  induction logs generalizing tx
  case nil => exact iff_of_true ⟨_, rfl⟩ (by simp)
  case cons log logs hi =>
    have hm : log ∈ if tx.isSome then log :: logs else (log :: logs).take 1 := by
      split <;> simp
    by_cases ht : log.topics = []
    case pos =>
      refine iff_of_false ?_ fun h => h log hm ht
      rintro ⟨r, hr⟩
      obtain ⟨_, hs, _⟩ := Loop.bind_eq_ok hr
      obtain ⟨x, hx, _⟩ := Loop.map_eq_ok hs
      exact logRow_ok_iff.mp ⟨x, hx⟩ ht
    case neg =>
      obtain ⟨x, hx⟩ := logRow_ok_iff.mpr ht
      rw [addBatchLogs, addBatchWith, hx]
      cases tx
      case none =>
        refine iff_of_true ⟨_, rfl⟩ ?_
        simpa using ht
      case some d =>
        have hi := hi (some { d with logs := d.logs ++ [⟨x, false⟩] })
        rw [if_pos Option.isSome_some] at hi
        rw [if_pos Option.isSome_some, forall_mem_cons, ← hi, and_iff_right ht]
        rfl

-- The hashes of the commitments and of their receipts are not taken.
structure Alive (c : Config) (env : Env) (d : Database) (blocks : List EthBlock)
    (keys : List Hash) : Prop where
  transactions : Table.Fresh (d.transactions.keys TransactionRow.key)
    ((commitments c env blocks).map (·.hash.hex))
  receipts : Table.Fresh (d.receipts.keys ReceiptRow.key)
    ((receiptsOf env keys).map (·.txHash.hex))

theorem transactionRows_keys : (transactionRows c env blocks).filterMap TransactionRow.key =
    (commitments c env blocks).map (·.hash.hex) := by
  simp only [transactionRows, commitments, filterMap_flatMap, map_flatMap,
    filterMap_map]
  simp only [← filterMap_eq_map]
  rfl

theorem insertRows_alive_iff {d d' : Database} {keys : List Hash} {rows : List ReceiptRow}
    (ht : d'.transactions = d.transactions) (hr : d'.receipts = d.receipts)
    (hk : rows.filterMap ReceiptRow.key = (receiptsOf env keys).map (·.txHash.hex)) :
    (insertRows insertReceipt rows
      (insertRows insertTransaction (transactionRows c env blocks) (some d'))).isSome ↔
        Alive c env d blocks keys := by
  have ha : Alive c env d blocks keys ↔
      (d.transactions.createAll TransactionRow.key (transactionRows c env blocks)).isSome ∧
      (d.receipts.createAll ReceiptRow.key rows).isSome := by
    rw [Table.createAll_isSome_iff, Table.createAll_isSome_iff, transactionRows_keys, hk]
    exact ⟨fun h => ⟨h.transactions, h.receipts⟩, fun h => ⟨h.left, h.right⟩⟩
  rw [ha, insertRows_some insertTransaction_inserts, ht]
  cases d.transactions.createAll TransactionRow.key (transactionRows c env blocks)
  case none   => exact iff_of_false (by simp [insertRows_none]) (by simp)
  case some t =>
    rw [Option.map_some, insertRows_some insertReceipt_inserts, Option.isSome_map, hr,
      and_iff_right Option.isSome_some]

-- How a log completes the detail of a commitment.
def complete (env : Env) (detail : CommitDetail) (log : EthLog) : CommitDetail :=
  match env.parseSendDACommitment log with
  | none => detail
  | some daDetail =>
    let senders := getSender ⟨env.keccak256, env.ecrecover⟩ env.signer daDetail.signatures
    { detail with
      nameSpaceId := daDetail.nameSpaceId
      nonce := daDetail.nonce.getD 0
      index := daDetail.index.getD 0
      outOfTime := .ofUnix env.zone (daDetail.timestamp.getD 0)
      sigData := daDetail.signatures
      blockNum := log.blockNumber
      signAddress := (senders.toOption.elim [] Prod.fst).map (·.checksumHex env.keccak256)
    }

-- The numbers of the event are there, and its signatures have their length.
structure Readable (env : Env) (e : SendDACommitment) : Prop where
  nonce : e.nonce ≠ none
  index : e.index ≠ none
  timestamp : e.timestamp ≠ none
  signatures : ∀ sig ∈ e.signatures, env.signer.Splits sig

def Reads (env : Env) (log : EthLog) : Prop :=
  ∀ e ∈ env.parseSendDACommitment log, Readable env e

theorem applyLog_eq (hk : cache.get log.txHash = some (some detail)) (hs : Reads env log) :
    applyLog env cache log = .ok (cache.set log.txHash (some (complete env detail log))) := by
  unfold applyLog complete
  cases hp : env.parseSendDACommitment log
  case none => simp only [hk, Option.join_some]
  case some daDetail =>
    obtain ⟨hn, hi, ht, hs⟩ := hs daDetail hp
    obtain ⟨nonce, hn⟩ := Option.ne_none_iff_exists'.mp hn
    obtain ⟨index, hi⟩ := Option.ne_none_iff_exists'.mp hi
    obtain ⟨timestamp, ht⟩ := Option.ne_none_iff_exists'.mp ht
    obtain ⟨senders, hg⟩ := getSender_ok_iff (c := ⟨env.keccak256, env.ecrecover⟩).mpr hs
    simp only [hk, hn, hi, ht, hg]
    rfl

theorem reads_of_applyLog (hk : cache.get log.txHash = some (some detail))
    (h : applyLog env cache log = .ok cache') :
    Reads env log := by
  intro daDetail hp
  simp only [applyLog, hk, Option.mem_def.mp hp] at h
  split at h
  case h_2 => cases h
  case h_1 hn hi ht =>
    obtain ⟨senders, hg, _⟩ := Loop.bind_eq_ok h
    exact ⟨by simp [hn], by simp [hi], by simp [ht], getSender_ok_iff.mp ⟨senders, hg⟩⟩

-- A log can only change the detail of its transaction, and it leaves a missing one nil.
theorem applyLog_eq_ok (h : applyLog env cache log = .ok cache') :
    ∃ v, cache' = cache.set log.txHash v ∧ ((cache.get log.txHash).join = none → v = none) := by
  unfold applyLog at h
  split at h
  case h_1 => cases h
  case h_2 hk _ =>
    split at h
    case h_2 => cases h
    case h_1 =>
      obtain ⟨_, _, h⟩ := Loop.bind_eq_ok h
      cases h
      exact ⟨_, rfl, by simp [hk]⟩
  case h_3 =>
    cases h
    exact ⟨_, rfl, id⟩

theorem join_get_of_applyLog (h : applyLog env cache log = .ok cache')
    (hk : (cache.get k).join = none) : (cache'.get k).join = none := by
  obtain ⟨v, rfl, hv⟩ := applyLog_eq_ok h
  rw [OrderedMap.get_set]
  split
  case isTrue he => exact hv (he ▸ hk)
  case isFalse   => exact hk

theorem nil_of_applyLog (h : applyLog env cache log = .ok cache') (hk : cache.get k = some none) :
    cache'.get k = some none := by
  obtain ⟨v, rfl, hv⟩ := applyLog_eq_ok h
  rw [OrderedMap.get_set]
  split
  case isTrue he => rw [hv (by rw [← he, hk]; rfl)]
  case isFalse   => exact hk

-- The logs of a transaction that is not a commitment make its detail nil.
theorem nil_of_foldlM_applyLog (h : logs.foldlM (applyLog env) cache = .ok cache') (hl : log ∈ logs)
    (hk : (cache.get log.txHash).join = none) :
    cache'.get log.txHash = some none := by
  induction logs generalizing cache
  case nil => cases hl
  case cons x logs hi =>
    obtain ⟨cache₁, h₁, h⟩ := Loop.bind_eq_ok h
    cases mem_cons.mp hl
    case inr hl => exact hi h hl (join_get_of_applyLog h₁ hk)
    case inl he =>
      refine Loop.foldlM_preserves (fun cache : CommitCache => cache.get log.txHash = some none)
        (fun _ _ _ _ hk h => nil_of_applyLog h hk) ?_ h
      obtain ⟨v, rfl, hv⟩ := applyLog_eq_ok h₁
      rw [he] at hk ⊢
      rw [OrderedMap.get_set, if_pos rfl, hv hk]

theorem listed_of_foldlM_applyLog (h : logs.foldlM (applyLog env) cache = .ok cache')
    (l : cache.Listed) : cache'.Listed := by
  refine Loop.foldlM_preserves OrderedMap.Listed (fun _ _ _ _ l h => ?_) l h
  obtain ⟨v, rfl, _⟩ := applyLog_eq_ok h
  exact l.set

-- All logs belong to commitments.
def Known (cache : CommitCache) (logs : List EthLog) : Prop :=
  ∀ log ∈ logs, ((cache.get log.txHash).join).isSome

theorem Known.set (h : Known cache logs) :
    Known (cache.set log.txHash (some detail)) logs := by
  intro log' hl
  rw [OrderedMap.get_set]
  split
  case isTrue  => rfl
  case isFalse => exact h log' hl

def completed (env : Env) (logs : List EthLog) (k : Hash) (detail : CommitDetail) : CommitDetail :=
  (logs.filter (·.txHash = k)).foldl (complete env) detail

theorem completed_cons (log : EthLog) (detail : CommitDetail) :
    completed env (log :: logs) k detail =
      completed env logs k (if log.txHash = k then complete env detail log else detail) := by
  unfold completed
  rw [filter_cons]
  by_cases h : log.txHash = k <;> simp [h]

theorem foldlM_applyLog_eq (hk : Known cache logs) (hs : ∀ log ∈ logs, Reads env log) :
    ∃ cache', logs.foldlM (applyLog env) cache = .ok cache' ∧ cache'.keys = cache.keys ∧
      ∀ k detail, cache.get k = some (some detail) →
        cache'.get k = some (some (completed env logs k detail)) := by
  induction logs generalizing cache
  case nil => exact ⟨cache, rfl, rfl, fun _ _ h => h⟩
  case cons log logs hi =>
    obtain ⟨hk₁, hk⟩ := forall_mem_cons.mp hk
    obtain ⟨hs₁, hs⟩ := forall_mem_cons.mp hs
    obtain ⟨detail, hd⟩ := Option.isSome_iff_exists.mp hk₁
    have hd := Option.join_eq_some_iff.mp hd
    obtain ⟨cache', h, hkeys, hget⟩ := hi (Known.set hk) hs
    refine ⟨cache', ?_, ?_, fun k detail' hg => ?_⟩
    case refine_1 => rwa [foldlM_cons, Loop.bind_of_eq_ok (applyLog_eq hd hs₁)]
    case refine_2 => exact hkeys.trans (OrderedMap.keys_set_of_get (by simp [hd]))
    case refine_3 =>
      rw [completed_cons]
      refine hget k _ ?_
      rw [OrderedMap.get_set]
      by_cases he : log.txHash = k
      case neg => rw [if_neg (Ne.symm he), if_neg he, hg]
      case pos =>
        cases he
        cases hd.symm.trans hg
        rw [if_pos rfl, if_pos rfl]

theorem reads_of_foldlM_applyLog (hk : Known cache logs)
    (h : logs.foldlM (applyLog env) cache = .ok cache') : ∀ log ∈ logs, Reads env log := by
  induction logs generalizing cache
  case nil => simp
  case cons log logs hi =>
    obtain ⟨hk₁, hk⟩ := forall_mem_cons.mp hk
    obtain ⟨cache₁, h₁, h⟩ := Loop.bind_eq_ok h
    obtain ⟨detail, hd⟩ := Option.isSome_iff_exists.mp hk₁
    have hd := Option.join_eq_some_iff.mp hd
    have hs := reads_of_applyLog hd h₁
    cases h₁.symm.trans (applyLog_eq hd hs)
    exact forall_mem_cons.mpr ⟨hs, hi (Known.set hk) h⟩

section Data

variable {das : Table DARow} {pool : FilePool} {heap : Heap}

def collected (env : Env) (txHash : Hash) (daDetail : CommitDetail) (da : DA) : DA :=
  { da with
    nameSpaceID := daDetail.nameSpaceId
    txHash := txHash
    nonce := daDetail.nonce
    signData := daDetail.sigData
    blockNum := daDetail.blockNum
    signerAddr := daDetail.signAddress
    root := daDetail.root
    receiveAt := env.now
    outOfTime := daDetail.outOfTime
  }

-- The data the pool has for commitments that have not expired, with their name spaces. What was
-- found is added to the pool again.
def resolved (env : Env) : List (Hash × CommitDetail) → FilePool → Heap → List (Ref × Option Int)
  | [], _, _ => []
  | (txHash, daDetail) :: l, pool, heap =>
    if expires daDetail.time env.now then
      resolved env l pool heap
    else
      match pool.all.get (env.setBytes daDetail.commit).fst.hash with
      | none    => resolved env l pool heap
      | some fd =>
        let heap := Function.update heap fd (collected env txHash daDetail (heap fd))
        let pool := (pool.add { env.pool with heap } [fd] false).toOption.elim pool Added.pool
        (fd, daDetail.nameSpaceId) :: resolved env l pool heap

-- Data that was found without a name space is found again later.
def Named : List (Ref × Option Int) → Prop
  | []           => True
  | (fd, id) :: l => (id = none → fd ∈ l.map Prod.fst) ∧ Named l

theorem collectData_hit {txHash : Hash} {daDetail : CommitDetail} {fd : Ref} {fds : List Ref}
    {r : Added} (hd : cache.get txHash = some (some daDetail)) (he : ¬expires daDetail.time env.now)
    (hg : pool.all.get (env.setBytes daDetail.commit).fst.hash = some fd)
    (hr : pool.add { env.pool with
      heap := Function.update heap fd (collected env txHash daDetail (heap fd)) } [fd] false = .ok r) :
    collectData env das cache (pool, heap, fds) txHash =
      .ok (r.pool, Function.update heap fd (collected env txHash daDetail (heap fd)),
        fds ++ [fd]) := by
  simp only [collectData, hd, if_neg he, getDAByCommit, hg]
  exact Loop.bind_of_eq_ok hr

theorem collectData_miss {txHash : Hash} {daDetail : CommitDetail} {s : FilePool × Heap × List Ref}
    (hd : cache.get txHash = some (some daDetail))
    (h : expires daDetail.time env.now ∨
      s.fst.all.get (env.setBytes daDetail.commit).fst.hash = none) :
    collectData env das cache s txHash = .ok s := by
  simp only [collectData, hd]
  split
  case isTrue => rfl
  case isFalse he => simp only [getDAByCommit, h.resolve_left he]

theorem foldlM_collectData (das : Table DARow) (l : List (Hash × CommitDetail))
    (hl : ∀ x ∈ l, cache.get x.fst = some (some x.snd)) (pool : FilePool) (heap : Heap)
    (fds : List Ref) :
    ∃ pool' heap', (l.map Prod.fst).foldlM (collectData env das cache) (pool, heap, fds) =
        .ok (pool', heap', fds ++ (resolved env l pool heap).map Prod.fst) ∧
      (∀ fd ∉ (resolved env l pool heap).map Prod.fst, heap' fd = heap fd) ∧
      ((∀ fd ∈ (resolved env l pool heap).map Prod.fst, (heap' fd).nameSpaceID ≠ none) ↔
        Named (resolved env l pool heap)) := by
  induction l generalizing pool heap fds
  case nil => exact ⟨pool, heap, by simp [resolved]; rfl, by simp, by simp [resolved, Named]⟩
  case cons x l hi =>
    obtain ⟨txHash, daDetail⟩ := x
    obtain ⟨hx, hl⟩ := forall_mem_cons.mp hl
    rw [map_cons, foldlM_cons, resolved]
    by_cases he : expires daDetail.time env.now
    case pos =>
      rw [if_pos he, Loop.bind_of_eq_ok (collectData_miss hx (.inl he))]
      exact hi hl pool heap fds
    case neg =>
      rw [if_neg he]
      cases hg : pool.all.get (env.setBytes daDetail.commit).fst.hash
      case none =>
        rw [Loop.bind_of_eq_ok (collectData_miss hx (.inr hg))]
        exact hi hl pool heap fds
      case some fd =>
        obtain ⟨r, hr, _⟩ := add_ok { env.pool with
          heap := Function.update heap fd (collected env txHash daDetail (heap fd)) } pool [fd] false
        rw [Loop.bind_of_eq_ok (collectData_hit hx he hg hr)]
        simp only [hr, Except.toOption, Option.elim_some]
        obtain ⟨pool', heap', h, hf, hn⟩ := hi hl r.pool
          (Function.update heap fd (collected env txHash daDetail (heap fd))) (fds ++ [fd])
        refine ⟨pool', heap', ?_, fun fd' hm => ?_, ?_⟩
        case refine_1 => simpa using h
        case refine_2 =>
          rw [map_cons, mem_cons, not_or] at hm
          rw [hf fd' hm.right, Function.update_of_ne hm.left]
        case refine_3 =>
          rw [map_cons, forall_mem_cons, hn, Named]
          refine and_congr_left fun hrest => ?_
          by_cases hm : fd ∈ (resolved env l r.pool
              (Function.update heap fd (collected env txHash daDetail (heap fd)))).map Prod.fst
          case pos => exact iff_of_true (hn.mpr hrest fd hm) fun _ => hm
          case neg =>
            rw [hf fd hm, Function.update_self]
            exact ⟨fun h he => absurd he h, fun h he => hm (h he)⟩

theorem saveData_ok_iff {fd : Ref} {x : Database × List Error} :
    (∃ x', saveData c env heap x fd = .ok x') ↔ (heap fd).nameSpaceID ≠ none := by
  unfold saveData
  cases hn : (heap fd).nameSpaceID
  case none    => exact iff_of_false (by simp) (by simp)
  case some id =>
    refine iff_of_true ?_ (by simp)
    refine (Loop.bind_ok_iff fun _ => ⟨_, rfl⟩).mpr ?_
    unfold saveDACommit nameSpaceInt64
    rw [hn]
    split <;> exact ⟨_, rfl⟩

end Data

theorem addBatchBlocks_eq_ok (blocks : List EthBlock) (d : Database) :
    ∃ tx err, addBatchBlocks blocks (some d) = .ok (tx, err) ∧
      (err = none ↔ Table.Fresh (d.blocks.keys BlockRow.key) (blocks.map fun b => (b.number : Int))) ∧
      (err = none → ∃ d', tx = some d' ∧ d'.transactions = d.transactions ∧
        d'.receipts = d.receipts ∧ d'.das = d.das) := by
  have hr : List.Forall₂ (fun b x => (.ok (blockRow b) : Except GoPanic _) = .ok x) blocks
      (blocks.map blockRow) :=
    forall₂_map_right_iff.mpr (forall₂_same.mpr fun _ _ => rfl)
  have hk : (blocks.map blockRow).filterMap BlockRow.key = blocks.map fun b => (b.number : Int) := by
    rw [filterMap_map, ← filterMap_eq_map]
    rfl
  obtain ⟨err, h, he⟩ := addBatchWith_rows insertBlock hr (some d)
  have he := he rfl
  rw [insertRows_some insertBlock_inserts, Option.isSome_map] at he
  rw [insertRows_some insertBlock_inserts] at h
  refine ⟨_, err, h, ?_, fun hn => ?_⟩
  case refine_1 => rw [he, Table.createAll_isSome_iff, hk]
  case refine_2 =>
    obtain ⟨t, ht⟩ := Option.isSome_iff_exists.mp (he.mp hn)
    exact ⟨_, congrArg (Option.map _) ht, rfl, rfl, rfl⟩

section Accepted

-- The hashes of the commitments with data, in their order.
def hashes (c : Config) (env : Env) (blocks : List EthBlock) : List Hash :=
  (recordAll c env blocks .empty).keys

def details (c : Config) (env : Env) (blocks : List EthBlock) (logs : List EthLog) :
    List (Hash × CommitDetail) :=
  (hashes c env blocks).filterMap fun k =>
    ((recordAll c env blocks .empty).get k).join.map fun detail =>
      (k, completed env logs k detail)

theorem record_listed {bc : EthBlock} {t : EthTransaction} (l : cache.Listed)
    (hn : ∀ k, cache.get k ≠ some none) :
    (record env bc cache t).Listed ∧ ∀ k, (record env bc cache t).get k ≠ some none := by
  unfold record
  split
  case isTrue  => exact ⟨l, hn⟩
  case isFalse =>
    refine ⟨l.set, fun k => ?_⟩
    rw [OrderedMap.get_set]
    split
    case isTrue  => simp
    case isFalse => exact hn k

theorem recordAll_listed : (recordAll c env blocks .empty).Listed ∧
    ∀ k, (recordAll c env blocks .empty).get k ≠ some none := by
  refine List.foldlRecOn (motive := fun cache : CommitCache =>
    cache.Listed ∧ ∀ k, cache.get k ≠ some none) blocks _ ?_ fun cache hc bc _ => ?_
  case refine_1 => exact ⟨.empty, by simp [OrderedMap.get, OrderedMap.empty]⟩
  case refine_2 =>
    exact List.foldlRecOn (motive := fun cache : CommitCache =>
      cache.Listed ∧ ∀ k, cache.get k ≠ some none) _ _ hc fun _ hc t _ => record_listed hc.left hc.right

theorem mem_hashes_iff : k ∈ hashes c env blocks ↔
    ∃ detail, (recordAll c env blocks .empty).get k = some (some detail) := by
  have h := @recordAll_listed c env blocks
  refine (h.left.mem_keys_iff).trans ⟨fun hk => ?_, ?_⟩
  case refine_1 =>
    obtain ⟨v, hv⟩ := Option.ne_none_iff_exists'.mp hk
    cases v
    case none        => exact absurd hv (h.right k)
    case some detail => exact ⟨detail, hv⟩
  case refine_2 =>
    rintro ⟨detail, hd⟩
    simp [hd]

theorem details_fst : (details c env blocks logs).map Prod.fst = hashes c env blocks := by
  rw [details, map_filterMap]
  refine (filterMap_congr fun k hk => ?_).trans List.filterMap_some
  obtain ⟨detail, hd⟩ := mem_hashes_iff.mp hk
  simp [hd]

theorem mem_details {x : Hash × CommitDetail} (h : x ∈ details c env blocks logs) :
    ∃ detail, (recordAll c env blocks .empty).get x.fst = some (some detail) ∧
      x.snd = completed env logs x.fst detail := by
  obtain ⟨k, _, hx⟩ := mem_filterMap.mp h
  obtain ⟨detail, hd, rfl⟩ := Option.map_eq_some_iff.mp hx
  exact ⟨detail, Option.join_eq_some_iff.mp hd, rfl⟩

theorem known_iff : Known (recordAll c env blocks .empty) logs ↔
    ∀ log ∈ logs, log.txHash ∈ hashes c env blocks := by
  refine forall₂_congr fun log _ => ?_
  rw [mem_hashes_iff, Option.isSome_iff_exists]
  exact exists_congr fun _ => Option.join_eq_some_iff

structure Accepted (c : Config) (env : Env) (s : State) (blocks : List EthBlock) : Prop where
  calldata : ∀ t ∈ commitments c env blocks, Sliced t
  receipts : ∀ k ∈ hashes c env blocks, receipt env k ≠ none
  topics : ∀ log ∈ logsOf env (hashes c env blocks),
    Alive c env s.db blocks (hashes c env blocks) ∨
      log ∈ (logsOf env (hashes c env blocks)).head? → log.topics ≠ []
  known : ∀ log ∈ logsOf env (hashes c env blocks), log.txHash ∈ hashes c env blocks
  events : ∀ log ∈ logsOf env (hashes c env blocks), Reads env log
  named : Named (resolved env (details c env blocks (logsOf env (hashes c env blocks)))
    s.pool s.heap)

variable {s : State} {tx : Tx}

theorem topics_iff (ha : tx.isSome ↔ Alive c env s.db blocks (hashes c env blocks)) :
    (∃ r, addBatchLogs env.keccak256 logs tx = .ok r) ↔
      ∀ log ∈ logs, Alive c env s.db blocks (hashes c env blocks) ∨ log ∈ logs.head? →
        log.topics ≠ [] := by
  rw [addBatchLogs_ok_iff, ← ha]
  split
  case isTrue h => simp [h]
  case isFalse h =>
    simp only [h, false_or, Bool.false_eq_true]
    cases logs
    case nil      => simp
    case cons l _ =>
      refine ⟨fun h log _ he => ?_, fun h log hm => ?_⟩
      case refine_1 => exact Option.mem_some.mp he ▸ h l (by simp)
      case refine_2 =>
        rw [take_succ_cons, take_zero, mem_singleton] at hm
        exact hm ▸ h l (by simp) rfl

-- Not even the detail of a log of another transaction is there.
theorem mem_hashes_of_collectData {das : Table DARow} {log : EthLog}
    {x x' : FilePool × Heap × List Ref} (hl : log ∈ logs)
    (h : logs.foldlM (applyLog env) (recordAll c env blocks .empty) = .ok cache)
    (hc : cache.keys.foldlM (collectData env das cache) x = .ok x') :
    log.txHash ∈ hashes c env blocks := by
  by_contra hk
  have hn : ((recordAll c env blocks .empty).get log.txHash).join = none := by
    rw [Option.eq_none_iff_forall_ne_some]
    exact fun detail hd => hk (mem_hashes_iff.mpr ⟨detail, Option.join_eq_some_iff.mp hd⟩)
  have hn := nil_of_foldlM_applyLog h hl hn
  have hm := (listed_of_foldlM_applyLog h recordAll_listed.left).mem_keys_iff.mpr
    (by simp [hn] : cache.get log.txHash ≠ none)
  obtain ⟨_, _, he⟩ := Loop.foldlM_ok_mem hc hm
  simp [collectData, hn] at he

def finish (s : State) (blocks : List EthBlock) (errs : List Error)
    (x : FilePool × Heap × List Ref) (y : Database × List Error) : State × List Error :=
  let pool := x.fst.removeAll x.snd.fst x.snd.snd
  match blocks.getLast? with
  | none => ({ s with db := y.fst, pool, heap := x.snd.fst }, errs ++ y.snd)
  | some block =>
    let (db, errs₅) := setCurrentBlock .quiet block y.fst
    ({ db, pool, heap := x.snd.fst, currentBlock := some block }, errs ++ y.snd ++ errs₅)

-- The loops over the logs and over the commitments, with what follows.
def collectFrom (c : Config) (env : Env) (s : State) (blocks : List EthBlock) (db : Database)
    (errs : List Error) : Except GoPanic (State × List Error) := do
  let cache ← (logsOf env (hashes c env blocks)).foldlM (applyLog env) (recordAll c env blocks .empty)
  let x ← cache.keys.foldlM (collectData env db.das cache) (s.pool, s.heap, [])
  let y ← x.snd.snd.foldlM (saveData c env x.snd.fst) (db, [])
  return finish s blocks errs x y

theorem collectFrom_ok_iff {db : Database} {errs : List Error} :
    (∃ r, collectFrom c env s blocks db errs = .ok r) ↔
      (∀ log ∈ logsOf env (hashes c env blocks), log.txHash ∈ hashes c env blocks) ∧
      (∀ log ∈ logsOf env (hashes c env blocks), Reads env log) ∧
      Named (resolved env (details c env blocks (logsOf env (hashes c env blocks))) s.pool s.heap) := by
  unfold collectFrom
  generalize logsOf env (hashes c env blocks) = logs
  by_cases hk : ∀ log ∈ logs, log.txHash ∈ hashes c env blocks
  case neg =>
    refine iff_of_false ?_ fun h => hk h.left
    rintro ⟨r, h⟩
    obtain ⟨cache, h₁, h⟩ := Loop.bind_eq_ok h
    obtain ⟨x, h₂, _⟩ := Loop.bind_eq_ok h
    exact hk fun log hl => mem_hashes_of_collectData hl h₁ h₂
  case pos =>
    rw [and_iff_right hk]
    have hk := known_iff.mpr hk
    by_cases hs : ∀ log ∈ logs, Reads env log
    case neg =>
      refine iff_of_false ?_ fun h => hs h.left
      rintro ⟨r, h⟩
      obtain ⟨cache, h₁, _⟩ := Loop.bind_eq_ok h
      exact hs (reads_of_foldlM_applyLog hk h₁)
    case pos =>
      obtain ⟨cache, h₁, hkeys, hget⟩ := foldlM_applyLog_eq hk hs
      have hd : ∀ x ∈ details c env blocks logs, cache.get x.fst = some (some x.snd) := by
        intro x hx
        obtain ⟨detail, hd, he⟩ := mem_details hx
        rw [hget _ _ hd, he]
      obtain ⟨pool, heap, h₂, _, hn⟩ := foldlM_collectData db.das _ hd s.pool s.heap []
      have hkeys : cache.keys = (details c env blocks logs).map Prod.fst :=
        hkeys.trans details_fst.symm
      rw [Loop.bind_of_eq_ok h₁, hkeys, Loop.bind_of_eq_ok h₂, and_iff_right hs, ← hn]
      refine (Loop.bind_ok_iff fun y => ⟨_, rfl⟩).trans ?_
      exact Loop.foldlM_ok_iff fun _ _ => saveData_ok_iff

theorem insertRows_das {ρ κ : Type} [DecidableEq κ] {key : ρ → Option κ} {get : Database → Table ρ}
    {set : Database → Table ρ → Database} {insert : ρ → Insert} {tx : Tx} {t : Table DARow}
    (hi : Inserts key get set insert) (hs : ∀ d t, (set d t).das = d.das) (rows : List ρ)
    (h : ∀ d ∈ tx, d.das = t) : ∀ d ∈ insertRows insert rows tx, d.das = t := by
  intro d hd
  cases tx
  case none => simp [insertRows_none] at hd
  case some d₀ =>
    rw [insertRows_some hi] at hd
    obtain ⟨t', -, rfl⟩ := Option.map_eq_some_iff.mp hd
    exact (hs d₀ t').trans (h d₀ rfl)

section Processed

variable (hf : Table.Fresh (s.db.blocks.keys BlockRow.key) (blocks.map fun b => (b.number : Int)))
include hf

theorem processBlocks_eq (hc : ∀ t ∈ commitments c env blocks, Sliced t)
    (hr : ∀ k ∈ hashes c env blocks, receipt env k ≠ none) :
    ∃ (tx : Tx) (errs : List Error),
      (tx.isSome ↔ Alive c env s.db blocks (hashes c env blocks)) ∧
      (∀ d ∈ tx, d.das = s.db.das) ∧
      processBlocks c env s blocks =
        addBatchLogs env.keccak256 (logsOf env (hashes c env blocks)) tx >>= fun z =>
          collectFrom c env s blocks (z.fst.getD s.db) (errs ++ z.snd.toList) := by
  obtain ⟨tx, err, h, he, hd⟩ := addBatchBlocks_eq_ok blocks s.db
  cases he.mpr hf
  obtain ⟨d, rfl, ht, hrec, hdas⟩ := hd rfl
  obtain ⟨errs₁, h₁⟩ := addTransactions_eq hc .empty (some d)
  obtain ⟨rows, err₂, hk, h₂⟩ := addBatchReceipts_some env.keccak256
    (receiptsOf env (hashes c env blocks))
    (insertRows insertTransaction (transactionRows c env blocks) (some d))
  refine ⟨_, errs₁ ++ err₂.toList, insertRows_alive_iff ht hrec hk, ?_, ?_⟩
  case refine_1 =>
    have h₀ : ∀ d' ∈ some d, d'.das = s.db.das := fun d' hd => Option.mem_some.mp hd ▸ hdas
    have h₁ := insertRows_das insertTransaction_inserts (fun _ _ => rfl)
      (transactionRows c env blocks) h₀
    exact insertRows_das insertReceipt_inserts (fun _ _ => rfl) rows h₁
  case refine_2 =>
    have hm : (recordAll c env blocks .empty).keys.map (receipt env) =
      (receiptsOf env (hashes c env blocks)).map some := map_receipt hr
    simp only [processBlocks, processBlocksWith, Faults.quiet_blocks, Faults.quiet_receipts,
      Faults.quiet_logs, orFail]
    rw [Loop.bind_of_eq_ok h]
    dsimp only
    rw [Loop.bind_of_eq_ok h₁]
    dsimp only
    rw [hm, Loop.bind_of_eq_ok h₂, Loop.bind_of_eq_ok (collectLogs_some _)]
    refine bind_congr fun z => bind_congr fun cache => bind_congr fun x => bind_congr fun y => ?_
    unfold finish
    cases blocks.getLast? <;> rfl

theorem sliced_of_processBlocks {r : State × List Error} (h : processBlocks c env s blocks = .ok r) :
    (∀ t ∈ commitments c env blocks, Sliced t) ∧ ∀ k ∈ hashes c env blocks, receipt env k ≠ none := by
  obtain ⟨tx, err, hb, he, hd⟩ := addBatchBlocks_eq_ok blocks s.db
  cases he.mpr hf
  obtain ⟨d, rfl, _⟩ := hd rfl
  simp only [processBlocks, processBlocksWith, Faults.quiet_blocks, Faults.quiet_receipts,
    Faults.quiet_logs, orFail] at h
  rw [Loop.bind_of_eq_ok hb] at h
  obtain ⟨x, hx, h⟩ := Loop.bind_eq_ok h
  have hc := sliced_of_addTransactions hx
  obtain ⟨errs, ht⟩ := addTransactions_eq hc .empty (some d)
  cases hx.symm.trans ht
  obtain ⟨_, _, h⟩ := Loop.bind_eq_ok h
  obtain ⟨_, hl, _⟩ := Loop.bind_eq_ok h
  exact ⟨hc, fun k hk => ne_none_of_collectLogs hl _ (mem_map_of_mem hk)⟩

end Processed

-- The blocks are processed if they cannot be stored, or if all that is read of their commitments is
-- there.
theorem processBlocks_ok_iff (c : Config) (env : Env) (s : State) (blocks : List EthBlock) :
    (∃ r, processBlocks c env s blocks = .ok r) ↔
      ¬Table.Fresh (s.db.blocks.keys BlockRow.key) (blocks.map fun b => (b.number : Int)) ∨
        Accepted c env s blocks := by
  by_cases hf : Table.Fresh (s.db.blocks.keys BlockRow.key) (blocks.map fun b => (b.number : Int))
  case neg =>
    refine iff_of_true ?_ (.inl hf)
    obtain ⟨tx, err, h, he, _⟩ := addBatchBlocks_eq_ok blocks s.db
    simp only [processBlocks, processBlocksWith, Faults.quiet_blocks, orFail]
    rw [Loop.bind_of_eq_ok h]
    cases err
    case none     => exact absurd (he.mp rfl) hf
    case some err => exact ⟨_, rfl⟩
  case pos =>
    rw [or_iff_right (not_not.mpr hf)]
    constructor
    case mp =>
      rintro ⟨r, h⟩
      obtain ⟨hc, hr⟩ := sliced_of_processBlocks hf h
      obtain ⟨tx, errs, ha, _, he⟩ := processBlocks_eq hf hc hr
      obtain ⟨z, hz, h⟩ := Loop.bind_eq_ok (he ▸ h)
      obtain ⟨hk, hs, hn⟩ := collectFrom_ok_iff.mp ⟨r, h⟩
      exact ⟨hc, hr, (topics_iff ha).mp ⟨z, hz⟩, hk, hs, hn⟩
    case mpr =>
      rintro ⟨hc, hr, ht, hk, hs, hn⟩
      obtain ⟨tx, errs, ha, _, he⟩ := processBlocks_eq hf hc hr
      obtain ⟨z, hz⟩ := (topics_iff ha).mpr ht
      rw [he, Loop.bind_of_eq_ok hz]
      exact collectFrom_ok_iff.mpr ⟨hk, hs, hn⟩

end Accepted

structure Valid (env : Env) (blocks : List EthBlock) : Prop where
  numbers : (blocks.map EthBlock.number).Nodup
  hashes : ((blocks.flatMap EthBlock.transactions).map EthTransaction.hash).Nodup
  receipts : ∀ h r, env.transactionReceipt h = some r →
    r.txHash = h ∧ ∀ log ∈ r.logs, log.txHash = h

def proxied : Config :=
  { broadcast with commitmentManagerProxy := (.fill 1 : Address).checksumHex idle.keccak256 }

def shortBlock : EthBlock :=
  { emptyBlock 1 1 0 with transactions := [⟨.fill 2, some (.fill 1), [0], []⟩] }

theorem valid_shortBlock : Valid idle [shortBlock] :=
  ⟨nodup_singleton _, nodup_singleton _, by simp [idle]⟩

theorem not_processBlocks_short :
    ¬∀ (c : Config) (env : Env) (s : State) (blocks : List EthBlock), Valid env blocks →
      ∃ r, processBlocks c env s blocks = .ok r := by
  intro h
  obtain ⟨r, h⟩ := h proxied idle fresh.init [shortBlock] valid_shortBlock
  have he : processBlocks proxied idle fresh.init [shortBlock] = .error .indexOutOfRange := rfl
  rw [he] at h
  cases h

end Sync
