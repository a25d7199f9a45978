import DomiconExec.Sync.Theorems.Accept

namespace Sync

open List Db Sql FilePool

variable {c : Config} {env : Env} {s : State} {blocks : List EthBlock}

section Sent

variable {l : List (EthBlock × EthTransaction)} {x : EthBlock × EthTransaction}

def sent (c : Config) (env : Env) (blocks : List EthBlock) : List (EthBlock × EthTransaction) :=
  blocks.flatMap fun bc => (bc.transactions.filter (isCommitment c env)).map (bc, ·)

theorem recordAll_eq {cache : CommitCache} : recordAll c env blocks cache =
    (sent c env blocks).foldl (fun cache x => record env x.fst cache x.snd) cache := by
  simp only [recordAll, sent, foldl_flatMap, foldl_map]

theorem foldl_record {cache : CommitCache} (hd : ∀ x ∈ l, x.snd.data.length ≠ 0)
    (hn : (l.map (·.snd.hash)).Nodup) (hf : ∀ x ∈ l, cache.get x.snd.hash = none) :
    (l.foldl (fun cache x => record env x.fst cache x.snd) cache).keys =
      cache.keys ++ l.map (·.snd.hash) ∧
    (∀ k, k ∉ l.map (·.snd.hash) →
      (l.foldl (fun cache x => record env x.fst cache x.snd) cache).get k = cache.get k) ∧
    ∀ x ∈ l, (l.foldl (fun cache x => record env x.fst cache x.snd) cache).get x.snd.hash =
      some (some (detailOf env x.fst x.snd)) := by
  induction l generalizing cache
  case nil => simp
  case cons x l hi =>
    obtain ⟨hdx, hd⟩ := forall_mem_cons.mp hd
    obtain ⟨hfx, hf⟩ := forall_mem_cons.mp hf
    obtain ⟨hnx, hn⟩ := nodup_cons.mp hn
    have hr : record env x.fst cache x.snd =
        cache.set x.snd.hash (some (detailOf env x.fst x.snd)) := if_neg hdx
    have hf' : ∀ y ∈ l, (record env x.fst cache x.snd).get y.snd.hash = none := by
      intro y hy
      rw [hr, OrderedMap.get_set, if_neg, hf y hy]
      exact fun he => hnx (mem_map.mpr ⟨y, hy, he⟩)
    obtain ⟨hk, ho, hg⟩ := hi hd hn hf'
    simp only [foldl_cons, map_cons]
    refine ⟨?_, fun k hk => ?_, forall_mem_cons.mpr ⟨?_, hg⟩⟩
    case refine_1 =>
      rw [hk, hr, OrderedMap.keys_set_of_get_eq_none hfx, append_assoc]
      rfl
    case refine_2 =>
      obtain ⟨hkx, hk⟩ := not_or.mp (mem_cons.not.mp hk)
      rw [ho k hk, hr, OrderedMap.get_set, if_neg hkx]
    case refine_3 => rw [ho _ hnx, hr, OrderedMap.get_set, if_pos rfl]

-- The log of the receipt of a transaction, if it is the only one.
def logOf (env : Env) (t : EthTransaction) : Option EthLog :=
  (env.transactionReceipt t.hash).bind (·.logs.head?)

def eventOf (env : Env) (t : EthTransaction) : Option SendDACommitment :=
  (logOf env t).bind env.parseSendDACommitment

-- A successful transaction with one log, which is its event.
structure Emits (env : Env) (x : EthBlock × EthTransaction) (r : EthReceipt) (log : EthLog)
    (e : SendDACommitment) : Prop where
  receipt : env.transactionReceipt x.snd.hash = some r
  status : r.status = 1
  logs : r.logs = [log]
  txHash : log.txHash = x.snd.hash
  blockNumber : log.blockNumber = .ofNat x.fst.number
  topics : log.topics ≠ []
  event : env.parseSendDACommitment log = some e
  nameSpaceId : e.nameSpaceId ≠ none

section Emits

variable {r : EthReceipt} {log : EthLog} {e : SendDACommitment}

theorem Emits.logOf_eq (h : Emits env x r log e) : logOf env x.snd = some log := by
  simp [logOf, h.receipt, h.logs]

theorem Emits.eventOf_eq (h : Emits env x r log e) : eventOf env x.snd = some e := by
  simp [eventOf, h.logOf_eq, h.event]

theorem Emits.receipt_eq (h : Emits env x r log e) : Sync.receipt env x.snd.hash = some r := by
  simp [Sync.receipt, h.receipt, h.status]

end Emits

theorem logsOf_eq (h : ∀ x ∈ l, ∃ r log e, Emits env x r log e) :
    logsOf env (l.map (·.snd.hash)) = l.filterMap (logOf env ·.snd) := by
  induction l
  case nil => rfl
  case cons x l hi =>
    obtain ⟨⟨r, log, e, hx⟩, h⟩ := forall_mem_cons.mp h
    have hi := hi h
    unfold logsOf receiptsOf at hi ⊢
    rw [map_cons, filterMap_cons_some hx.receipt_eq, flatMap_cons, hi, hx.logs,
      filterMap_cons, hx.logOf_eq]
    rfl

theorem filter_logs_eq_nil {k : Hash} (h : ∀ x ∈ l, ∃ r log e, Emits env x r log e)
    (hk : k ∉ l.map (·.snd.hash)) :
    (l.filterMap (logOf env ·.snd)).filter (·.txHash = k) = [] := by
  refine filter_eq_nil_iff.mpr fun log hm he => ?_
  obtain ⟨x, hx, hl⟩ := mem_filterMap.mp hm
  obtain ⟨r, log', e, hx'⟩ := h x hx
  cases hx'.logOf_eq.symm.trans hl
  have he : log.txHash = k := of_decide_eq_true he
  exact hk (mem_map.mpr ⟨x, hx, hx'.txHash.symm.trans he⟩)

theorem filter_logs (h : ∀ x ∈ l, ∃ r log e, Emits env x r log e) (hn : (l.map (·.snd.hash)).Nodup)
    (hx : x ∈ l) :
    (l.filterMap (logOf env ·.snd)).filter (·.txHash = x.snd.hash) = (logOf env x.snd).toList := by
  induction l
  case nil => contradiction
  case cons y l hi =>
    obtain ⟨⟨r, log, e, hy⟩, hl⟩ := forall_mem_cons.mp h
    obtain ⟨hny, hnl⟩ := nodup_cons.mp hn
    rw [filterMap_cons, hy.logOf_eq, filter_cons, hy.txHash]
    cases mem_cons.mp hx
    case inl he =>
      subst he
      rw [filter_logs_eq_nil hl hny, hy.logOf_eq]
      simp
    case inr hx =>
      have hne : y.snd.hash ≠ x.snd.hash := fun he => hny (mem_map.mpr ⟨x, hx, he.symm⟩)
      rw [hi hl hnl hx]
      simp [hne]

-- The detail of a commitment with its event.
def detail (env : Env) (x : EthBlock × EthTransaction) : CommitDetail :=
  (logOf env x.snd).toList.foldl (complete env) (detailOf env x.fst x.snd)

theorem details_eq (hd : ∀ x ∈ sent c env blocks, x.snd.data.length ≠ 0)
    (hn : ((sent c env blocks).map (·.snd.hash)).Nodup)
    (h : ∀ x ∈ sent c env blocks, ∃ r log e, Emits env x r log e) :
    hashes c env blocks = (sent c env blocks).map (·.snd.hash) ∧
    details c env blocks (logsOf env (hashes c env blocks)) =
      (sent c env blocks).map fun x => (x.snd.hash, detail env x) := by
  obtain ⟨hk, -, hg⟩ := @foldl_record env (sent c env blocks) .empty hd hn
    (by simp [OrderedMap.get, OrderedMap.empty])
  have hk : hashes c env blocks = (sent c env blocks).map (·.snd.hash) := by
    rw [hashes, recordAll_eq, hk]
    rfl
  refine ⟨hk, ?_⟩
  rw [details, hk, filterMap_map, logsOf_eq h, ← filterMap_eq_map]
  refine filterMap_congr fun x hx => ?_
  simp only [Function.comp_apply, recordAll_eq, hg x hx, Option.join_some, Option.map_some,
    completed, filter_logs h hn hx, detail]

end Sent

theorem setCurrentBlock_das (block : EthBlock) (db : Database) :
    (setCurrentBlock .quiet block db).fst.das = db.das := by
  have hs (stmt : Insert) (hs : ∀ d', stmt db = some d' → d'.das = db.das) :
      ((execute stmt (some db)).fst.getD db).das = db.das := by
    simp only [execute]
    cases h : stmt db
    case none    => rfl
    case some d' => exact hs d' h
  simp only [setCurrentBlock, Faults.quiet_getLastBlockNum, Faults.quiet_lastBlockNum,
    Option.isSome_none, Bool.false_eq_true, if_false]
  split
  case isTrue =>
    refine hs _ fun d' h => ?_
    rw [addLastBlockNum_eq_some h]
  case isFalse =>
    refine hs _ fun d' h => ?_
    unfold Database.upDataLastBlocNum at h
    split_ifs at h <;> cases h <;> rfl

theorem finish_das (errs : List Error) (x : FilePool × Heap × List Ref)
    (y : Database × List Error) : (finish s blocks errs x y).fst.db.das = y.fst.das := by
  unfold finish
  cases blocks.getLast?
  case none       => rfl
  case some block => exact setCurrentBlock_das block y.fst

-- Up to the loops over the logs and the commitments, nothing can go wrong.
theorem processBlocks_eq_of_topics
    (hf : Table.Fresh (s.db.blocks.keys BlockRow.key) (blocks.map fun b => (b.number : Int)))
    (hc : ∀ t ∈ commitments c env blocks, Sliced t)
    (hr : ∀ k ∈ hashes c env blocks, receipt env k ≠ none)
    (ht : ∀ log ∈ logsOf env (hashes c env blocks), log.topics ≠ []) :
    ∃ (db : Database) (errs : List Error), db.das = s.db.das ∧
      processBlocks c env s blocks = collectFrom c env s blocks db errs := by
  obtain ⟨tx, errs, _, hd, he⟩ := processBlocks_eq hf hc hr
  obtain ⟨rows, hl⟩ : ∃ rows, List.Forall₂ (fun log x => logRow env.keccak256 log = .ok x)
      (logsOf env (hashes c env blocks)) rows :=
    Loop.exists_forall₂ fun log hm => logRow_ok_iff.mpr (ht log hm)
  obtain ⟨err, h, _⟩ := addBatchWith_rows insertLog hl tx
  refine ⟨_, _, ?_, he.trans (Loop.bind_of_eq_ok h)⟩
  have hd := insertRows_das insertLog_inserts (fun _ _ => rfl) rows hd
  generalize insertRows insertLog rows tx = tx at hd
  cases tx
  case none   => rfl
  case some d => exact hd d rfl

section Collect

variable {das : Table DARow} {cache : CommitCache} {pool : FilePool} {heap : Heap}
variable {l : List (Hash × CommitDetail)} {x : Hash × CommitDetail}

-- The hash under which the pool knows the data of a commitment.
def commitHash (env : Env) (commit : Bytes) : Hash :=
  (env.setBytes commit).fst.hash

def Holds (pool : FilePool) (heap : Heap) (k : Hash) : Prop :=
  ∃ fd, pool.all.get k = some fd ∧ (heap fd).commitment.hash = k

def found (env : Env) (pool : FilePool) (x : Hash × CommitDetail) : Ref :=
  (pool.all.get (commitHash env x.snd.commit)).getD 0

-- The memory after this data has become the data of the transaction.
def assigned (env : Env) (pool : FilePool) (heap : Heap) (x : Hash × CommitDetail) : Heap :=
  Function.update heap (found env pool x) (collected env x.fst x.snd (heap (found env pool x)))

theorem assigned_self : assigned env pool heap x (found env pool x) =
    collected env x.fst x.snd (heap (found env pool x)) :=
  Function.update_self ..

theorem assigned_of_ne {fd : Ref} (h : fd ≠ found env pool x) :
    assigned env pool heap x fd = heap fd :=
  Function.update_of_ne h ..

theorem assigned_commitment (x : Hash × CommitDetail) (fd : Ref) :
    (assigned env pool heap x fd).commitment = (heap fd).commitment := by
  by_cases h : fd = found env pool x
  case pos => rw [h, assigned_self]; rfl
  case neg => rw [assigned_of_ne h]

theorem Holds.get (h : Holds pool heap (commitHash env x.snd.commit)) :
    pool.all.get (commitHash env x.snd.commit) = some (found env pool x) := by
  obtain ⟨fd, hg, _⟩ := h
  rw [found, hg]
  rfl

theorem Holds.commitment (h : Holds pool heap (commitHash env x.snd.commit)) :
    (heap (found env pool x)).commitment.hash = commitHash env x.snd.commit := by
  obtain ⟨fd, hg, hc⟩ := h
  rw [found, hg]
  exact hc

-- The data keeps its commitment, so that the pool has all that it had.
theorem Holds.collectData_eq (h : Holds pool heap (commitHash env x.snd.commit))
    (hc : cache.get x.fst = some (some x.snd)) (hy : ¬expires x.snd.time env.now)
    (fds : List Ref) :
    ∃ pool', collectData env das cache (pool, heap, fds) x.fst =
        .ok (pool', assigned env pool heap x, fds ++ [found env pool x]) ∧
      ∀ k fd, pool.all.get k = some fd → pool'.all.get k = some fd := by
  obtain ⟨r, hr, hall, _⟩ := add_ok { env.pool with heap := assigned env pool heap x } pool
    [found env pool x] false
  refine ⟨r.pool, collectData_hit hc hy h.get hr, fun k fd hk => ?_⟩
  rw [hall, foldl_cons, foldl_nil]
  refine Lookup.enter_get_of_some hk ?_
  rw [assigned_commitment, h.commitment]
  exact h.get

-- Each commitment gets the data that the pool had for it. It is the one of the transaction unless a
-- later one gets the same data.
theorem collect_held (hl : ∀ x ∈ l, cache.get x.fst = some (some x.snd))
    (hy : ∀ x ∈ l, ¬expires x.snd.time env.now)
    (hh : ∀ x ∈ l, Holds pool heap (commitHash env x.snd.commit)) (fds : List Ref) :
    ∃ pool' heap', (l.map Prod.fst).foldlM (collectData env das cache) (pool, heap, fds) =
        .ok (pool', heap', fds ++ l.map (found env pool)) ∧
      (∀ fd ∉ l.map (found env pool), heap' fd = heap fd) ∧
      (∀ fd ∈ l.map (found env pool), ∃ x ∈ l,
        (heap' fd).nameSpaceID = x.snd.nameSpaceId) ∧
      ((l.map (found env pool)).Nodup → ∀ x ∈ l,
        heap' (found env pool x) = collected env x.fst x.snd (heap (found env pool x))) := by
  induction l generalizing pool heap fds
  case nil => exact ⟨pool, heap, by simp; rfl, by simp, by simp, by simp⟩
  case cons x l hi =>
    obtain ⟨hlx, hl⟩ := forall_mem_cons.mp hl
    obtain ⟨hyx, hy⟩ := forall_mem_cons.mp hy
    obtain ⟨hhx, hh⟩ := forall_mem_cons.mp hh
    obtain ⟨pool₁, hx, hs⟩ := @Holds.collectData_eq env das cache pool heap x hhx hlx hyx fds
    have hh' : ∀ y ∈ l,
        Holds pool₁ (assigned env pool heap x) (commitHash env y.snd.commit) := by
      intro y hm
      obtain ⟨fd, hy, hc⟩ := hh y hm
      exact ⟨fd, hs _ _ hy, by rw [assigned_commitment, hc]⟩
    have hf : ∀ y ∈ l, found env pool₁ y = found env pool y := by
      intro y hm
      exact Option.some.inj ((hh' y hm).get.symm.trans (hs _ _ (hh y hm).get))
    obtain ⟨pool', heap', h, ho, hm, hn⟩ := hi hl hy hh' (fds ++ [found env pool x])
    rw [map_congr_left hf] at h ho hm hn
    rw [map_cons, foldlM_cons, Loop.bind_of_eq_ok hx]
    refine ⟨pool', heap', ?_, fun fd hfd => ?_, fun fd hfd => ?_, fun hnd => ?_⟩
    case refine_1 => simpa using h
    case refine_2 =>
      obtain ⟨hne, hfd⟩ := not_or.mp (mem_cons.not.mp hfd)
      rw [ho fd hfd, assigned_of_ne hne]
    case refine_3 =>
      by_cases hfd' : fd ∈ l.map (found env pool)
      case pos =>
        obtain ⟨y, hy, he⟩ := hm fd hfd'
        exact ⟨y, mem_cons_of_mem x hy, he⟩
      case neg =>
        cases (mem_cons.mp hfd).resolve_right hfd'
        refine ⟨x, mem_cons_self, ?_⟩
        rw [ho _ hfd', assigned_self]
        rfl
    case refine_4 =>
      obtain ⟨hnx, hnl⟩ := nodup_cons.mp hnd
      refine forall_mem_cons.mpr ⟨?_, fun y hm => ?_⟩
      case refine_1 => rw [ho _ hnx, assigned_self]
      case refine_2 =>
        have hne : found env pool y ≠ found env pool x :=
          fun he => hnx (mem_map.mpr ⟨y, hm, he⟩)
        have hy := hn hnl y hm
        rw [hf y hm] at hy
        rw [hy, assigned_of_ne hne]

theorem found_nodup_iff (hh : ∀ x ∈ l, Holds pool heap (commitHash env x.snd.commit)) :
    (l.map (found env pool)).Nodup ↔ (l.map (commitHash env ·.snd.commit)).Nodup where
  mp h := by
    have hm : l.map (found env pool) =
        (l.map (commitHash env ·.snd.commit)).map fun k => (pool.all.get k).getD 0 := by
      rw [map_map]
      rfl
    exact (hm ▸ h).of_map _
  mpr h := by
    have hm : l.map (commitHash env ·.snd.commit) =
        (l.map (found env pool)).map fun fd => (heap fd).commitment.hash := by
      rw [map_map]
      exact map_congr_left fun x hx => (hh x hx).commitment.symm
    exact (hm ▸ h).of_map _

end Collect

section Save

variable {heap : Heap} {t : Table DARow} {rows : List DARow}

def saved (env : Env) (da : DA) : DARow :=
  { row env.keccak256 da with
    proof := Hex.bytes2Hex da.proof
    outOfTime := da.outOfTime.format
    nameSpaceID := (Int64.ofInt (da.nameSpaceID.getD 0)).toInt
  }

-- Each row is inserted on its own.
def createEach (t : Table DARow) (rows : List DARow) : Table DARow :=
  rows.foldl (fun t r => (create t r).fst) t

theorem create_rows {r x : DARow} (h : x ∈ (create t r).fst.rows) : x ∈ t.rows ∨ x = r := by
  unfold create at h
  cases hc : t.create DARow.key r <;> simp only [hc] at h
  case none    => exact .inl h
  case some t' =>
    rw [(Table.create_eq_some hc).left, Table.rows_concat] at h
    simpa using h

theorem mem_createEach {x : DARow} (h : x ∈ (createEach t rows).rows) : x ∈ t.rows ∨ x ∈ rows := by
  induction rows generalizing t
  case nil => exact .inl h
  case cons r rows hi =>
    cases hi h
    case inr h => exact .inr (mem_cons_of_mem r h)
    case inl h =>
      cases create_rows h
      case inl h => exact .inl h
      case inr h => exact .inr (h ▸ mem_cons_self)

theorem createEach_of_nodup (hn : (rows.map DARow.txHash).Nodup)
    (hf : ∀ r ∈ rows, r.txHash ∉ t.keys DARow.key) :
    createEach t rows = t ++ rows.map (⟨·, false⟩) := by
  induction rows generalizing t
  case nil => simp [createEach]
  case cons r rows hi =>
    obtain ⟨hnr, hn⟩ := nodup_cons.mp hn
    obtain ⟨hfr, hf⟩ := forall_mem_cons.mp hf
    have hk : ∀ k ∈ DARow.key r, k ∉ t.keys DARow.key := fun k hk => Option.mem_some.mp hk ▸ hfr
    have hc : (create t r).fst = t ++ [⟨r, false⟩] := by
      rw [create, create_of_not_mem hk]
    have hf' : ∀ x ∈ rows, x.txHash ∉ (create t r).fst.keys DARow.key := by
      intro x hx
      have hne : x.txHash ≠ r.txHash := fun he => hnr (mem_map.mpr ⟨x, hx, he⟩)
      rw [hc, Table.keys_append, mem_append, not_or]
      exact ⟨hf x hx, by simpa [Table.keys, DARow.key] using hne⟩
    refine (hi hn hf').trans ?_
    rw [hc]
    simp

theorem saveData_eq {x : Database × List Error} {fd : Ref} (hb : c.nodeType = "b")
    (hn : (heap fd).nameSpaceID ≠ none) :
    saveData c env heap x fd =
      .ok ({ x.fst with das := (create x.fst.das (saved env (heap fd))).fst },
        x.snd ++ (create x.fst.das (saved env (heap fd))).snd.toList) := by
  obtain ⟨id, hi⟩ := Option.ne_none_iff_exists'.mp hn
  simp [saveData, hi, shouldSave, hb, saveDACommit, nameSpaceInt64, saved]

theorem foldlM_saveData {x : Database × List Error} {fds : List Ref} (hb : c.nodeType = "b")
    (hn : ∀ fd ∈ fds, (heap fd).nameSpaceID ≠ none) :
    ∃ y, fds.foldlM (saveData c env heap) x = .ok y ∧
      y.fst.das = createEach x.fst.das (fds.map fun fd => saved env (heap fd)) := by
  induction fds generalizing x
  case nil => exact ⟨x, rfl, rfl⟩
  case cons fd fds hi =>
    obtain ⟨hf, hn⟩ := forall_mem_cons.mp hn
    obtain ⟨y, hy, hd⟩ := hi hn
    exact ⟨y, (Loop.bind_of_eq_ok (saveData_eq hb hf)).trans hy, hd⟩

end Save

-- What a row tells about a transaction and its event.
structure Entry where
  txHash : GoString
  blockNum : Int
  nonce : Int
  nameSpaceID : Int
  signData : GoString

def entry (r : DARow) : Entry where
  txHash := r.txHash
  blockNum := r.blockNum
  nonce := r.nonce
  nameSpaceID := r.nameSpaceID
  signData := r.signData

def expected (env : Env) (x : EthBlock × EthTransaction) : Option Entry :=
  (eventOf env x.snd).map fun e => {
    txHash := x.snd.hash.hex
    blockNum := int64 (.ofNat x.fst.number)
    nonce := int64 (e.nonce.getD 0)
    nameSpaceID := (Int64.ofInt (e.nameSpaceId.getD 0)).toInt
    signData := .join (e.signatures.map Hex.bytes2Hex)
  }

theorem Emits.entry_saved {x : EthBlock × EthTransaction} {r : EthReceipt} {log : EthLog}
    {e : SendDACommitment} (h : Emits env x r log e) (da : DA) :
    expected env x = some (entry (saved env (collected env x.snd.hash (detail env x) da))) := by
  simp only [expected, h.eventOf_eq, detail, h.logOf_eq, Option.toList_some, foldl_cons,
    foldl_nil, complete, h.event, Option.map_some, entry, saved, collected, row,
    h.blockNumber]

-- The circumstances under which each transaction should leave a row.
structure Confirmed (c : Config) (env : Env) (s : State) (blocks : List EthBlock) : Prop where
  nodeType : c.nodeType = "b"
  das : s.db.das = []
  fresh : Table.Fresh (s.db.blocks.keys BlockRow.key) (blocks.map fun b => (b.number : Int))
  hashes : ((sent c env blocks).map (·.snd.hash)).Nodup
  calldata : ∀ x ∈ sent c env blocks, 196 ≤ x.snd.data.length
  events : ∀ x ∈ sent c env blocks, ∃ r log e, Emits env x r log e
  young : ∀ x ∈ sent c env blocks, ¬expires (detailOf env x.fst x.snd).time env.now
  held : ∀ x ∈ sent c env blocks,
    Holds s.pool s.heap (commitHash env (detailOf env x.fst x.snd).commit)

-- There is one row for each transaction, with its hash and block number and what its event tells.
def OneRowEach (c : Config) (env : Env) (s : State) (blocks : List EthBlock) : Prop :=
  ∃ s' errs, processBlocks c env s blocks = .ok (s', errs) ∧
    (s'.db.das.rows.map entry).Perm ((sent c env blocks).filterMap (expected env))

theorem nodup_of_subset_map {α β : Type} [DecidableEq β] {f : β → α} {l : List α} {m : List β}
    (hl : l.Nodup) (hs : l ⊆ m.map f) (hm : m.length ≤ l.length) : m.Nodup := by
  have hd : l ⊆ m.dedup.map f := by
    intro a ha
    obtain ⟨b, hb, rfl⟩ := mem_map.mp (hs ha)
    exact mem_map_of_mem (mem_dedup.mpr hb)
  have hn : l.length ≤ m.dedup.length := length_map f ▸ (hl.subperm hd).length_le
  exact m.dedup_sublist.eq_of_length_le (hm.trans hn) ▸ m.nodup_dedup

section Confirmed

theorem mem_sent_of_mem_commitments {t : EthTransaction} (h : t ∈ commitments c env blocks) :
    ∃ b, (b, t) ∈ sent c env blocks := by
  obtain ⟨b, hb, ht⟩ := mem_flatMap.mp h
  exact ⟨b, mem_flatMap.mpr ⟨b, hb, mem_map_of_mem ht⟩⟩

theorem detail_commit (x : EthBlock × EthTransaction) :
    (detail env x).commit = (detailOf env x.fst x.snd).commit ∧
    (detail env x).time = (detailOf env x.fst x.snd).time := by
  unfold detail
  cases logOf env x.snd
  case none     => exact ⟨rfl, rfl⟩
  case some log =>
    simp only [Option.toList_some, foldl_cons, foldl_nil, complete]
    split <;> exact ⟨rfl, rfl⟩

theorem Emits.detail_nameSpaceId {x : EthBlock × EthTransaction} {r : EthReceipt} {log : EthLog}
    {e : SendDACommitment} (h : Emits env x r log e) :
    (detail env x).nameSpaceId ≠ none := by
  simp only [detail, h.logOf_eq, Option.toList_some, foldl_cons, foldl_nil, complete,
    h.event]
  exact h.nameSpaceId

def dataOf (env : Env) (s : State) (x : EthBlock × EthTransaction) : Ref :=
  (s.pool.all.get (commitHash env (detailOf env x.fst x.snd).commit)).getD 0

theorem found_detail (x : EthBlock × EthTransaction) :
    found env s.pool (x.snd.hash, detail env x) = dataOf env s x := by
  simp only [found, dataOf, (detail_commit x).left]

variable (h : Confirmed c env s blocks)
include h

theorem Confirmed.details_eq : Sync.hashes c env blocks = (sent c env blocks).map (·.snd.hash) ∧
    details c env blocks (logsOf env (Sync.hashes c env blocks)) =
      (sent c env blocks).map fun x => (x.snd.hash, detail env x) :=
  Sync.details_eq (fun x hx => by have := h.calldata x hx; omega) h.hashes h.events

theorem Confirmed.logs_eq : logsOf env (Sync.hashes c env blocks) =
    (sent c env blocks).filterMap (logOf env ·.snd) := by
  rw [h.details_eq.left, logsOf_eq h.events]

theorem Confirmed.exists_of_mem_logs {log : EthLog}
    (hl : log ∈ logsOf env (Sync.hashes c env blocks)) :
    ∃ x ∈ sent c env blocks, ∃ r e, Emits env x r log e := by
  rw [h.logs_eq] at hl
  obtain ⟨x, hx, hl⟩ := mem_filterMap.mp hl
  obtain ⟨r, log', e, he⟩ := h.events x hx
  cases he.logOf_eq.symm.trans hl
  exact ⟨x, hx, r, e, he⟩

theorem Confirmed.reads_iff : (∀ log ∈ logsOf env (Sync.hashes c env blocks), Reads env log) ↔
    ∀ x ∈ sent c env blocks, ∀ e ∈ eventOf env x.snd, Readable env e where
  mp hs x hx e he := by
    obtain ⟨r, log, e', hx'⟩ := h.events x hx
    cases hx'.eventOf_eq.symm.trans he
    refine hs log ?_ e hx'.event
    rw [h.logs_eq]
    exact mem_filterMap.mpr ⟨x, hx, hx'.logOf_eq⟩
  mpr hs log hl e he := by
    obtain ⟨x, hx, r, e', hx'⟩ := h.exists_of_mem_logs hl
    cases hx'.event.symm.trans he
    exact hs x hx e hx'.eventOf_eq

theorem Confirmed.known : Known (recordAll c env blocks .empty)
    (logsOf env (Sync.hashes c env blocks)) := by
  refine known_iff.mpr fun log hl => ?_
  obtain ⟨x, hx, _, _, hx'⟩ := h.exists_of_mem_logs hl
  rw [hx'.txHash, h.details_eq.left]
  exact mem_map_of_mem hx

theorem Confirmed.processBlocks_eq :
    ∃ (db : Database) (errs : List Error), db.das = [] ∧
      processBlocks c env s blocks = collectFrom c env s blocks db errs := by
  rw [← h.das]
  apply processBlocks_eq_of_topics h.fresh
  case hc =>
    intro t ht
    obtain ⟨b, hb⟩ := mem_sent_of_mem_commitments ht
    exact .inr (h.calldata (b, t) hb)
  case hr =>
    intro k hk
    rw [h.details_eq.left] at hk
    obtain ⟨x, hx, rfl⟩ := mem_map.mp hk
    obtain ⟨r, _, _, hx'⟩ := h.events x hx
    simp [hx'.receipt_eq]
  case ht =>
    intro log hl
    obtain ⟨_, _, _, _, hx⟩ := h.exists_of_mem_logs hl
    exact hx.topics

-- Once the senders are known, the batch is processed to its end. The rows are made of the data that
-- the pool had, which by then belongs to some transaction.
theorem Confirmed.processBlocks_ok
    (hs : ∀ log ∈ logsOf env (Sync.hashes c env blocks), Reads env log) :
    ∃ s' errs, ∃ heap' : Heap, processBlocks c env s blocks = .ok (s', errs) ∧
      s'.db.das = createEach [] ((sent c env blocks).map fun x =>
        saved env (heap' (dataOf env s x))) ∧
      (((sent c env blocks).map (dataOf env s)).Nodup → ∀ x ∈ sent c env blocks,
        heap' (dataOf env s x) =
          collected env x.snd.hash (detail env x) (s.heap (dataOf env s x))) := by
  obtain ⟨db, errs, hdas, he⟩ := h.processBlocks_eq
  obtain ⟨cache, h₁, hkeys, hget⟩ := foldlM_applyLog_eq h.known hs
  have hl : ∀ x ∈ (sent c env blocks).map fun x => (x.snd.hash, detail env x),
      cache.get x.fst = some (some x.snd) := by
    intro x hx
    rw [← h.details_eq.right] at hx
    obtain ⟨d, hd, hx⟩ := mem_details hx
    exact hx ▸ hget x.fst d hd
  obtain ⟨pool', heap', h₂, -, hm, hn⟩ := @collect_held env db.das cache s.pool s.heap _ hl
    (forall_mem_map.mpr fun x hx => (detail_commit x).right ▸ h.young x hx)
    (forall_mem_map.mpr fun x hx => (detail_commit x).left ▸ h.held x hx) []
  simp only [map_map, Function.comp_def, found_detail, forall_mem_map,
    nil_append] at h₂ hm hn
  have hi : ∀ fd ∈ (sent c env blocks).map (dataOf env s), (heap' fd).nameSpaceID ≠ none := by
    refine forall_mem_map.mpr fun x hx => ?_
    obtain ⟨y, hy, hi⟩ := hm x hx
    obtain ⟨z, hz, rfl⟩ := mem_map.mp hy
    obtain ⟨r, log, e, hz'⟩ := h.events z hz
    simp [hi, hz'.detail_nameSpaceId]
  obtain ⟨y, h₃, hd⟩ := @foldlM_saveData c env heap' (db, []) _ h.nodeType hi
  have hk : cache.keys = (sent c env blocks).map (·.snd.hash) := hkeys.trans h.details_eq.left
  have hp : processBlocks c env s blocks =
      .ok (finish s blocks errs (pool', heap', (sent c env blocks).map (dataOf env s)) y) := by
    rw [he, collectFrom, Loop.bind_of_eq_ok h₁, hk, Loop.bind_of_eq_ok h₂, Loop.bind_of_eq_ok h₃]
    rfl
  refine ⟨_, _, heap', hp, (finish_das errs _ y).trans ?_, hn⟩
  rw [hd, hdas, map_map]
  rfl

theorem Confirmed.dataOf_nodup_iff : ((sent c env blocks).map (dataOf env s)).Nodup ↔
    ((sent c env blocks).map fun x =>
      commitHash env (detailOf env x.fst x.snd).commit).Nodup := by
  have hf := @found_nodup_iff env s.pool s.heap
    ((sent c env blocks).map fun x => (x.snd.hash, detail env x))
    (forall_mem_map.mpr fun x hx => (detail_commit x).left ▸ h.held x hx)
  simpa only [map_map, Function.comp_def, found_detail, (detail_commit _).left] using hf

theorem Confirmed.expected_eq : (sent c env blocks).filterMap (expected env) =
    (sent c env blocks).map fun x =>
      entry (saved env (collected env x.snd.hash (detail env x) (s.heap (dataOf env s x)))) := by
  refine filterMap_eq_map_iff_forall_eq_some.mpr fun x hx => ?_
  obtain ⟨_, _, _, hx'⟩ := h.events x hx
  exact hx'.entry_saved _

end Confirmed

def point (b : UInt8) : Digest :=
  { Digest.zero with y := ⟨[b.toUInt64 + 1, 0, 0, 0], rfl⟩ }

def confirming : Env :=
  { idle with
    setBytes b := (point (b.getLastD 0), none)
    transactionReceipt hash := some {
      type := 2
      status := 1
      cumulativeGasUsed := 0
      gasUsed := 0
      txHash := hash
      blockNumber := 1
      contractAddress := .fill 0
      logs := [⟨.fill 1, [.zero], [], 1, hash, 0, .fill 1, false⟩]
    }
    parseSendDACommitment _ := some ⟨some 1, some 0, some 0, some 0, []⟩
  }

def holding : State where
  db := .empty
  pool := { FilePool.new DefaultConfig "" "b" with
    all := (Lookup.newLookup.add 0 { DA.zero with commitment := point 0 }).add 1
      { DA.zero with commitment := point 1 } }
  heap fd := { DA.zero with commitment := point (.ofNat fd) }
  currentBlock := none

def carrier (hash b : UInt8) : EthTransaction where
  hash := .fill hash
  toAddr := some (.fill 1)
  data := List.replicate 195 0 ++ [b]
  encoded := []

def twice (b : UInt8) : EthBlock :=
  { emptyBlock 1 1 0 with transactions := [carrier 2 0, carrier 3 b] }

theorem sent_twice (b : UInt8) :
    sent proxied confirming [twice b] = [(twice b, carrier 2 0), (twice b, carrier 3 b)] :=
  rfl

theorem forall_sent_twice {b : UInt8} {p : EthBlock × EthTransaction → Prop} :
    (∀ x ∈ sent proxied confirming [twice b], p x) ↔
      p (twice b, carrier 2 0) ∧ p (twice b, carrier 3 b) := by
  simp [sent_twice]

theorem commitHash_carrier (bc : EthBlock) (hash b : UInt8) (h : b = 0 ∨ b = 1) :
    commitHash confirming (detailOf confirming bc (carrier hash b)).commit = (point b).hash := by
  change commitHash confirming (detailOf confirming (twice 0) (carrier 2 b)).commit = _
  cases h
  case inl h => cases h; decide +kernel
  case inr h => cases h; decide +kernel

theorem holds_point (b : UInt8) (h : b = 0 ∨ b = 1) :
    Holds holding.pool holding.heap (point b).hash := by
  cases h
  case inl h => exact h ▸ ⟨0, by decide +kernel, rfl⟩
  case inr h => exact h ▸ ⟨1, by decide +kernel, rfl⟩

theorem carrier_length {hash b : UInt8} : (carrier hash b).data.length = 196 := by
  simp only [carrier, length_append, length_replicate, length_singleton]

theorem emits_carrier (bc : EthBlock) (hash b : UInt8) (h : bc.number = 1) :
    ∃ r log e, Emits confirming (bc, carrier hash b) r log e :=
  ⟨_, _, _, rfl, rfl, rfl, rfl, by rw [h]; rfl, by simp, rfl, by simp⟩

theorem confirmed_twice (b : UInt8) (h : b = 0 ∨ b = 1) :
    Confirmed proxied confirming holding [twice b] where
  nodeType := rfl
  das := rfl
  fresh := ⟨nodup_singleton _, fun _ _ => not_mem_nil⟩
  hashes := by
    have hn : [(.fill 2 : Hash), .fill 3].Nodup := by decide
    exact hn
  calldata := forall_sent_twice.mpr ⟨carrier_length.ge, carrier_length.ge⟩
  events := forall_sent_twice.mpr ⟨emits_carrier _ 2 0 rfl, emits_carrier _ 3 b rfl⟩
  young := by
    have hy : ¬expires (.ofUnix 0 0) .zero := by decide
    exact forall_sent_twice.mpr ⟨hy, hy⟩
  held := by
    have h₀ := commitHash_carrier (twice b) 2 0 (.inl rfl) ▸ holds_point 0 (.inl rfl)
    have h₁ := commitHash_carrier (twice b) 3 b h ▸ holds_point b h
    exact forall_sent_twice.mpr ⟨h₀, h₁⟩

theorem commitHashes_twice (b : UInt8) (h : b = 0 ∨ b = 1) :
    ((sent proxied confirming [twice b]).map fun x =>
      commitHash confirming (detailOf confirming x.fst x.snd).commit) =
    [(point 0).hash, (point b).hash] := by
  rw [sent_twice, map_cons, map_singleton, commitHash_carrier _ 2 0 (.inl rfl),
    commitHash_carrier _ 3 b h]

theorem oneRowEach_iff (h : Confirmed c env s blocks) :
    OneRowEach c env s blocks ↔
      (∀ x ∈ sent c env blocks, ∀ e ∈ eventOf env x.snd, Readable env e) ∧
      ((sent c env blocks).map fun x =>
        commitHash env (detailOf env x.fst x.snd).commit).Nodup := by
  have hx : ((sent c env blocks).map (·.snd.hash.hex)).Nodup := by
    have hi : Function.Injective fun k : Hash => k.hex := fun _ _ => ByteArr.hex_injective
    simpa only [map_map, Function.comp_def] using h.hashes.map hi
  rw [← h.reads_iff, ← h.dataOf_nodup_iff]
  constructor
  case mp =>
    rintro ⟨s', errs, hp, hr⟩
    have hs : ∀ log ∈ logsOf env (Sync.hashes c env blocks), Reads env log := by
      obtain ⟨db, errs', _, he⟩ := h.processBlocks_eq
      obtain ⟨cache, h₁, _⟩ := Loop.bind_eq_ok (he ▸ hp)
      exact reads_of_foldlM_applyLog h.known h₁
    obtain ⟨s'', errs'', heap', hp', hd, _⟩ := h.processBlocks_ok hs
    cases hp.symm.trans hp'
    -- There would be fewer objects than transactions to read the rows' hashes from.
    refine ⟨hs, @nodup_of_subset_map _ _ _ (fun fd => (heap' fd).txHash.hex) _ _ hx ?_ (by simp)⟩
    refine forall_mem_map.mpr fun x hx => ?_
    obtain ⟨r, hm, hr⟩ := mem_map.mp (hr.mem_iff.mpr
      (h.expected_eq ▸ mem_map_of_mem hx))
    have hm := (mem_createEach (hd ▸ hm)).resolve_left List.not_mem_nil
    obtain ⟨y, hy, rfl⟩ := mem_map.mp hm
    rw [map_map]
    exact mem_map.mpr ⟨y, hy, congrArg Entry.txHash hr⟩
  case mpr =>
    rintro ⟨hs, hn⟩
    obtain ⟨s', errs, heap', hp, hd, he⟩ := h.processBlocks_ok hs
    refine ⟨s', errs, hp, .of_eq ?_⟩
    have hm : (sent c env blocks).map (fun x => saved env (heap' (dataOf env s x))) =
        (sent c env blocks).map fun x =>
          saved env (collected env x.snd.hash (detail env x) (s.heap (dataOf env s x))) :=
      map_congr_left fun x hx => congrArg (saved env) (he hn x hx)
    have hk : (((sent c env blocks).map fun x => saved env (collected env x.snd.hash
        (detail env x) (s.heap (dataOf env s x)))).map DARow.txHash).Nodup := by
      rw [map_map]
      exact hx
    rw [hd, hm, createEach_of_nodup hk (by simp [Table.keys]), Table.rows_append, h.expected_eq]
    exact List.map_map

theorem oneRowEach_twice : OneRowEach proxied confirming holding [twice 1] := by
  refine oneRowEach_iff (confirmed_twice 1 (.inr rfl)) |>.mpr ⟨?_, ?_⟩
  case refine_1 =>
    have hs : ∀ e ∈ some (⟨some 1, some 0, some 0, some 0, []⟩ : SendDACommitment),
        Readable confirming e := by
      rintro _ ⟨⟩
      exact ⟨by simp, by simp, by simp, by simp⟩
    exact forall_sent_twice.mpr ⟨hs, hs⟩
  case refine_2 =>
    rw [commitHashes_twice 1 (.inr rfl)]
    decide +kernel

theorem not_oneRowEach_twice :
    ¬∀ (c : Config) (env : Env) (s : State) (blocks : List EthBlock), Confirmed c env s blocks →
      OneRowEach c env s blocks := by
  intro h
  obtain ⟨s', errs, hp, hr⟩ := h _ _ _ _ (confirmed_twice 0 (.inl rfl))
  have hl : (processBlocks proxied confirming holding [twice 0]).toOption.map
      (·.fst.db.das.rows.length) = some 1 := by decide +kernel
  rw [hp] at hl
  have hl : s'.db.das.rows.length = 1 := Option.some.inj hl
  have hr := hr.length_eq
  rw [length_map, hl] at hr
  cases hr
end Sync
