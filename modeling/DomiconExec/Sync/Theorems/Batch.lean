import DomiconExec.Sync.Theorems.Process

namespace Sync

open List Db Sql

variable {c : Config} {env : Env} {blocks : List EthBlock} {d : Database}

section Batch

variable {ρ κ α : Type} [DecidableEq κ] {key : ρ → Option κ} {get : Database → Table ρ}
variable {set : Database → Table ρ → Database} {insert : ρ → Insert}

-- The statement inserts a row into one of the tables.
structure Inserts (key : ρ → Option κ) (get : Database → Table ρ)
    (set : Database → Table ρ → Database) (insert : ρ → Insert) : Prop where
  insert : ∀ r d, insert r d = ((get d).create key r).map (set d)
  get_set : ∀ d t, get (set d t) = t
  set_set : ∀ d t t', set (set d t) t' = set d t'
  set_get : ∀ d, set d (get d) = d

theorem create_of_not_mem {t : Table ρ} {r : ρ} (h : ∀ k ∈ key r, k ∉ t.keys key) :
    t.create key r = some (t ++ [⟨r, false⟩]) := by
  refine if_neg ?_
  rintro ⟨k, hr, hk⟩
  exact h k hr hk

omit [DecidableEq κ] in
theorem mem_keys_append {t : Table ρ} {l : List ρ} {k : κ} :
    k ∈ Table.keys key (t ++ l.map (⟨·, false⟩)) ↔ k ∈ t.keys key ∨ ∃ x ∈ l, k ∈ key x := by
  simp [Table.keys, filterMap_append, filterMap_map]

-- A batch succeeds if the keys of its rows differ from each other, and from those of the table.
theorem addBatchWith_ok (hi : Inserts key get set insert) {row : α → Except GoPanic ρ} {l : List α}
    {r : Tx × Option Error}
    (hn : l.Pairwise fun a b => ∀ x y, row a = .ok x → row b = .ok y → ∀ k ∈ key x, k ∉ key y)
    (hf : ∀ a ∈ l, ∀ x, row a = .ok x → ∀ k ∈ key x, k ∉ (get d).keys key)
    (h : addBatchWith (fun a => insert <$> row a) l (some d) = .ok r) :
    ∃ rows, List.Forall₂ (fun a x => row a = .ok x) l rows ∧
      r = (some (set d (get d ++ rows.map (⟨·, false⟩))), none) := by
  induction l generalizing d
  case nil =>
    cases h
    exact ⟨[], .nil, by simp [hi.set_get]⟩
  case cons a l ih =>
    obtain ⟨hna, hn⟩ := pairwise_cons.mp hn
    obtain ⟨hfa, hf⟩ := forall_mem_cons.mp hf
    simp only [addBatchWith] at h
    obtain ⟨stmt, hs, h⟩ := Loop.bind_eq_ok h
    obtain ⟨x, hx, rfl⟩ := Loop.map_eq_ok hs
    have hc : insert x d = some (set d (get d ++ [⟨x, false⟩])) := by
      rw [hi.insert, create_of_not_mem (hfa x hx)]
      rfl
    simp only [execute, hc] at h
    have hf' : ∀ b ∈ l, ∀ y, row b = .ok y → ∀ k ∈ key y,
        k ∉ (get (set d (get d ++ [⟨x, false⟩]))).keys key := by
      intro b hb y hy k hk
      rw [hi.get_set]
      refine mem_keys_append (l := [x]) |>.not.mpr <| not_or.mpr ⟨hf b hb y hy k hk, ?_⟩
      rintro ⟨_, hm, hkx⟩
      cases mem_singleton.mp hm
      exact hna b hb x y hx hy k hkx hk
    obtain ⟨rows, hr, he⟩ := ih hn hf' h
    refine ⟨x :: rows, .cons hx hr, ?_⟩
    rw [he, hi.set_set, hi.get_set]
    simp

theorem forall₂_ok {row : α → ρ} {l : List α} {rows : List ρ}
    (h : List.Forall₂ (fun a x => (.ok (row a) : Except GoPanic ρ) = .ok x) l rows) :
    rows = l.map row := by
  induction h
  case nil          => rfl
  case cons hx _ hi => rw [map_cons, ← hi, Except.ok.inj hx]

theorem addBatchWith_map (hi : Inserts key get set insert) {row : α → ρ} {k : α → κ} {l : List α}
    {r : Tx × Option Error} (hk : ∀ a, key (row a) = some (k a)) (hn : (l.map k).Nodup)
    (hf : ∀ a ∈ l, k a ∉ (get d).keys key)
    (h : addBatchWith (fun a => .ok (insert (row a))) l (some d) = .ok r) :
    r = (some (set d (get d ++ (l.map row).map (⟨·, false⟩))), none) := by
  have hn' : l.Pairwise fun a b => ∀ x y, (.ok (row a) : Except GoPanic ρ) = .ok x →
      (.ok (row b) : Except GoPanic ρ) = .ok y → ∀ k ∈ key x, k ∉ key y := by
    refine (pairwise_map.mp hn).imp fun hab x y hx hy => ?_
    cases hx
    cases hy
    simpa [hk] using hab.symm
  have hf' : ∀ a ∈ l, ∀ x, (.ok (row a) : Except GoPanic ρ) = .ok x →
      ∀ k ∈ key x, k ∉ (get d).keys key := by
    intro a ha x hx
    cases hx
    simpa [hk] using hf a ha
  obtain ⟨rows, hr, he⟩ := addBatchWith_ok hi hn' hf' h
  rw [he, forall₂_ok hr]

-- The transaction after some rows were inserted. It is rolled back with the first row that fails.
def insertRows (insert : ρ → Insert) (rows : List ρ) (tx : Tx) : Tx :=
  rows.foldl (fun tx r => (execute (insert r) tx).fst) tx

theorem insertRows_none (insert : ρ → Insert) (rows : List ρ) :
    insertRows insert rows none = none := by
  induction rows
  case nil         => rfl
  case cons _ _ hi => exact hi

theorem insertRows_append (insert : ρ → Insert) (rows rows' : List ρ) (tx : Tx) :
    insertRows insert (rows ++ rows') tx = insertRows insert rows' (insertRows insert rows tx) :=
  List.foldl_append

theorem insertRows_some (hi : Inserts key get set insert) (rows : List ρ) (d : Database) :
    insertRows insert rows (some d) = ((get d).createAll key rows).map (set d) := by
  induction rows generalizing d
  case nil => exact congrArg some (hi.set_get d).symm
  case cons r rows ih =>
    rw [Table.createAll, foldlM_cons, insertRows, foldl_cons, execute, hi.insert]
    cases (get d).create key r
    case none   => exact insertRows_none insert rows
    case some t =>
      refine (ih (set d t)).trans ?_
      rw [hi.get_set]
      exact congrArg (Option.map · _) (funext (hi.set_set d t))

theorem addBatchWith_rows (insert : ρ → Insert) {row : α → Except GoPanic ρ} {l : List α} {rows : List ρ}
    (hr : List.Forall₂ (fun a x => row a = .ok x) l rows) (tx : Tx) :
    ∃ err, addBatchWith (fun a => insert <$> row a) l tx = .ok (insertRows insert rows tx, err) ∧
      (tx.isSome → (err = none ↔ (insertRows insert rows tx).isSome)) := by
  induction hr generalizing tx
  case nil => exact ⟨none, rfl, fun h => iff_of_true rfl h⟩
  case cons a x l rows hx _ ih =>
    cases tx
    case none =>
      refine ⟨some .txDone, ?_, by simp⟩
      rw [addBatchWith, hx, insertRows_none]
      rfl
    case some d =>
      have hs : insertRows insert (x :: rows) (some d) = insertRows insert rows (insert x d) := by
        rw [insertRows, foldl_cons, execute]
        cases insert x d <;> rfl
      rw [addBatchWith, hx, hs]
      simp only [Functor.map, Except.map, bind, Except.bind, execute]
      cases insert x d
      case none =>
        refine ⟨some .uniqueViolation, ?_, fun _ => iff_of_false (by simp) ?_⟩ <;>
          rw [insertRows_none]
        · rfl
        · simp
      case some d' =>
        obtain ⟨err, he, hn⟩ := ih (some d')
        exact ⟨err, he, fun _ => hn rfl⟩

theorem insertBlock_inserts : Inserts BlockRow.key Database.blocks
    (fun d t => { d with blocks := t }) insertBlock :=
  ⟨fun _ _ => rfl, fun _ _ => rfl, fun _ _ _ => rfl, fun _ => rfl⟩

theorem insertTransaction_inserts : Inserts TransactionRow.key Database.transactions
    (fun d t => { d with transactions := t }) insertTransaction :=
  ⟨fun _ _ => rfl, fun _ _ => rfl, fun _ _ _ => rfl, fun _ => rfl⟩

theorem insertReceipt_inserts : Inserts ReceiptRow.key Database.receipts
    (fun d t => { d with receipts := t }) insertReceipt :=
  ⟨fun _ _ => rfl, fun _ _ => rfl, fun _ _ _ => rfl, fun _ => rfl⟩

theorem insertLog_inserts :
    Inserts LogRow.key Database.logs (fun d t => { d with logs := t }) insertLog :=
  ⟨fun _ _ => rfl, fun _ _ => rfl, fun _ _ _ => rfl, fun _ => rfl⟩

end Batch

section Rows

variable {r : Tx × Option Error} {keccak256 : Bytes → Hash}

def blockRow (b : EthBlock) : BlockRow where
  blockNum := b.number
  blockHash := b.hash.hex
  parentHash := b.parentHash.hex
  receivedAt := .ascii (toString b.time.toNat)
  encodeData := Hex.bytes2Hex b.encoded

theorem addBatchBlocks_ok (hn : (blocks.map fun b => (b.number : Int)).Nodup)
    (hf : ∀ b ∈ blocks, (b.number : Int) ∉ d.blocks.keys BlockRow.key)
    (h : addBatchBlocks blocks (some d) = .ok r) :
    r = (some { d with blocks := d.blocks ++ (blocks.map blockRow).map (⟨·, false⟩) }, none) :=
  addBatchWith_map insertBlock_inserts (fun _ => rfl) hn hf h

def transactionRow (num : Int) (tx : EthTransaction) : TransactionRow where
  hash := tx.hash.hex
  encoded := Hex.bytes2Hex tx.encoded
  blockNum := num

theorem addBatchTransactions_ok {num : Int} {txs : List EthTransaction}
    (hn : (txs.map (·.hash.hex)).Nodup)
    (hf : ∀ tx ∈ txs, tx.hash.hex ∉ d.transactions.keys TransactionRow.key)
    (h : addBatchTransactions num txs (some d) = .ok r) :
    r = (some { d with transactions :=
      d.transactions ++ (txs.map (transactionRow num)).map (⟨·, false⟩) }, none) :=
  addBatchWith_map insertTransaction_inserts (fun _ => rfl) hn hf h

theorem readCommitment_keys {bc : EthBlock} {tx : EthTransaction} {cache cache' : CommitCache}
    (l : cache.Listed) (h : readCommitment env bc cache tx = .ok cache') :
    cache'.Listed ∧ ∀ k ∈ cache'.keys, k ∈ cache.keys ∨ k = tx.hash := by
  unfold readCommitment at h
  split at h
  case isFalse =>
    cases h
    exact ⟨l, fun k hk => .inl hk⟩
  case isTrue =>
    obtain ⟨_, _, h⟩ := Loop.bind_eq_ok h
    cases h
    refine ⟨l.set, fun k hk => ?_⟩
    exact ((OrderedMap.mem_keys_set l).mp hk).symm

theorem foldlM_readCommitment_keys {bc : EthBlock} {txs : List EthTransaction}
    {cache cache' : CommitCache} (l : cache.Listed)
    (h : txs.foldlM (readCommitment env bc) cache = .ok cache') :
    cache'.Listed ∧ ∀ k ∈ cache'.keys, k ∈ cache.keys ∨ ∃ tx ∈ txs, k = tx.hash := by
  refine Loop.foldlM_preserves (fun cache' : CommitCache => cache'.Listed ∧
    ∀ k ∈ cache'.keys, k ∈ cache.keys ∨ ∃ tx ∈ txs, k = tx.hash) ?_ ⟨l, fun k => .inl⟩ h
  rintro tx ht cache₁ cache₂ ⟨l₁, h₁⟩ h₂
  obtain ⟨l₂, h₂⟩ := readCommitment_keys l₁ h₂
  refine ⟨l₂, fun k hk => ?_⟩
  cases h₂ k hk
  case inl hk => exact h₁ k hk
  case inr hk => exact .inr ⟨tx, ht, hk⟩

def commitments (c : Config) (env : Env) (blocks : List EthBlock) : List EthTransaction :=
  blocks.flatMap fun b => b.transactions.filter (isCommitment c env)

def transactionRows (c : Config) (env : Env) (blocks : List EthBlock) : List TransactionRow :=
  blocks.flatMap fun b =>
    (b.transactions.filter (isCommitment c env)).map (transactionRow b.number)

def receiptRow (keccak256 : Bytes → Hash) : Option EthReceipt → Except GoPanic ReceiptRow
  | none => .error .nilDereference
  | some r => .ok {
      txHash := r.txHash.hex
      txType := r.type.toNat
      status := int64 r.status
      cumulativeGasUsed := int64 r.cumulativeGasUsed
      gasUsed := int64 r.gasUsed
      blockNum := r.blockNumber
      contractAddress := r.contractAddress.checksumHex keccak256
    }

theorem addBatchReceipts_eq : addBatchReceipts keccak256 =
    addBatchWith fun r => insertReceipt <$> receiptRow keccak256 r := by
  unfold addBatchReceipts
  congr
  funext r
  cases r <;> rfl

-- The receipt of a transaction has the hash of this transaction.
def OwnHash (env : Env) : Prop :=
  ∀ h r, env.transactionReceipt h = some r → r.txHash = h

theorem receiptRow_key (ho : OwnHash env) {h : Hash} {x : ReceiptRow}
    (hx : receiptRow keccak256 (receipt env h) = .ok x) : ReceiptRow.key x = some h.hex := by
  cases hr : receipt env h <;> rw [hr] at hx <;> cases hx
  case some r =>
    have hr := (Option.filter_eq_some_iff.mp hr).left
    exact congrArg (fun h : Hash => some h.hex) (ho h r hr)

theorem addBatchReceipts_ok {keys : List Hash}
    (h : addBatchReceipts keccak256 (keys.map (receipt env)) (some d) = .ok r) (ho : OwnHash env)
    (hn : keys.Nodup) (hf : ∀ h ∈ keys, h.hex ∉ d.receipts.keys ReceiptRow.key) :
    ∃ rows, r = (some { d with receipts := d.receipts ++ rows }, none) := by
  rw [addBatchReceipts_eq] at h
  have hn' : (keys.map (receipt env)).Pairwise fun a b => ∀ x y,
      receiptRow keccak256 a = .ok x → receiptRow keccak256 b = .ok y →
        ∀ k ∈ ReceiptRow.key x, k ∉ ReceiptRow.key y := by
    refine pairwise_map.mpr <| hn.imp fun hab x y hx hy => ?_
    rw [receiptRow_key ho hx, receiptRow_key ho hy]
    simpa using fun he => hab (ByteArr.hex_injective he.symm)
  have hf' : ∀ a ∈ keys.map (receipt env), ∀ x, receiptRow keccak256 a = .ok x →
      ∀ k ∈ ReceiptRow.key x, k ∉ d.receipts.keys ReceiptRow.key := by
    rw [forall_mem_map]
    intro h hm x hx
    rw [receiptRow_key ho hx]
    simpa using hf h hm
  obtain ⟨rows, _, he⟩ := addBatchWith_ok insertReceipt_inserts hn' hf' h
  exact ⟨_, he⟩

theorem addBatchLogs_ok {logs : List EthLog} (h : addBatchLogs keccak256 logs (some d) = .ok r) :
    ∃ rows, r = (some { d with logs := d.logs ++ rows }, none) := by
  have hk (x : LogRow) (k : GoString) : k ∉ LogRow.key x := Option.not_mem_none k
  obtain ⟨rows, _, he⟩ := addBatchWith_ok insertLog_inserts
    (pairwise_of_forall fun _ _ _ y _ _ k _ => hk y k) (fun _ _ x _ k h => absurd h (hk x k)) h
  exact ⟨_, he⟩

end Rows
end Sync
