import DomiconExec.Sync.Progress
import DomiconExec.Sync.Theorems.Batch
import DomiconExec.Sync.Theorems.Rollback

namespace Sync

open List Db Sql FilePool Transition System

variable {c : Config} {env : Env} {f : Faults} {blocks : List EthBlock} {d : Database}

section Stages

variable {r : Tx × Option Error}

theorem addTransactions_ok {cache : CommitCache} {r : CommitCache × Tx × List Error}
    (h : addTransactions f c env blocks cache (some d) = .ok r) (l : cache.Listed)
    (hq : ∀ b ∈ blocks, f.transactions b = none)
    (hn : ((commitments c env blocks).map (·.hash.hex)).Nodup)
    (hf : ∀ tx ∈ commitments c env blocks, tx.hash.hex ∉ d.transactions.keys TransactionRow.key) :
    (r.fst.Listed ∧ ∀ k ∈ r.fst.keys,
      k ∈ cache.keys ∨ ∃ tx ∈ commitments c env blocks, k = tx.hash) ∧
    r.snd.fst = some { d with transactions :=
      d.transactions ++ (transactionRows c env blocks).map (⟨·, false⟩) } := by
  induction blocks generalizing cache d r
  case nil =>
    cases h
    exact ⟨⟨l, fun k => .inl⟩, by simp [transactionRows]⟩
  case cons b blocks hi =>
    simp only [commitments, flatMap_cons, map_append, nodup_append',
      forall_mem_append] at hn hf
    obtain ⟨hqb, hq⟩ := forall_mem_cons.mp hq
    simp only [addTransactions, hqb, ite_self, orFail] at h
    obtain ⟨cache₁, h₁, h⟩ := Loop.bind_eq_ok h
    obtain ⟨⟨tx₂, err₂⟩, h₂, h⟩ := Loop.bind_eq_ok h
    obtain ⟨⟨cache₃, tx₃, errs₃⟩, h₃, h⟩ := Loop.bind_eq_ok h
    cases h
    obtain ⟨l₁, hk₁⟩ := foldlM_readCommitment_keys l h₁
    cases addBatchTransactions_ok hn.left hf.left h₂
    have hf' : ∀ tx ∈ commitments c env blocks, tx.hash.hex ∉ Table.keys TransactionRow.key
        (d.transactions ++ ((b.transactions.filter (isCommitment c env)).map
          (transactionRow b.number)).map (⟨·, false⟩)) := by
      intro tx ht
      refine mem_keys_append.not.mpr <| not_or.mpr ⟨hf.right tx ht, ?_⟩
      rintro ⟨x, hx, hk⟩
      obtain ⟨tx', ht', rfl⟩ := mem_map.mp hx
      have he : tx'.hash.hex = tx.hash.hex := Option.mem_some.mp hk
      exact hn.right.right (mem_map_of_mem ht') (mem_map.mpr ⟨tx, ht, he.symm⟩)
    obtain ⟨⟨l₃, hk₃⟩, ht₃⟩ := hi h₃ l₁ hq hn.right.left hf'
    refine ⟨⟨l₃, fun k hk => ?_⟩, ?_⟩
    case refine_1 =>
      obtain hk | ⟨tx, ht, he⟩ := hk₃ k hk
      case inr => exact .inr ⟨tx, mem_append_right _ ht, he⟩
      case inl =>
        obtain hk | ⟨tx, ht, he⟩ := hk₁ k hk
        case inl => exact .inl hk
        case inr => exact .inr ⟨tx, mem_append_left _ ht, he⟩
    case refine_2 =>
      rw [ht₃]
      simp [transactionRows]

theorem saveData_ok {heap : Heap} {fd : Ref} {x x' : Database × List Error}
    (h : saveData c env heap x fd = .ok x') : ∃ das, x'.fst = { x.fst with das } := by
  simp only [saveData] at h
  split at h
  case h_1 => contradiction
  case h_2 =>
    obtain ⟨_, _, h⟩ := Loop.bind_eq_ok h
    cases h
    exact ⟨_, rfl⟩

theorem foldlM_saveData_ok {heap : Heap} {fds : List Ref} {x x' : Database × List Error}
    (h : fds.foldlM (saveData c env heap) x = .ok x') : ∃ das, x'.fst = { x.fst with das } := by
  refine Loop.foldlM_preserves
    (fun x' : Database × List Error => ∃ das, x'.fst = { x.fst with das }) ?_ ⟨x.fst.das, rfl⟩ h
  rintro fd _ x₁ x₂ ⟨das, h₁⟩ h₂
  obtain ⟨das', h₂⟩ := saveData_ok h₂
  exact ⟨das', by rw [h₂, h₁]⟩

-- The statements that record a number.
def Records (n : Nat) (stmt : Insert) : Prop :=
  ∀ d d', stmt d = some d' → ∃ syncInfo, d' = { d with syncInfo } ∧
    ∀ m ∈ syncInfo, m ∈ d.syncInfo ∨ m = n

theorem addLastBlockNum_records {n : Nat} (hn : n ≠ 0) : Records n (Database.addLastBlockNum n) := by
  intro d d' h
  rw [addLastBlockNum_eq_some h, if_neg hn]
  exact ⟨_, rfl, by simp⟩

theorem upDataLastBlocNum_records (num n : Nat) :
    Records n (Database.upDataLastBlocNum num n) := by
  intro d d' h
  unfold Database.upDataLastBlocNum at h
  split at h
  case isTrue =>
    cases h
    exact ⟨d.syncInfo, rfl, fun m => .inl⟩
  case isFalse =>
    split at h <;> cases h
    refine ⟨_, rfl, fun m hm => ?_⟩
    obtain ⟨k, hk, he⟩ := mem_map.mp hm
    split at he
    case isTrue  => exact .inr he.symm
    case isFalse => exact .inl (he ▸ hk)

-- The number 0 is not inserted: the statement fails, or a number is there that is updated.
def Recordable (f : Faults) (d : Database) (n : Nat) : Prop :=
  n = 0 → f.lastBlockNum.isSome ∨ f.getLastBlockNum = none ∧ d.getLastBlockNum ≠ 0

theorem setCurrentBlock_ok {block : EthBlock} (hb : Recordable f d block.number) : ∃ syncInfo,
    (setCurrentBlock f block d).fst = { d with syncInfo } ∧
      ∀ n ∈ syncInfo, n ∈ d.syncInfo ∨ n = block.number := by
  simp only [setCurrentBlock]
  split
  case h_1 => exact ⟨d.syncInfo, rfl, fun n => .inl⟩
  case h_2 hf =>
    generalize hg : (if f.getLastBlockNum.isSome then 0 else d.getLastBlockNum) = num
    have hs : Records block.number (if num = 0 then Database.addLastBlockNum block.number
        else Database.upDataLastBlocNum num block.number) := by
      split
      case isFalse   => exact upDataLastBlocNum_records _ _
      case isTrue hn =>
        refine addLastBlockNum_records fun hz => ?_
        obtain hl | ⟨hl, hd⟩ := hb hz
        case inl => simp [hf] at hl
        case inr => exact hd (by simpa [hl, hn] using hg)
    generalize (if num = 0 then Database.addLastBlockNum block.number
      else Database.upDataLastBlocNum num block.number) = stmt at hs
    cases he : stmt d <;> simp only [execute, he, Option.getD_none, Option.getD_some]
    case none    => exact ⟨d.syncInfo, rfl, fun n => .inl⟩
    case some d' => exact hs d d' he

end Stages

section Process

variable {l : L1} {call : Call} {s s' : State}

-- The call finds everything in order: the database does not fail, and no inserted row violates a
-- unique index.
structure Smooth (l : L1) (c : Config) (d : Database) (call : Call) (blocks : List EthBlock) :
    Prop where
  noBlocks : call.faults.blocks = none
  noTransactions : ∀ b ∈ blocks, call.faults.transactions b = none
  noReceipts : call.faults.receipts = none
  noLogs : call.faults.logs = none
  noCommit : call.faults.commit = none
  numbers : ∀ b ∈ blocks, (b.number : Int) ∉ d.blocks.keys BlockRow.key
  hashes : ((commitments c (l.env call) blocks).map (·.hash.hex)).Nodup
  transactions : ∀ tx ∈ commitments c (l.env call) blocks,
    tx.hash.hex ∉ d.transactions.keys TransactionRow.key
  receipts : ∀ tx ∈ commitments c (l.env call) blocks,
    tx.hash.hex ∉ d.receipts.keys ReceiptRow.key
  last : ∀ b ∈ blocks.getLast?, Recordable call.faults d b.number

-- What a call does to the database.
structure Processed (l : L1) (c : Config) (call : Call) (bs : List EthBlock) (d d' : Database) :
    Prop where
  blocks : d'.blocks = d.blocks ++ (bs.map blockRow).map (⟨·, false⟩)
  transactions : d'.transactions =
    d.transactions ++ (transactionRows c (l.env call) bs).map (⟨·, false⟩)
  syncInfo : ∀ n ∈ d'.syncInfo, n ∈ d.syncInfo ∨ ∃ b ∈ bs.getLast?, n = b.number

theorem ownHash : OwnHash (l.env call) := by
  intro h r hr
  simp only [L1.env] at hr
  split at hr <;> cases hr
  exact l.receipt_txHash h

theorem processBlocksWith_ok {errs : List Error} (hs : Smooth l c s.db call blocks)
    (hn : (blocks.map fun b => (b.number : Int)).Nodup)
    (h : processBlocksWith call.faults c (l.env call) s blocks = .ok (s', errs)) :
    Processed l c call blocks s.db s'.db := by
  simp only [processBlocksWith, hs.noBlocks, hs.noReceipts, hs.noLogs, orFail] at h
  obtain ⟨r₁, h₁, h⟩ := Loop.bind_eq_ok h
  cases addBatchBlocks_ok hn hs.numbers h₁
  obtain ⟨⟨cache, tx₂, errs₂⟩, h₂, h⟩ := Loop.bind_eq_ok h
  obtain ⟨⟨hl, hk⟩, ht₂⟩ :=
    addTransactions_ok h₂ .empty hs.noTransactions hs.hashes hs.transactions
  cases ht₂
  obtain ⟨r₃, h₃, h⟩ := Loop.bind_eq_ok h
  have hf : ∀ k ∈ cache.keys, k.hex ∉ s.db.receipts.keys ReceiptRow.key := by
    intro k hm
    obtain hm | ⟨tx, ht, rfl⟩ := hk k hm
    case inl => contradiction
    case inr => exact hs.receipts tx ht
  obtain ⟨rows₃, rfl⟩ := addBatchReceipts_ok h₃ ownHash hl.nodup hf
  obtain ⟨logs, _, h⟩ := Loop.bind_eq_ok h
  obtain ⟨r₄, h₄, h⟩ := Loop.bind_eq_ok h
  obtain ⟨rows₄, rfl⟩ := addBatchLogs_ok h₄
  obtain ⟨cache', _, h⟩ := Loop.bind_eq_ok h
  obtain ⟨⟨pool, heap, daDatas⟩, _, h⟩ := Loop.bind_eq_ok h
  obtain ⟨⟨d₅, errs₅⟩, h₅, h⟩ := Loop.bind_eq_ok h
  obtain ⟨das, hd⟩ := foldlM_saveData_ok h₅
  simp only [commit, hs.noCommit] at hd
  split at h
  case h_1 hb =>
    cases h
    exact ⟨by rw [hd]; rfl, by rw [hd]; rfl, by rw [hd]; exact fun n => .inl⟩
  case h_2 block hb =>
    have hl : Recordable call.faults d₅ block.number := by
      rw [hd]
      exact hs.last block hb
    obtain ⟨syncInfo, he, hm⟩ := setCurrentBlock_ok hl
    cases h
    rw [he, hd]
    refine ⟨rfl, rfl, fun n hn => ?_⟩
    cases hm n hn
    case inl h => exact .inl (by rwa [hd] at h)
    case inr h => exact .inr ⟨block, hb, h⟩

end Process

section Synced

variable {l : L1} {call : Call} {genesis n m i k : Nat} {d' : Database}

def L1.isCommitment (l : L1) (c : Config) (tx : EthTransaction) : Bool :=
  tx.toAddr.any fun a => a.checksumHex l.keccak256 = c.commitmentManagerProxy

-- The block and all of its successful commitments are stored.
structure Synced (l : L1) (c : Config) (d : Database) (n : Nat) : Prop where
  block : blockRow (l.block n) ∈ d.blocks.rows
  transactions : ∀ tx ∈ (l.block n).transactions, l.isCommitment c tx →
    (l.receipt tx.hash).status = 1 → transactionRow n tx ∈ d.transactions.rows

-- All blocks below the number `n` are stored.
def SyncedBelow (l : L1) (c : Config) (genesis : Nat) (d : Database) (n : Nat) : Prop :=
  ∀ k, genesis ≤ k → k < n → Synced l c d k

theorem SyncedBelow.mono (h : SyncedBelow l c genesis d n) (hb : d.blocks.rows ⊆ d'.blocks.rows)
    (ht : d.transactions.rows ⊆ d'.transactions.rows) (hm : m ≤ n) :
    SyncedBelow l c genesis d' m := by
  intro k hg hk
  obtain ⟨block, transactions⟩ := h k hg (Nat.lt_of_lt_of_le hk hm)
  exact ⟨hb block, fun tx hx hc hs => ht (transactions tx hx hc hs)⟩

theorem Processed.subset {bs : List EthBlock} (p : Processed l c call bs d d') :
    d.blocks.rows ⊆ d'.blocks.rows ∧ d.transactions.rows ⊆ d'.transactions.rows := by
  rw [p.blocks, p.transactions, Table.rows_append, Table.rows_append]
  exact ⟨subset_append_left _ _, subset_append_left _ _⟩

theorem Processed.synced {bs : List EthBlock} (p : Processed l c call bs d d')
    (h : l.block n ∈ bs) : Synced l c d' n where
  block := by
    rw [p.blocks, Table.rows_append]
    exact mem_append_right _ (mem_map_of_mem h)
  transactions tx hx hc _ := by
    rw [p.transactions, Table.rows_append]
    refine mem_append_right _ (mem_flatMap.mpr ⟨l.block n, h, ?_⟩)
    have := mem_map_of_mem (f := transactionRow n) (mem_filter.mpr ⟨hx, hc⟩)
    rwa [l.number_eq]

theorem Processed.syncedBelow
    (p : Processed l c call ((List.range' i k).map l.block) d d')
    (h : SyncedBelow l c genesis d i) : SyncedBelow l c genesis d' (i + k) := by
  intro m hg hm
  by_cases hi : m < i
  case pos => exact h.mono p.subset.left p.subset.right (Nat.le_refl i) m hg hi
  case neg => exact p.synced (mem_map_of_mem (mem_range'_1.mpr ⟨by omega, hm⟩))

-- Each block comes after those that are stored, and no number is recorded too early.
structure Contiguous (l : L1) (c : Config) (genesis : Nat) (d : Database) : Prop where
  blocks : ∀ r ∈ d.blocks.rows, ∃ n, r = blockRow (l.block n) ∧ SyncedBelow l c genesis d (n + 1)
  syncInfo : ∀ n ∈ d.syncInfo, SyncedBelow l c genesis d (n + 1)

theorem Processed.contiguous (p : Processed l c call ((List.range' i k).map l.block) d d')
    (h : Contiguous l c genesis d) (hi : SyncedBelow l c genesis d i) :
    Contiguous l c genesis d' := by
  obtain ⟨hb, ht⟩ := p.subset
  have hk := p.syncedBelow hi
  constructor
  case blocks =>
    intro r hr
    rw [p.blocks, Table.rows_append] at hr
    obtain hr | hr := mem_append.mp hr
    case inl =>
      obtain ⟨n, he, hn⟩ := h.blocks r hr
      exact ⟨n, he, hn.mono hb ht (Nat.le_refl _)⟩
    case inr =>
      obtain ⟨b, hb, rfl⟩ := mem_map.mp hr
      obtain ⟨n, hn, rfl⟩ := mem_map.mp hb
      have := mem_range'_1.mp hn
      exact ⟨n, rfl, hk.mono (List.Subset.refl _) (List.Subset.refl _) (by omega)⟩
  case syncInfo =>
    intro n hn
    obtain hn | ⟨b, hl, rfl⟩ := p.syncInfo n hn
    case inl => exact (h.syncInfo n hn).mono hb ht (Nat.le_refl _)
    case inr =>
      obtain ⟨m, hm, rfl⟩ := mem_map.mp (mem_of_getLast? hl)
      have := mem_range'_1.mp hm
      rw [l.number_eq]
      exact hk.mono (List.Subset.refl _) (List.Subset.refl _) (by omega)

theorem processBlocksWith_contiguous {s s' : State} {errs : List Error}
    (hs : Smooth l c s.db call ((List.range' i k).map l.block))
    (h : processBlocksWith call.faults c (l.env call) s ((List.range' i k).map l.block) =
      .ok (s', errs)) (hc : Contiguous l c genesis s.db) (hi : SyncedBelow l c genesis s.db i) :
    Contiguous l c genesis s'.db ∧ SyncedBelow l c genesis s'.db (i + k) := by
  have hn : (((List.range' i k).map l.block).map fun b => (b.number : Int)).Nodup := by
    simp only [map_map, Function.comp_def, l.number_eq]
    exact List.Nodup.map Int.ofNat_injective List.nodup_range'
  have p := processBlocksWith_ok hs hn h
  exact ⟨p.contiguous hc hi, p.syncedBelow hi⟩

theorem SyncedBelow.cleanUpDB {num : Nat} (h : SyncedBelow l c genesis d n) (hn : n ≤ num + 1) :
    SyncedBelow l c genesis (d.cleanUpDB num) n := by
  intro k hg hk
  have hk' : k ≤ num := by omega
  obtain ⟨block, transactions⟩ := h k hg hk
  constructor
  case block =>
    rw [Database.cleanUpDB, Table.rows_softDelete]
    exact mem_filter.mpr ⟨block, by simpa [blockRow, l.number_eq] using hk'⟩
  case transactions =>
    intro tx hx hc hs
    rw [Database.cleanUpDB, Table.rows_softDelete]
    exact mem_filter.mpr ⟨transactions tx hx hc hs, by simpa [transactionRow] using hk'⟩

-- A restart only removes what comes after the recorded number.
theorem Contiguous.cleanUpDB (h : Contiguous l c genesis d) :
    Contiguous l c genesis (d.cleanUpDB d.getLastBlockNum) := by
  constructor
  case blocks =>
    intro r hr
    rw [Database.cleanUpDB, Table.rows_softDelete] at hr
    obtain ⟨hr, hp⟩ := mem_filter.mp hr
    obtain ⟨n, rfl, hn⟩ := h.blocks r hr
    have hl : n ≤ d.getLastBlockNum := by simpa [blockRow, l.number_eq] using hp
    exact ⟨n, rfl, hn.cleanUpDB (Nat.succ_le_succ hl)⟩
  case syncInfo =>
    intro n hn
    have hl : n ≤ d.getLastBlockNum := le_max?_getD_of_mem hn
    exact (h.syncInfo n hn).cleanUpDB (Nat.succ_le_succ hl)

theorem Contiguous.empty : Contiguous l c genesis .empty where
  blocks _ hr := absurd hr List.not_mem_nil
  syncInfo _ hn := absurd hn List.not_mem_nil

end Synced

namespace Syncer

section Sound

variable {l : L1} {call : Call} {genesis num i k l1Num : Nat} {st : State} {s s' : Syncer}

def next (s : Syncer) : Option Nat :=
  match s.phase with
  | .chunks i _ => some i
  | .follow num => some num
  | _           => none

structure Sound (l : L1) (c : Config) (genesis : Nat) (s : Syncer) : Prop where
  contiguous : Contiguous l c genesis s.state.db
  next : ∀ n ∈ s.next, SyncedBelow l c genesis s.state.db n

theorem getBlockByNum_synced {b : EthBlock} (hc : Contiguous l c genesis d)
    (h : getBlockByNum l d num = some b) :
    b = l.block num ∧ SyncedBelow l c genesis d (num + 1) := by
  obtain ⟨r, hf, hd⟩ := Option.bind_eq_some_iff.mp h
  obtain ⟨n, rfl, hn⟩ := hc.blocks r (List.mem_of_find?_eq_some hf)
  have he : n = num := by simpa [blockRow, l.number_eq] using List.find?_some hf
  cases he
  simp only [blockRow, Hex.hex2Bytes_bytes2Hex, l.decode_encoded] at hd
  exact ⟨(Option.some.inj hd).symm, hn⟩

-- There is no reorganization, if the underlying chain still has the block.
theorem checkReorg_eq {b : Sources} {block : EthBlock} {fuel : Nat} {r : Bool × EthBlock}
    (hb : ∀ l1Block ∈ b.blockByNumber block.number, l1Block = block)
    (h : checkReorg b genesis (fuel + 1) block = .ok r) : r = (false, block) := by
  unfold checkReorg at h
  split at h
  case isTrue => exact (Except.ok.inj h).symm
  case isFalse =>
    split at h
    case h_1 => contradiction
    case h_2 l1Block hl =>
      rw [hb l1Block hl, if_pos rfl] at h
      exact (Except.ok.inj h).symm

theorem start_sound {b : Start} (hc : Contiguous l c genesis st.db)
    (h : start l genesis b st = .ok s') : Sound l c genesis s' := by
  unfold start at h
  split at h
  case h_1 =>
    cases h
    exact ⟨hc, fun n hn => absurd hn (Option.not_mem_none n)⟩
  case h_2 =>
    split at h
    case isTrue =>
      cases h
      refine ⟨hc, fun n hn k hg hk => ?_⟩
      cases hn
      omega
    case isFalse =>
      split at h
      case h_1 =>
        cases h
        exact ⟨hc, fun n hn => absurd hn (Option.not_mem_none n)⟩
      case h_2 latestBlock hl =>
        obtain ⟨rfl, hn⟩ := getBlockByNum_synced hc hl
        split at h
        case h_1 => contradiction
        case h_2 flag org hr =>
          cases checkReorg_eq (by simp [Start.sources, l.number_eq]) hr
          cases h
          refine ⟨hc, fun n hm => ?_⟩
          cases hm
          rwa [l.number_eq]

theorem chunkNums_eq (i l1Num : Nat) :
    ∃ k ≤ syncChunkSize, chunkNums i l1Num = List.range' i k := by
  obtain ⟨_, h⟩ : chunkNums i l1Num <+: List.range' i syncChunkSize := List.takeWhile_prefix _
  obtain ⟨k, hk, he, _⟩ := range'_eq_append_iff.mp h.symm
  exact ⟨k, hk, he⟩

theorem chunk_sound {lost : Nat → Bool} (hc : Contiguous l c genesis st.db)
    (hi : SyncedBelow l c genesis st.db i)
    (hs : ¬(chunkNums i l1Num).any lost → Smooth l c st.db call ((chunkNums i l1Num).map l.block))
    (h : chunk l c call lost i l1Num st = .ok s') : Sound l c genesis s' := by
  simp only [chunk] at h
  split at h
  case isTrue =>
    cases h
    exact ⟨hc, fun n hn => absurd hn (Option.not_mem_none n)⟩
  case isFalse hl =>
    obtain ⟨⟨st', errs⟩, hp, h⟩ := Loop.bind_eq_ok h
    cases h
    obtain ⟨k, hk, he⟩ := chunkNums_eq i l1Num
    have hs := hs hl
    rw [he] at hs hp
    obtain ⟨hc', hn'⟩ := processBlocksWith_contiguous hs hp hc hi
    refine ⟨hc', fun n hn => ?_⟩
    simp only [next, he, length_range'] at hn
    by_cases hl : k < syncChunkSize
    case pos =>
      rw [if_pos hl] at hn
      exact absurd hn (Option.not_mem_none n)
    case neg =>
      rw [if_neg hl] at hn
      cases hn
      rwa [← Nat.le_antisymm hk (Nat.le_of_not_lt hl)]

theorem follow_sound {lost : Bool} {currentNum : Nat} (hc : Contiguous l c genesis st.db)
    (hi : SyncedBelow l c genesis st.db num)
    (hs : ¬lost → num < currentNum → Smooth l c st.db call [l.block num])
    (h : follow l c call lost currentNum num st = .ok s') : Sound l c genesis s' := by
  unfold follow at h
  split at h
  case isTrue =>
    cases h
    exact ⟨hc, fun n hn => absurd hn (Option.not_mem_none n)⟩
  case isFalse hl =>
    split at h
    case isTrue hn =>
      obtain ⟨⟨st', errs⟩, hp, h⟩ := Loop.bind_eq_ok h
      cases h
      have hs := hs hl (l.number_eq num ▸ hn)
      obtain ⟨hc', hn'⟩ := processBlocksWith_contiguous (i := num) (k := 1) hs hp hc hi
      refine ⟨hc', fun n hn => ?_⟩
      cases hn
      exact hn'
    case isFalse =>
      cases h
      exact ⟨hc, fun n hn => absurd hn (Option.not_mem_none n)⟩

-- The calls of `processBlocks` find everything in order.
def Undisturbed (l : L1) (c : Config) (s : Syncer) : Event → Prop
  | .chunk call lost => ∀ i l1Num, s.phase = .chunks i l1Num → ¬(chunkNums i l1Num).any lost →
    Smooth l c s.state.db call ((chunkNums i l1Num).map l.block)
  | .follow call lost currentNum => ∀ num, s.phase = .follow num → ¬lost → num < currentNum →
    Smooth l c s.state.db call [l.block num]
  | _ => True

theorem step_sound {e : Event} (hs : Sound l c genesis s) (hg : Undisturbed l c s e)
    (h : step l c genesis s e = .ok s') : Sound l c genesis s' := by
  obtain ⟨hc, hn⟩ := hs
  unfold step at h
  split at h
  case h_1 => exact start_sound hc h
  case h_2 i l1Num call lost hp =>
    exact chunk_sound hc (hn i (by rw [next, hp]; rfl)) (hg i l1Num hp) h
  case h_3 num call lost currentNum hp =>
    exact follow_sound hc (hn num (by rw [next, hp]; rfl)) (hg num hp) h
  case h_4 => cases h; exact ⟨hc, hn⟩
  case h_5 =>
    cases h
    exact ⟨hc.cleanUpDB, fun n hn => absurd hn (Option.not_mem_none n)⟩
  case h_6 => cases h; exact ⟨hc, hn⟩

end Sound

def GapFree (l : L1) (c : Config) (genesis : Nat) (d : Database) : Prop :=
  ∀ n ∈ d.syncInfo, ∀ k, genesis ≤ k → k ≤ n → Synced l c d k

-- If the calls find everything in order, then no block is left out, even if requests and the
-- statements that record the number fail.
theorem gapFree_of_undisturbed (l : L1) (c : Config) (genesis : Nat) (pool : FilePool) (heap : Heap)
    (s : Syncer) (r : (machine l c genesis pool heap).Reachable (Undisturbed l c) s) :
    GapFree l c genesis s.state.db := by
  have init : Sound l c genesis (machine l c genesis pool heap).init :=
    ⟨.empty, fun n hn => absurd hn (Option.not_mem_none n)⟩
  have hs := r.invariant (I := Sound l c genesis) init fun _ _ _ => step_sound
  exact fun n hn k hg hk => hs.contiguous.syncInfo n hn k hg (Nat.lt_succ_of_le hk)

def sent : EthTransaction where
  hash := .fill 9
  toAddr := some (.fill 1)
  data := List.replicate 196 0
  encoded := []

def growing : L1 where
  block n := {
    number := n
    hash := .fill (.ofNat (n + 1))
    parentHash := .fill (.ofNat n)
    time := 0
    transactions := if n = 1 then [sent] else []
    encoded := List.replicate n 0
  }
  number_eq _ := rfl
  receipt h := {
    type := 2
    status := 1
    cumulativeGasUsed := 0
    gasUsed := 0
    txHash := h
    blockNumber := 1
    contractAddress := .fill 0
    logs := []
  }
  receipt_txHash _ := rfl
  keccak256 _ := .zero
  decode b := some {
    number := b.length
    hash := .fill (.ofNat (b.length + 1))
    parentHash := .fill (.ofNat b.length)
    time := 0
    transactions := if b.length = 1 then [sent] else []
    encoded := List.replicate b.length 0
  }
  decode_encoded n := by simp

def proxied : Config :=
  { broadcast with commitmentManagerProxy := ByteArr.checksumHex (fun _ => .zero) (.fill 1) }

def quiet : Call :=
  ⟨idle, fun _ => false, .quiet⟩

def rejected : Call :=
  ⟨idle, fun _ => false, { Faults.quiet with blocks := some .txDone }⟩

def reached (l1Num : Nat) : Event :=
  .start ⟨some l1Num, true, true, fun _ => none, fun _ => none⟩

def fromOne : Transition.System Syncer Event GoPanic :=
  machine growing proxied 1 (.new DefaultConfig "" "b") fun _ => .zero

theorem smooth_quiet {bs : List EthBlock} (txs : List EthTransaction)
    (hc : commitments proxied (growing.env quiet) bs = txs)
    (numbers : ∀ b ∈ bs, (b.number : Int) ∉ d.blocks.keys BlockRow.key)
    (hashes : (txs.map (·.hash.hex)).Nodup)
    (transactions : ∀ tx ∈ txs, tx.hash.hex ∉ d.transactions.keys TransactionRow.key)
    (receipts : ∀ tx ∈ txs, tx.hash.hex ∉ d.receipts.keys ReceiptRow.key)
    (last : ∀ b ∈ bs.getLast?, b.number ≠ 0) :
    Smooth growing proxied d quiet bs := by
  cases hc
  exact ⟨rfl, fun _ _ => rfl, rfl, rfl, rfl, numbers, hashes, transactions, receipts,
    fun b hb hz => absurd hz (last b hb)⟩

set_option maxRecDepth 8000 in
-- The first two blocks are synchronized in different ways.
theorem gapFree_growing : ∃ s,
    fromOne.run fromOne.init
      [reached 2, .chunk quiet fun _ => false, reached 2, .follow quiet false 3] = .ok s ∧
    s.state.db.syncInfo = [2] ∧ GapFree growing proxied 1 s.state.db := by
  obtain ⟨s₁, s₂, s₃, s₄, h₁, hp₁, hd₁, h₂, h₃, hp₃, hk₃, h₄, hs₄⟩ : ∃ s₁ s₂ s₃ s₄,
      fromOne.step fromOne.init (reached 2) = .ok s₁ ∧ s₁.phase = .chunks 1 2 ∧
      s₁.state.db = .empty ∧
      fromOne.step s₁ (.chunk quiet fun _ => false) = .ok s₂ ∧
      fromOne.step s₂ (reached 2) = .ok s₃ ∧ s₃.phase = .follow 2 ∧
      s₃.state.db.blocks.keys BlockRow.key = [1] ∧
      fromOne.step s₃ (.follow quiet false 3) = .ok s₄ ∧ s₄.state.db.syncInfo = [2] :=
    ⟨_, _, _, _, rfl, rfl, rfl, rfl, rfl, rfl, rfl, rfl, rfl⟩
  have g (s : Syncer) : Undisturbed growing proxied s (reached 2) := trivial
  have g₁ : Undisturbed growing proxied s₁ (.chunk quiet fun _ => false) := by
    intro i l1Num hp _
    cases hp₁.symm.trans hp
    rw [hd₁]
    exact smooth_quiet [sent] rfl (by decide) (by decide) (by decide) (by decide) (by decide)
  have g₃ : Undisturbed growing proxied s₃ (.follow quiet false 3) := by
    intro num hp _ _
    cases hp₃.symm.trans hp
    refine smooth_quiet [] rfl ?_ (by decide) (by simp) (by simp) (by decide)
    rw [hk₃]
    decide
  refine ⟨s₄, ?_, hs₄, ?_⟩
  case refine_1 => simp [run, h₁, h₂, h₃, h₄, bind, Except.bind, pure, Except.pure]
  case refine_2 =>
    have r₂ : fromOne.Reachable (Undisturbed growing proxied) s₂ :=
      .step (.step .init (g _) h₁) g₁ h₂
    exact gapFree_of_undisturbed growing proxied 1 _ _ s₄ (.step (.step r₂ (g _) h₃) g₃ h₄)

set_option maxRecDepth 8000 in
-- The second block cannot be inserted, which does not keep the third one from being recorded.
theorem not_gapFree_rejected :
    ¬∀ (l : L1) (c : Config) (genesis : Nat) (pool : FilePool) (heap : Heap) (s : Syncer),
      (machine l c genesis pool heap).Reachable anyStep s → GapFree l c genesis s.state.db := by
  intro h
  obtain ⟨s, hs, hi, hb⟩ : ∃ s,
      fromOne.run fromOne.init
        [reached 2, .chunk quiet fun _ => false, reached 4,
          .follow rejected false 4, .follow quiet false 4] = .ok s ∧
      s.state.db.syncInfo = [3] ∧
      s.state.db.blocks.rows.map BlockRow.blockNum = [1, 3] :=
    ⟨_, rfl, rfl, rfl⟩
  have r : fromOne.Reachable anyStep s := .run .init (fun _ _ _ => trivial) hs
  have hg : Synced growing proxied s.state.db 2 :=
    h growing proxied 1 _ _ s r 3 (hi ▸ mem_singleton_self 3) 2 (by decide) (by decide)
  have hm : (2 : Int) ∈ s.state.db.blocks.rows.map BlockRow.blockNum :=
    mem_map_of_mem (f := BlockRow.blockNum) hg.block
  rw [hb] at hm
  exact absurd hm (by decide)

end Syncer
end Sync
