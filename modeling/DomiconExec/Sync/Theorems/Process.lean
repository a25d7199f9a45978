import DomiconExec.Sync.Ethereum

namespace Sync

open List Db Sql FilePool Simulation

variable {R : Database → Database → Prop} {N : Nat → Prop} {c : Config} {env : Env}

-- A statement fails on both of two related databases, or leads to related databases.
def Respected (R : Database → Database → Prop) (stmt : Insert) : Prop :=
  ∀ d d', R d d' → Option.Rel R (stmt d) (stmt d')

def insertDA (r : DARow) : Insert :=
  fun d => d.das.create DARow.key r |>.map fun t => { d with das := t }

theorem addLastBlockNum_eq_some {n : Nat} {d d' : Database}
    (h : Database.addLastBlockNum n d = some d') :
    d' = { d with syncInfo := d.syncInfo ++ [if n = 0 then d.getLastBlockNum + 1 else n] } := by
  simp only [Database.addLastBlockNum] at h
  generalize (if n = 0 then d.getLastBlockNum + 1 else n) = num at h
  split at h <;> cases h
  rfl

-- A relation that all statements of `processBlocks` respect, as long as the numbers of the blocks
-- satisfy `N`.
structure Respects (R : Database → Database → Prop) (N : Nat → Prop) : Prop where
  block : ∀ n (r : BlockRow), N n → r.blockNum = n → Respected R (insertBlock r)
  transaction : ∀ r, Respected R (insertTransaction r)
  receipt : ∀ r, Respected R (insertReceipt r)
  log : ∀ r, Respected R (insertLog r)
  data : ∀ r, Respected R (insertDA r)
  add : ∀ n, Respected R (Database.addLastBlockNum n)
  update : ∀ n n', Respected R (Database.upDataLastBlocNum n n')
  last : ∀ d d', R d d' → d.getLastBlockNum = d'.getLastBlockNum

-- The transactions are related and the statements had the same results.
def TxRelated {α : Type} (R : Database → Database → Prop) (x x' : Tx × α) : Prop :=
  Option.Rel R x.fst x'.fst ∧ x.snd = x'.snd

theorem execute_related {stmt : Insert} {tx tx' : Tx} (hs : Respected R stmt)
    (h : Option.Rel R tx tx') : TxRelated R (execute stmt tx) (execute stmt tx') := by
  cases h
  case none        => exact ⟨.none, rfl⟩
  case some d d' h =>
    have hr := hs d d' h
    cases hd : stmt d <;> cases hd' : stmt d' <;> rw [hd, hd'] at hr <;> cases hr
    case none   => simp [TxRelated, execute, hd, hd']
    case some h => simpa [TxRelated, execute, hd, hd'] using h

theorem getD_related {d d' : Database} {tx tx' : Tx} (h : R d d') (ht : Option.Rel R tx tx') :
    R (tx.getD d) (tx'.getD d') := by
  cases ht
  case none   => exact h
  case some h => exact h

theorem addBatchWith_related {α : Type} {insert : α → Except GoPanic Insert} {l : List α}
    {tx tx' : Tx} (hs : ∀ a ∈ l, ∀ stmt, insert a = .ok stmt → Respected R stmt)
    (h : Option.Rel R tx tx') :
    Related (TxRelated R) (addBatchWith insert l tx) (addBatchWith insert l tx') := by
  induction l generalizing tx tx'
  case nil => exact .ok ⟨h, rfl⟩
  case cons a l hi =>
    have ⟨ha, hl⟩ := forall_mem_cons.mp hs
    cases he : insert a
    case error e =>
      simp only [addBatchWith, he]
      exact .error e
    case ok stmt =>
      have ⟨ht, hr⟩ := execute_related (ha stmt he) h
      simp only [addBatchWith, he, bind, Except.bind]
      generalize execute stmt tx = x at ht hr
      generalize execute stmt tx' = x' at ht hr
      have ⟨tx, err⟩ := x
      have ⟨tx', err'⟩ := x'
      cases hr
      cases err
      case none     => exact hi hl ht
      case some err => exact .ok ⟨ht, rfl⟩

section Phases

variable (hR : Respects R N) {tx tx' : Tx}

include hR

theorem addBatchBlocks_related {blocks : List EthBlock} (hN : ∀ b ∈ blocks, N b.number)
    (h : Option.Rel R tx tx') :
    Related (TxRelated R) (addBatchBlocks blocks tx) (addBatchBlocks blocks tx') := by
  refine addBatchWith_related (fun b hb stmt hs => ?_) h
  cases hs
  exact hR.block b.number _ (hN b hb) rfl

theorem addBatchTransactions_related {num : Int} {txs : List EthTransaction}
    (h : Option.Rel R tx tx') :
    Related (TxRelated R) (addBatchTransactions num txs tx) (addBatchTransactions num txs tx') := by
  refine addBatchWith_related (fun _ _ stmt hs => ?_) h
  cases hs
  exact hR.transaction _

theorem addBatchReceipts_related {receipts : List (Option EthReceipt)} (h : Option.Rel R tx tx') :
    Related (TxRelated R) (addBatchReceipts env.keccak256 receipts tx)
      (addBatchReceipts env.keccak256 receipts tx') := by
  refine addBatchWith_related (fun rec _ stmt hs => ?_) h
  cases rec
  case none     => contradiction
  case some rec =>
    cases hs
    exact hR.receipt _

theorem addBatchLogs_related {logs : List EthLog} (h : Option.Rel R tx tx') :
    Related (TxRelated R) (addBatchLogs env.keccak256 logs tx)
      (addBatchLogs env.keccak256 logs tx') := by
  refine addBatchWith_related (fun log _ stmt hs => ?_) h
  have ⟨r, _, hr⟩ := Loop.map_eq_ok hs
  cases hr
  exact hR.log _

theorem addTransactions_related {blocks : List EthBlock} {commitCache : CommitCache}
    (h : Option.Rel R tx tx') :
    Related (fun x x' => x.fst = x'.fst ∧ TxRelated R x.snd x'.snd)
      (addTransactions .quiet c env blocks commitCache tx)
      (addTransactions .quiet c env blocks commitCache tx') := by
  induction blocks generalizing commitCache tx tx'
  case nil => exact .ok ⟨rfl, h, rfl⟩
  case cons bc blocks hi =>
    simp only [addTransactions, Faults.quiet_transactions, ite_self, orFail]
    refine (Related.refl _).bind fun commitCache _ hc => hc ▸ ?_
    refine (addBatchTransactions_related hR h).bind fun x x' hx => ?_
    refine (hi hx.left).bind fun y y' hy => .ok ⟨hy.left, hy.right.left, ?_⟩
    rw [hx.right, hy.right.right]

theorem create_related {r : DARow} {d d' : Database} (h : R d d') :
    R { d with das := (create d.das r).fst } { d' with das := (create d'.das r).fst } ∧
      (create d.das r).snd = (create d'.das r).snd := by
  have hr := hR.data r d d' h
  unfold insertDA at hr
  cases hd : d.das.create DARow.key r <;> cases hd' : d'.das.create DARow.key r <;>
    rw [hd, hd'] at hr <;> cases hr
  case none   => simpa [create, hd, hd'] using h
  case some h => simpa [create, hd, hd'] using h

theorem saveData_related {heap : Heap} {fd : Ref} {x x' : Database × List Error}
    (h : R x.fst x'.fst ∧ x.snd = x'.snd) :
    Related (fun x x' => R x.fst x'.fst ∧ x.snd = x'.snd) (saveData c env heap x fd)
      (saveData c env heap x' fd) := by
  have ⟨d, errs⟩ := x
  have ⟨d', errs'⟩ := x'
  have ⟨h, he⟩ := h
  cases he
  simp only [saveData]
  cases hn : (heap fd).nameSpaceID
  case none    => exact .error _
  case some id =>
    simp only [saveDACommit, nameSpaceInt64, hn]
    split
    case isFalse => exact .ok ⟨h, rfl⟩
    case isTrue  =>
      refine .ok ⟨(create_related hR h).left, ?_⟩
      exact congrArg (fun err => errs ++ Option.toList err) (create_related hR h).right

theorem setCurrentBlock_related (block : EthBlock) {d d' : Database} (h : R d d') :
    R (setCurrentBlock .quiet block d).fst (setCurrentBlock .quiet block d').fst ∧
      (setCurrentBlock .quiet block d).snd = (setCurrentBlock .quiet block d').snd := by
  have hs : Respected R (if d'.getLastBlockNum = 0 then Database.addLastBlockNum block.number
      else Database.upDataLastBlocNum d'.getLastBlockNum block.number) := by
    split
    case isTrue  => exact hR.add _
    case isFalse => exact hR.update _ _
  have ⟨ht, he⟩ := execute_related hs (.some h)
  simp only [setCurrentBlock, Faults.quiet, Option.isSome_none, Bool.false_eq_true, if_false,
    hR.last d d' h]
  exact ⟨getD_related h ht, congrArg _ he⟩

omit hR in
theorem collectData_eq {das das' : Table DARow} {commitCache : CommitCache} :
    collectData env das commitCache = collectData env das' commitCache := by
  funext s txHash
  unfold collectData getDAByCommit
  split
  case h_1 => rfl
  case h_2 => rfl
  case h_3 =>
    split
    case isTrue  => rfl
    case isFalse => cases s.fst.all.get _ <;> rfl

end Phases

-- The states differ in nothing but their databases, which are related.
structure StateRelated (R : Database → Database → Prop) (s s' : State) : Prop where
  db : R s.db s'.db
  pool : s.pool = s'.pool
  heap : s.heap = s'.heap
  currentBlock : s.currentBlock = s'.currentBlock

theorem processBlocks_related (hR : Respects R N) {s s' : State} {blocks : List EthBlock}
    (hN : ∀ b ∈ blocks, N b.number) (h : StateRelated R s s') :
    Related (fun x x' => StateRelated R x.fst x'.fst ∧ x.snd = x'.snd)
      (processBlocks c env s blocks) (processBlocks c env s' blocks) := by
  have ⟨db, pool, heap, currentBlock⟩ := s
  have ⟨db', pool', heap', currentBlock'⟩ := s'
  have ⟨h, hp, hh, hc⟩ := h
  cases hp
  cases hh
  cases hc
  simp only [processBlocks, processBlocksWith, Faults.quiet_blocks, Faults.quiet_receipts,
    Faults.quiet_logs, orFail]
  refine (addBatchBlocks_related hR hN (.some h)).bind fun ⟨tx, err⟩ ⟨tx', err'⟩ ⟨ht, he⟩ => ?_
  cases he
  cases err
  case some err => exact .ok ⟨⟨h, rfl, rfl, rfl⟩, rfl⟩
  case none     =>
    refine (addTransactions_related hR ht).bind
      fun ⟨commitCache, tx, errs⟩ ⟨_, tx', _⟩ ⟨hc, ht, he⟩ => ?_
    cases hc
    cases he
    refine (addBatchReceipts_related hR ht).bind fun ⟨tx, err⟩ ⟨tx', _⟩ ⟨ht, he⟩ => ?_
    cases he
    refine (Related.refl _).bind fun logs _ hl => hl ▸ ?_
    refine (addBatchLogs_related hR ht).bind fun ⟨tx, err⟩ ⟨tx', _⟩ ⟨ht, he⟩ => ?_
    cases he
    have h := getD_related h ht
    refine (Related.refl _).bind fun commitCache _ hc => hc ▸ ?_
    rw [collectData_eq]
    refine (Related.refl _).bind fun ⟨pool, heap, daDatas⟩ _ hs => hs ▸ ?_
    have hl : Related (fun x x' => R x.fst x'.fst ∧ x.snd = x'.snd)
      (daDatas.foldlM (saveData c env heap) (tx.getD db, []))
      (daDatas.foldlM (saveData c env heap) (tx'.getD db', [])) :=
      .foldlM (fun _ _ _ _ => saveData_related hR) ⟨h, rfl⟩
    refine hl.bind fun ⟨d, errs⟩ ⟨d', _⟩ ⟨h, he⟩ => ?_
    cases he
    cases blocks.getLast?
    case none       => exact .ok ⟨⟨h, rfl, rfl, rfl⟩, rfl⟩
    case some block =>
      have ⟨h, he⟩ := setCurrentBlock_related hR block h
      exact .ok ⟨⟨h, rfl, rfl, rfl⟩, congrArg (_ ++ ·) he⟩

-- The table contains further rows, none of which is deleted.
def Grown {ρ : Type} (t t' : Table ρ) : Prop :=
  ∃ l : List ρ, t' = t ++ l.map (⟨·, false⟩)

namespace Grown

variable {ρ κ : Type} {key : ρ → Option κ} {t t' t'' : Table ρ} {r : ρ}

theorem refl (t : Table ρ) : Grown t t :=
  ⟨[], (append_nil t).symm⟩

theorem trans (h : Grown t t') (h' : Grown t' t'') : Grown t t'' := by
  have ⟨l, hl⟩ := h
  have ⟨l', hl'⟩ := h'
  refine ⟨l ++ l', ?_⟩
  rw [hl', hl, map_append, append_assoc]

theorem of_create [DecidableEq κ] (h : t.create key r = some t') : Grown t t' :=
  ⟨[r], (Table.create_eq_some h).left⟩

theorem keys_subset (h : Grown t t') : t.keys key ⊆ t'.keys key := by
  have ⟨l, hl⟩ := h
  rw [hl, Table.keys, Table.keys, filterMap_append]
  exact subset_append_left _ _

theorem not_deleted (h : Grown t t') (ht : ∀ x ∈ t, x.deleted = false) :
    ∀ x ∈ t', x.deleted = false := by
  have ⟨l, hl⟩ := h
  rw [hl]
  simpa [or_imp, forall_and] using ht

end Grown

-- What the statements of `processBlocks` can do to a database.
structure Extends (d d' : Database) : Prop where
  blocks : Grown d.blocks d'.blocks
  transactions : Grown d.transactions d'.transactions
  receipts : Grown d.receipts d'.receipts
  logs : Grown d.logs d'.logs
  das : Grown d.das d'.das

namespace Extends

variable {d d' d'' : Database} {stmt : Insert}

theorem refl (d : Database) : Extends d d :=
  ⟨.refl _, .refl _, .refl _, .refl _, .refl _⟩

theorem trans (h : Extends d d') (h' : Extends d' d'') : Extends d d'' where
  blocks := h.blocks.trans h'.blocks
  transactions := h.transactions.trans h'.transactions
  receipts := h.receipts.trans h'.receipts
  logs := h.logs.trans h'.logs
  das := h.das.trans h'.das

theorem respected (hs : ∀ d d', stmt d = some d' → Extends d d') :
    Respected (fun d' d'' => Extends d d' ∧ d' = d'') stmt := by
  intro d₁ _ ⟨h, he⟩
  cases he
  cases hd : stmt d₁
  case none    => exact .none
  case some d₂ => exact .some ⟨h.trans (hs d₁ d₂ hd), rfl⟩

theorem respects (d : Database) :
    Respects (fun d' d'' => Extends d d' ∧ d' = d'') (fun _ => True) where
  block _ r _ _ := respected fun d d' h => by
    have ⟨t, ht, he⟩ := Option.map_eq_some_iff.mp h
    exact he ▸ { refl d with blocks := .of_create ht }
  transaction r := respected fun d d' h => by
    have ⟨t, ht, he⟩ := Option.map_eq_some_iff.mp h
    exact he ▸ { refl d with transactions := .of_create ht }
  receipt r := respected fun d d' h => by
    have ⟨t, ht, he⟩ := Option.map_eq_some_iff.mp h
    exact he ▸ { refl d with receipts := .of_create ht }
  log r := respected fun d d' h => by
    have ⟨t, ht, he⟩ := Option.map_eq_some_iff.mp h
    exact he ▸ { refl d with logs := .of_create ht }
  data r := respected fun d d' h => by
    have ⟨t, ht, he⟩ := Option.map_eq_some_iff.mp h
    exact he ▸ { refl d with das := .of_create ht }
  add n := respected fun d d' h => by
    rw [addLastBlockNum_eq_some h]
    exact { refl d with }
  update n n' := respected fun d d' h => by
    unfold Database.upDataLastBlocNum at h
    split at h
    case isTrue => exact Option.some.inj h ▸ refl d
    case isFalse =>
      split at h <;> cases h
      exact { refl d with }
  last d₁ d₂ h := congrArg _ h.right

end Extends

theorem processBlocks_extends {s s' : State} {blocks : List EthBlock} {errs : List Error}
    (h : processBlocks c env s blocks = .ok (s', errs)) : Extends s.db s'.db := by
  let R := fun d d' => Extends s.db d ∧ d = d'
  have hr : Related (fun x x' => StateRelated R x.fst x'.fst ∧ x.snd = x'.snd)
      (processBlocks c env s blocks) (processBlocks c env s blocks) :=
    processBlocks_related (Extends.respects s.db) (fun _ _ => trivial)
      ⟨⟨.refl s.db, rfl⟩, rfl, rfl, rfl⟩
  rw [h] at hr
  cases hr
  case ok hr => exact hr.left.db.left
end Sync
