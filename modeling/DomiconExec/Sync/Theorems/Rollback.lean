import DomiconExec.Sync.Theorems.Process

open List

namespace Sql.Table

variable {ρ κ : Type} {key : ρ → Option κ} {num : ρ → Int} {n : Nat} {p : ρ → Bool} {t : Table ρ}

-- The visible rows of the blocks up to a number.
def upTo (num : ρ → Int) (n : Nat) (t : Table ρ) : Table ρ :=
  t.filter fun r => !r.deleted && num r.row ≤ n

theorem rows_upTo : (t.upTo num n).rows = t.rows.filter (num · ≤ n) := by
  simp [rows, upTo, filter_map, Function.comp_def, filter_filter, Bool.and_comm]

theorem keys_upTo_subset : (t.upTo num n).keys key ⊆ t.keys key :=
  (filter_sublist.filterMap _).subset

theorem upTo_eq_self (hd : ∀ x ∈ t, x.deleted = false) (hn : ∀ r ∈ t.rows, num r ≤ n) :
    t.upTo num n = t := by
  refine filter_eq_self.mpr fun x hx => ?_
  have hr : x.row ∈ t.rows := mem_map_of_mem (mem_filter.mpr ⟨hx, by simp [hd x hx]⟩)
  simp [hd x hx, hn x.row hr]

theorem upTo_softDelete (hp : ∀ r, p r → n < num r) : (t.softDelete p).upTo num n = t.upTo num n := by
  induction t
  case nil => rfl
  case cons x t hi =>
    simp only [softDelete, upTo, map_cons, filter_cons] at hi ⊢
    rw [hi]
    cases h : p x.row
    case false => simp
    case true  => simp [hp x.row h]

end Sql.Table

namespace Database

open Db Sql

-- The numbers of the blocks whose transactions, receipts, logs and data are visible.
def derivedNums (d : Database) : List Int :=
  d.transactions.rows.map TransactionRow.blockNum ++ d.receipts.rows.map ReceiptRow.blockNum ++
    d.logs.rows.map LogRow.blockNum ++ d.das.rows.map DARow.blockNum

def nums (d : Database) : List Int :=
  d.blocks.rows.map BlockRow.blockNum ++ d.derivedNums

-- A database that has never seen any other blocks than those up to a number.
def upTo (n : Nat) (d : Database) : Database :=
  { d with
    blocks := d.blocks.upTo BlockRow.blockNum n
    transactions := d.transactions.upTo TransactionRow.blockNum n
    receipts := d.receipts.upTo ReceiptRow.blockNum n
    logs := d.logs.upTo LogRow.blockNum n
    das := d.das.upTo DARow.blockNum n
  }

-- No query tells the databases apart.
structure SameRows (d d' : Database) : Prop where
  blocks : d.blocks.rows = d'.blocks.rows
  transactions : d.transactions.rows = d'.transactions.rows
  receipts : d.receipts.rows = d'.receipts.rows
  logs : d.logs.rows = d'.logs.rows
  das : d.das.rows = d'.das.rows
  syncInfo : d.syncInfo = d'.syncInfo

-- Only blocks are ever marked as deleted.
structure Unmarked (d : Database) : Prop where
  transactions : ∀ x ∈ d.transactions, x.deleted = false
  receipts : ∀ x ∈ d.receipts, x.deleted = false
  logs : ∀ x ∈ d.logs, x.deleted = false
  das : ∀ x ∈ d.das, x.deleted = false

theorem Unmarked.extends {d d' : Database} (h : d.Unmarked) (he : Sync.Extends d d') :
    d'.Unmarked where
  transactions := he.transactions.not_deleted h.transactions
  receipts := he.receipts.not_deleted h.receipts
  logs := he.logs.not_deleted h.logs
  das := he.das.not_deleted h.das

theorem Unmarked.upTo_eq {d : Database} {n : Nat} (h : d.Unmarked) (hn : ∀ k ∈ d.derivedNums, k ≤ n) :
    d.upTo n = { d with blocks := d.blocks.upTo BlockRow.blockNum n } := by
  simp only [derivedNums, mem_append, or_imp, forall_and, forall_mem_map] at hn
  have ⟨⟨⟨ht, hr⟩, hl⟩, hd⟩ := hn
  simp only [upTo, Table.upTo_eq_self h.transactions ht, Table.upTo_eq_self h.receipts hr,
    Table.upTo_eq_self h.logs hl, Table.upTo_eq_self h.das hd]

end Database

namespace Sync

open Db Sql FilePool Simulation Transition System

variable {c : Config} {env : Env} {s s' : State} {d : Database} {latest org : EthBlock}
variable {cs : List (Env × EthBlock)} {errs : List Error}

theorem foldl_deleteBlockByNum (nums : List Nat) (d : Database) :
    nums.foldl (fun d i => d.deleteBlockByNum i) d =
      { d with blocks := d.blocks.softDelete fun r => nums.any fun i => r.blockNum = i } := by
  induction nums generalizing d
  case nil => simp [Table.softDelete]
  case cons i nums hi =>
    rw [foldl_cons, hi, Database.deleteBlockByNum, Table.softDelete_softDelete]
    rfl

theorem getD_upDataLastBlocNum (n n' : Nat) (d : Database) :
    let d' := (execute (Database.upDataLastBlocNum n n') (some d)).fst.getD d
    d' = { d with syncInfo := d'.syncInfo } := by
  simp only [execute, Database.upDataLastBlocNum]
  split_ifs <;> rfl

-- The rollback only marks the blocks after `org`, and updates the last number.
theorem rollback_eq : rollback latest org d =
    { d with
      blocks := d.blocks.softDelete fun r => org.number < r.blockNum ∧ r.blockNum ≤ latest.number
      syncInfo := (rollback latest org d).syncInfo } := by
  have hp : ∀ r : BlockRow, ((List.range (latest.number - org.number)).map (latest.number - ·)).any
      (fun i => r.blockNum = i) = decide (org.number < r.blockNum ∧ r.blockNum ≤ latest.number) := by
    intro r
    rw [Bool.eq_iff_iff, decide_eq_true_iff]
    simp only [any_map, any_eq_true, mem_range, Function.comp_apply,
      decide_eq_true_iff]
    constructor
    case mp  => omega
    case mpr => exact fun h => ⟨latest.number - r.blockNum.toNat, by omega, by omega⟩
  unfold rollback
  simp only [foldl_deleteBlockByNum, hp]
  exact getD_upDataLastBlocNum _ org.number _

-- The databases only differ in the blocks that are marked as deleted, whose numbers do not satisfy
-- `N`.
structure Agree (N : Nat → Prop) (d d' : Database) : Prop where
  rows : d.blocks.rows = d'.blocks.rows
  keys : ∀ n : Nat, N n → ((n : Int) ∈ d.blocks.keys BlockRow.key ↔
    (n : Int) ∈ d'.blocks.keys BlockRow.key)
  rest : d' = { d with blocks := d'.blocks }

theorem insertBlock_eq (r : BlockRow) (d : Database) : insertBlock r d =
    if r.blockNum ∈ d.blocks.keys BlockRow.key then none
    else some { d with blocks := d.blocks ++ [⟨r, false⟩] } := by
  simp only [insertBlock, Table.create, BlockRow.key, Option.mem_some_iff, exists_eq_left']
  split_ifs <;> rfl

namespace Agree

variable {N : Nat → Prop} {d d' : Database} {stmt : Insert}

theorem insertBlock (h : Agree N d d') {n : Nat} (hn : N n) {r : BlockRow} (hr : r.blockNum = n) :
    Option.Rel (Agree N) (Db.insertBlock r d) (Db.insertBlock r d') := by
  rw [insertBlock_eq, insertBlock_eq, hr]
  simp only [h.keys n hn]
  split_ifs
  case pos => exact .none
  case neg =>
    refine .some ⟨?rows, fun k hk => ?keys, ?rest⟩
    case rows => simp only [Table.rows_concat, h.rows]
    case keys =>
      have := h.keys k hk
      simp_all [Table.keys, filterMap_append]
    case rest => rw [h.rest]

-- The other statements neither read the blocks nor change them.
theorem respected
    (hs : ∀ d b, stmt { d with blocks := b } = (stmt d).map ({ · with blocks := b })) :
    Respected (Agree N) stmt := by
  intro d d' h
  have hd := hs d d.blocks
  have hd' := hs d d'.blocks
  rw [← h.rest] at hd'
  rw [hd']
  cases he : stmt d
  case none    => exact .none
  case some d₁ =>
    have hb : d₁ = { d₁ with blocks := d.blocks } := by
      rw [he] at hd
      exact Option.some.inj hd
    rw [hb]
    exact .some ⟨h.rows, h.keys, rfl⟩

theorem respects (N : Nat → Prop) : Respects (Agree N) N where
  block _ _ hn hr _ _ h := h.insertBlock hn hr
  transaction _ := respected fun d b => by simp [insertTransaction, Function.comp_def]
  receipt _ := respected fun d b => by simp [insertReceipt, Function.comp_def]
  log _ := respected fun d b => by simp [insertLog, Function.comp_def]
  data _ := respected fun d b => by simp [insertDA, Function.comp_def]
  add n := respected fun d b => by
    simp only [Database.addLastBlockNum, Database.getLastBlockNum]
    split_ifs <;> rfl
  update n n' := respected fun d b => by
    simp only [Database.upDataLastBlocNum]
    split_ifs <;> rfl
  last d d' h := by
    rw [h.rest]
    rfl

theorem sameRows (h : Agree N d d') : d.SameRows d' := by
  have ⟨hr, _, he⟩ := h
  rw [he]
  exact ⟨hr, rfl, rfl, rfl, rfl, rfl⟩

end Agree

-- Resynchronization does not tell the databases apart.
theorem resync_agree {N : Nat → Prop} (hN : ∀ x ∈ cs, N x.snd.number)
    (h : StateRelated (Agree N) s s') :
    Related (fun x x' => StateRelated (Agree N) x.fst x'.fst ∧ x.snd = x'.snd) (resync c s cs)
      (resync c s' cs) := by
  induction cs generalizing s s'
  case nil => exact .ok ⟨h, rfl⟩
  case cons x cs hi =>
    have ⟨hx, hN⟩ := forall_mem_cons.mp hN
    refine (processBlocks_related (Agree.respects N) (forall_mem_singleton.mpr hx) h).bind
      fun y y' ⟨hy, he⟩ => ?_
    refine (hi hN hy).bind fun z z' ⟨hz, he'⟩ => .ok ⟨hz, ?_⟩
    rw [he, he']

section Reachable

variable {pool : FilePool} {heap : Heap}

theorem unmarked_of_reachable (r : (machine c pool heap).Reachable anyStep s) : s.db.Unmarked := by
  refine r.invariant (I := fun s => s.db.Unmarked) ?init fun s e s' hi _ h => ?step
  case init => constructor <;> simp [machine, Database.empty]
  case step =>
    cases e
    case processBlocks env blocks =>
      obtain ⟨x, hx, he⟩ := Loop.map_eq_ok h
      exact he ▸ hi.extends (processBlocks_extends hx)
    case rollback latest org =>
      cases h
      rw [rollback_eq]
      exact ⟨hi.transactions, hi.receipts, hi.logs, hi.das⟩
    case pool =>
      cases h
      exact hi

theorem processBlocks_of_mem_keys {block : EthBlock}
    (h : (block.number : Int) ∈ s.db.blocks.keys BlockRow.key) :
    processBlocks c env s [block] = .ok (s, [.uniqueViolation]) := by
  simp [processBlocks, processBlocksWith, Faults.quiet, orFail, addBatchBlocks, addBatchWith,
    execute, insertBlock_eq, h, bind, Except.bind, pure, Except.pure]

theorem not_mem_keys_of_resync (h : resync c s cs = .ok (s', errs)) (he : .uniqueViolation ∉ errs) :
    ∀ x ∈ cs, (x.snd.number : Int) ∉ s.db.blocks.keys BlockRow.key := by
  induction cs generalizing s errs
  case nil => simp
  case cons x cs hi =>
    have ⟨⟨s₁, errs₁⟩, h₁, h⟩ := Loop.bind_eq_ok h
    have ⟨⟨s₂, errs₂⟩, h₂, h⟩ := Loop.bind_eq_ok h
    cases h
    have ⟨he₁, he₂⟩ := not_or.mp <| mem_append.not.mp he
    refine forall_mem_cons.mpr ⟨fun hk => ?_, fun y hy hk => ?_⟩
    · rw [processBlocks_of_mem_keys hk] at h₁
      cases h₁
      exact he₁ (mem_singleton_self _)
    · exact hi h₂ he₂ y hy <| (processBlocks_extends h₁).blocks.keys_subset hk

end Reachable

-- The latest block is the highest one that is stored.
structure Head (latest : EthBlock) (d : Database) : Prop where
  stored : ∃ r ∈ d.blocks.rows, r.blockNum = latest.number
  le : ∀ r ∈ d.blocks.rows, r.blockNum ≤ latest.number

-- What a rollback is for: nothing of the blocks after `org` is left, all else remains, and the
-- blocks `cs` can be processed as if the removed ones had never been there.
structure RollsBack (c : Config) (s : State) (latest org : EthBlock) (cs : List (Env × EthBlock)) :
    Prop where
  removed : ∀ n ∈ (rollback latest org s.db).nums, n ≤ org.number
  kept : (rollback latest org s.db).upTo org.number =
    { s.db.upTo org.number with syncInfo := (rollback latest org s.db).syncInfo }
  resynced : ∀ s₁ errs,
    resync c { s with db := (rollback latest org s.db).upTo org.number } cs = .ok (s₁, errs) →
    .uniqueViolation ∉ errs →
      ∃ s₂, resync c { s with db := rollback latest org s.db } cs = .ok (s₂, errs) ∧
        s₂.db.SameRows s₁.db

-- The blocks after `n` have left nothing but themselves, and the blocks `cs` have new numbers.
structure Untouched (d : Database) (n : Nat) (cs : List (Env × EthBlock)) : Prop where
  derived : ∀ k ∈ d.derivedNums, k ≤ n
  blocks : ∀ x ∈ cs, (x.snd.number : Int) ∉ d.blocks.keys BlockRow.key

theorem derivedNums_rollback : (rollback latest org d).derivedNums = d.derivedNums := by
  rw [rollback_eq]
  rfl

theorem keys_rollback :
    (rollback latest org d).blocks.keys BlockRow.key = d.blocks.keys BlockRow.key := by
  rw [rollback_eq, Table.keys_softDelete]

theorem upTo_rollback : (rollback latest org d).upTo org.number =
    { d.upTo org.number with syncInfo := (rollback latest org d).syncInfo } := by
  rw [rollback_eq]
  simp only [Database.upTo]
  rw [Table.upTo_softDelete]
  intro r hr
  exact (of_decide_eq_true hr).left

theorem Head.le_of_mem_rollback (hh : Head latest d) :
    ∀ r ∈ (rollback latest org d).blocks.rows, r.blockNum ≤ org.number := by
  intro r hr
  rw [rollback_eq, Table.rows_softDelete, mem_filter] at hr
  have hl := hh.le r hr.left
  simp only [Bool.not_eq_true', decide_eq_false_iff_not] at hr
  omega

theorem Untouched.agree (h : Untouched s.db org.number cs) (hu : s.db.Unmarked)
    (hh : Head latest s.db) :
    Agree (fun n => ∃ x ∈ cs, n = x.snd.number) (rollback latest org s.db)
      ((rollback latest org s.db).upTo org.number) := by
  have hu : (rollback latest org s.db).Unmarked := by
    rw [rollback_eq]
    exact ⟨hu.transactions, hu.receipts, hu.logs, hu.das⟩
  have hd : ∀ k ∈ (rollback latest org s.db).derivedNums, k ≤ org.number := by
    rw [derivedNums_rollback]
    exact h.derived
  rw [hu.upTo_eq hd]
  refine ⟨?rows, ?keys, rfl⟩
  case rows =>
    rw [Table.rows_upTo]
    refine (filter_eq_self.mpr fun r hr => ?_).symm
    exact decide_eq_true (hh.le_of_mem_rollback r hr)
  case keys =>
    -- The number is not taken on either side.
    rintro n ⟨x, hx, hn⟩
    have hk : (n : Int) ∉ (rollback latest org s.db).blocks.keys BlockRow.key := by
      rw [keys_rollback, hn]
      exact h.blocks x hx
    exact iff_of_false hk fun hm => hk (Table.keys_upTo_subset hm)

theorem Untouched.rollsBack (h : Untouched s.db org.number cs) (hu : s.db.Unmarked)
    (hh : Head latest s.db) : RollsBack c s latest org cs where
  removed := by
    rw [Database.nums, derivedNums_rollback, forall_mem_append, forall_mem_map]
    exact ⟨hh.le_of_mem_rollback, h.derived⟩
  kept := upTo_rollback
  resynced s₁ errs hr _ := by
    have ha : StateRelated _ { s with db := rollback latest org s.db }
        { s with db := (rollback latest org s.db).upTo org.number } :=
      ⟨h.agree hu hh, rfl, rfl, rfl⟩
    have ⟨⟨s₂, errs₂⟩, hr₂, hs₂, he⟩ := (resync_agree (fun x hx => ⟨x, hx, rfl⟩) ha).of_ok hr
    cases he
    exact ⟨s₂, hr₂, hs₂.db.sameRows⟩

theorem rollsBack_iff_untouched (c : Config) (pool : FilePool) (heap : Heap) (s : State)
    (latest org : EthBlock) (cs : List (Env × EthBlock))
    (r : (machine c pool heap).Reachable anyStep s) (hh : Head latest s.db)
    (hc : ∃ s₁ errs,
      resync c { s with db := (rollback latest org s.db).upTo org.number } cs = .ok (s₁, errs) ∧
        .uniqueViolation ∉ errs) :
    RollsBack c s latest org cs ↔ Untouched s.db org.number cs := by
  constructor
  case mpr => exact fun h => h.rollsBack (unmarked_of_reachable r) hh
  case mp  =>
    intro h
    have ⟨s₁, errs, hr, he⟩ := hc
    have ⟨s₂, hr₂, _⟩ := h.resynced s₁ errs hr he
    refine ⟨fun k hk => ?_, ?_⟩
    · rw [← derivedNums_rollback] at hk
      exact h.removed k (mem_append_right _ hk)
    · exact keys_rollback ▸ not_mem_keys_of_resync hr₂ he

-- There are no receipts, and the pool is empty.
def idle : Env where
  now := .zero
  zone := 0
  pool := {
    heap _ := .zero
    now := .zero
    initMultiAdaptiveSdk := none
    verifyCommitWithProof _ _ _ := none
    writeError _ := none
  }
  keccak256 _ := .zero
  setBytes _ := (.zero, none)
  transactionReceipt _ := none
  parseSendDACommitment _ := none
  ecrecover _ _ := .error ⟨"recovery failed"⟩
  signer := .homestead
  nameSpace _ := []

def broadcast : Config where
  commitmentManagerProxy := []
  nodeType := "b"
  address := .fill 0

def emptyBlock (number : Nat) (hash parentHash : UInt8) : EthBlock where
  number := number
  hash := .fill hash
  parentHash := .fill parentHash
  time := 0
  transactions := []
  encoded := []

def fresh : Transition.System State Event GoPanic :=
  machine broadcast (.new DefaultConfig "" "b") fun _ => .zero

theorem head_of_nums {nums : List Int} (hn : d.blocks.rows.map BlockRow.blockNum = nums)
    (hs : (latest.number : Int) ∈ nums) (hl : ∀ n ∈ nums, n ≤ latest.number) : Head latest d where
  stored := mem_map.mp (hn ▸ hs)
  le r hr := hl r.blockNum (hn ▸ mem_map_of_mem hr)

-- The orphaned block has left a gap, in which the new one is stored.
theorem rollsBack_gap : ∃ s,
    fresh.run fresh.init [.processBlocks idle [emptyBlock 5 1 0, emptyBlock 7 2 1]] = .ok s ∧
    RollsBack broadcast s (emptyBlock 7 2 1) (emptyBlock 5 1 0) [(idle, emptyBlock 6 3 1)] := by
  have ⟨s, h, hn, hk, hd, s₁, hc⟩ : ∃ s,
      fresh.run fresh.init [.processBlocks idle [emptyBlock 5 1 0, emptyBlock 7 2 1]] = .ok s ∧
      s.db.blocks.rows.map BlockRow.blockNum = [5, 7] ∧
      s.db.blocks.keys BlockRow.key = [5, 7] ∧
      s.db.derivedNums = [] ∧
      ∃ s₁, resync broadcast
        { s with db := (rollback (emptyBlock 7 2 1) (emptyBlock 5 1 0) s.db).upTo 5 }
        [(idle, emptyBlock 6 3 1)] = .ok (s₁, []) := ⟨_, rfl, rfl, rfl, rfl, _, rfl⟩
  have r : fresh.Reachable anyStep s := .run .init (fun _ _ _ => trivial) h
  have hh : Head (emptyBlock 7 2 1) s.db := head_of_nums hn (by decide) (by decide)
  have hu : Untouched s.db 5 [(idle, emptyBlock 6 3 1)] := by
    refine ⟨hd ▸ by simp, forall_mem_singleton.mpr ?_⟩
    rw [hk]
    decide
  refine ⟨s, h, ?_⟩
  exact rollsBack_iff_untouched _ _ _ s _ (emptyBlock 5 1 0) _ r hh ⟨s₁, [], hc, by simp⟩ |>.mpr hu

-- The number of the orphaned block is still taken when the block that replaces it is inserted.
theorem not_rollsBack_replaced :
    ¬∀ (c : Config) (pool : FilePool) (heap : Heap) (s : State) (latest org : EthBlock)
      (cs : List (Env × EthBlock)), (machine c pool heap).Reachable anyStep s →
      Head latest s.db → org.number < latest.number →
      cs.map (·.snd.number) = List.range' (org.number + 1) cs.length →
        RollsBack c s latest org cs := by
  intro h
  have ⟨s, hs, hn, ⟨s₁, hc⟩, s₂, hr⟩ : ∃ s,
      fresh.run fresh.init [.processBlocks idle [emptyBlock 5 1 0, emptyBlock 6 2 1]] = .ok s ∧
      s.db.blocks.rows.map BlockRow.blockNum = [5, 6] ∧
      (∃ s₁, resync broadcast
        { s with db := (rollback (emptyBlock 6 2 1) (emptyBlock 5 1 0) s.db).upTo 5 }
        [(idle, emptyBlock 6 3 1)] = .ok (s₁, [])) ∧
      ∃ s₂, resync broadcast
        { s with db := rollback (emptyBlock 6 2 1) (emptyBlock 5 1 0) s.db }
        [(idle, emptyBlock 6 3 1)] = .ok (s₂, [.uniqueViolation]) :=
    ⟨_, rfl, rfl, ⟨_, rfl⟩, _, rfl⟩
  have r : fresh.Reachable anyStep s := .run .init (fun _ _ _ => trivial) hs
  have hh : Head (emptyBlock 6 2 1) s.db := head_of_nums hn (by decide) (by decide)
  have h := h _ _ _ s (emptyBlock 6 2 1) (emptyBlock 5 1 0) [(idle, emptyBlock 6 3 1)] r hh
    (by decide) rfl
  have ⟨s₃, hr₃, _⟩ := h.resynced s₁ [] hc (by simp)
  rw [hr] at hr₃
  cases hr₃

end Sync
