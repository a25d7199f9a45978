import DomiconExec.Sync.Bitcoin

open List

namespace Db

open Sql

theorem toInt64_uint64 (n : Int) : (uint64 n).toInt64 = .ofInt n := by
  refine Int64.toBitVec_inj.mp <| BitVec.eq_of_toNat_eq ?_
  simp [uint64, UInt64.ofInt, BitVec.toNat_ofInt]
  omega

theorem int64_uint64 {n : Int} (h : -2 ^ 63 ≤ n) (h' : n < 2 ^ 63) : int64 (uint64 n) = n := by
  rw [int64, toInt64_uint64, Int64.toInt_ofInt_of_le h h']

theorem int64_eq_toInt (n : UInt64) : int64 n = n.toBitVec.toInt :=
  rfl

theorem int64_le_toNat (n : UInt64) : int64 n ≤ n.toNat := by
  rw [int64_eq_toInt, BitVec.toInt_eq_toNat_cond, ← UInt64.toNat_toBitVec]
  split <;> omega

theorem int64_nonneg {n : UInt64} (h : n.toNat < 2 ^ 63) : 0 ≤ int64 n := by
  rw [int64_eq_toInt, BitVec.toInt_eq_toNat_cond, UInt64.toNat_toBitVec]
  split <;> omega

end Db

namespace Sync.Bitcoin

open Db Sql FilePool Transition System

section RunSync

variable {ws : WorkerService} {env : Env} {db db' : Database}

namespace WorkerService

theorem present_bounds : -2 ^ 63 ≤ ws.present db ∧ ws.present db < 2 ^ 63 :=
  ⟨Int64.le_toInt _, Int64.toInt_lt _⟩

-- Reading the height does not change it, even if the row is created.
theorem getPresentBlockHeight_eq (ws : WorkerService) (env : Env) (db : Database) : ∃ baseChain,
    ws.getPresentBlockHeight env db = ({ db with baseChain }, ws.present db) ∧
      ws.present { db with baseChain } = ws.present db := by
  unfold getPresentBlockHeight
  cases h : db.baseChain.find? ws.matchesChain
  case some bc => exact ⟨db.baseChain, by simp [present, h], rfl⟩
  case none    => exact ⟨_, by simp [present, h]; rfl, by simp [present, h, matchesChain]⟩

theorem find?_modify {α : Type} {p : α → Bool} {f : α → α} {l : List α} {i : Nat}
    (hf : ∀ a, p (f a) = p a) (h : l.findIdx? p = some i) :
    ∃ a, (l.modify i f).find? p = some (f a) := by
  induction l generalizing i
  case nil => contradiction
  case cons a l hi =>
    rw [List.findIdx?_cons] at h
    cases ha : p a
    case true =>
      rw [ha] at h
      cases h
      exact ⟨a, by simp [hf, ha]⟩
    case false =>
      simp only [ha] at h
      have ⟨j, hj, he⟩ := Option.map_eq_some_iff.mp h
      cases he
      simpa [ha] using hi hj

theorem updateChain_eq {n : Int} (hn : -2 ^ 63 ≤ n) (hn' : n < 2 ^ 63)
    (h : ws.updateChain env n db = .ok db') :
    db' = { db with baseChain := db'.baseChain } ∧ ws.present db' = n := by
  unfold updateChain at h
  split at h
  case h_1 => contradiction
  case h_2 => contradiction
  case h_3 i _ hi =>
    cases h
    refine ⟨rfl, ?_⟩
    have ⟨bc, hb⟩ := find?_modify (f := fun bc : BaseChainRow =>
      { bc with currentHeight := uint64 n, createAt := env.now.unix }) (fun _ => rfl) hi
    rw [present, hb]
    exact int64_uint64 hn hn'

theorem getBlocks_heights {first last : Int} {blocks : List (Int × List TxID)}
    (h : getBlocks env first last = .ok blocks) : ∀ x ∈ blocks, first ≤ x.fst ∧ x.fst ≤ last := by
  refine Loop.foldlM_preserves (fun blocks => ∀ x ∈ blocks, first ≤ x.fst ∧ x.fst ≤ last)
    (fun i hi blocks blocks' hb hs => ?_) (by simp) h
  have ⟨_, _, hs⟩ := Loop.bind_eq_ok hs
  have ⟨_, _, hs⟩ := Loop.bind_eq_ok hs
  have ⟨_, _, hs⟩ := Loop.bind_eq_ok hs
  cases hs
  have hi := mem_range.mp hi
  refine forall_mem_append.mpr ⟨hb, forall_mem_singleton.mpr ?_⟩
  simp only
  omega

-- The number of a brief is the height of a block.
theorem generateBrief_heights {P : Int → Prop} {blocks : List (Int × List TxID)}
    {cache : BtcTxSortCache} (h : ∀ x ∈ blocks, P x.fst) (hg : generateBrief env blocks = .ok cache) :
    ∀ tx, ∀ b ∈ (cache.get tx).getD [], P b.blockNum := by
  let I (cache : BtcTxSortCache) := ∀ tx, ∀ b ∈ (cache.get tx).getD [], P b.blockNum
  refine Loop.foldlM_preserves I (fun x hx _ _ hc hs => Loop.foldlM_preserves I ?_ hc hs)
    (by simp [I, OrderedMap.empty, OrderedMap.get]) hg
  intro tx _ cache cache' hc hs
  unfold addBriefs at hs
  split at hs
  case h_1 =>
    cases hs
    exact hc
  case h_2 =>
    obtain ⟨inscriptions, _, hs⟩ := Loop.bind_eq_ok hs
    split at hs <;> cases hs
    case h_1 => exact hc
    case h_2 =>
      intro tx' b hb
      rw [OrderedMap.get_set] at hb
      split at hb
      case isFalse => exact hc tx' b hb
      case isTrue  =>
        simp only [transactionBriefs, Option.getD_some, mem_map] at hb
        obtain ⟨_, _, he⟩ := hb
        exact he ▸ h x hx

-- All calls and statements up to the one that records the height succeed.
structure Records (ws : WorkerService) (env : Env) (db : Database) (tip : Int64) : Prop where
  getBlockCount : env.getBlockCount = .ok tip
  firstOrCreate : env.firstOrCreate = none
  lt : ws.present db < tip.toInt
  getBlocks : ∃ blocks, getBlocks env (ws.present db + 1) tip.toInt = .ok blocks
  saveBlocks : env.saveBlocks = none
  saveTransactions : env.saveTransactions = none
  saveFiles : env.saveFiles = none
  updateChain : env.updateChain = none

theorem check_eq_ok {err : Option GoError} {u : Unit} (h : check err = .ok u) : err = none := by
  cases err
  case none   => rfl
  case some e => contradiction

theorem updateChain_none {n : Int} {db' : Database} (h : ws.updateChain env n db = .ok db') :
    env.updateChain = none := by
  unfold updateChain at h
  split at h
  case h_1    => contradiction
  case h_2    => contradiction
  case h_3 hu _ => exact hu

-- Otherwise nothing is recorded, and there is nothing to do.
structure Pauses (ws : WorkerService) (db : Database)
    (x : Database × Except GoError BtcTxSortCache) : Prop where
  rest : x.fst = { db with baseChain := x.fst.baseChain }
  present : ws.present x.fst = ws.present db
  empty : ∀ cache, x.snd = .ok cache → cache = .empty

theorem runSync_cases {x : Database × Except GoError BtcTxSortCache}
    (h : ws.runSync env db = .ok x) : Pauses ws db x ∨ ∃ tip blocks cache,
      Records ws env db tip ∧ getBlocks env (ws.present db + 1) tip.toInt = .ok blocks ∧
      generateBrief env blocks = .ok cache ∧ x.snd = .ok cache ∧
      x.fst = { db with baseChain := x.fst.baseChain } ∧ ws.present x.fst = tip.toInt := by
  unfold runSync at h
  split at h
  case h_1 =>
    cases h
    exact .inl ⟨rfl, rfl, by simp⟩
  case h_2 =>
    cases h
    exact .inl ⟨rfl, rfl, by simp⟩
  case h_3 tip hc hf =>
    obtain ⟨baseChain, he, hp⟩ := ws.getPresentBlockHeight_eq env db
    have hidle (err : GoError) : Pauses ws db ({ db with baseChain }, .error err) :=
      ⟨rfl, hp, by simp⟩
    rw [he] at h
    dsimp only at h
    split at h
    case isTrue =>
      cases h
      exact .inl ⟨rfl, hp, by simp [eq_comm]⟩
    case isFalse hl =>
      split at h
      case h_1 =>
        cases h
        exact .inl (hidle _)
      case h_2 blocks hr =>
        obtain ⟨blocks, hb, hr⟩ := Loop.bind_eq_ok hr
        obtain ⟨_, hs, hr⟩ := Loop.bind_eq_ok hr
        obtain ⟨_, ht, hr⟩ := Loop.bind_eq_ok hr
        cases hr
        obtain ⟨err, hi, h⟩ := Loop.bind_eq_ok h
        obtain ⟨_, _, hi⟩ := Loop.bind_eq_ok hi
        split at h
        case h_1 =>
          cases h
          exact .inl (hidle _)
        case h_2 =>
          obtain ⟨cache, hg, h⟩ := Loop.bind_eq_ok h
          split at h
          case h_1 =>
            cases h
            exact .inl (hidle _)
          case h_2 db' hu =>
            cases h
            have hr : Records ws env db tip := ⟨hc, hf, not_le.mp hl, ⟨blocks, hb⟩, check_eq_ok hs,
              check_eq_ok ht, Except.ok.inj hi, updateChain_none hu⟩
            obtain ⟨hd, hn⟩ := updateChain_eq (Int64.le_toInt _) (Int64.toInt_lt _) hu
            exact .inr ⟨tip, blocks, cache, hr, hb, hg, rfl, hd, hn⟩

-- A synchronization only changes the recorded height, which never decreases, and its briefs are
-- from the blocks in between.
structure Advances (ws : WorkerService) (db : Database)
    (x : Database × Except GoError BtcTxSortCache) : Prop where
  rest : x.fst = { db with baseChain := x.fst.baseChain }
  le : ws.present db ≤ ws.present x.fst
  briefs : ∀ cache, x.snd = .ok cache → ∀ tx, ∀ b ∈ (cache.get tx).getD [],
    ws.present db < b.blockNum ∧ b.blockNum ≤ ws.present x.fst

theorem runSync_advances {x : Database × Except GoError BtcTxSortCache}
    (h : ws.runSync env db = .ok x) : Advances ws db x := by
  obtain hx | ⟨tip, blocks, cache, hr, hb, hg, hc, hd, hp⟩ := runSync_cases h
  case inl =>
    refine ⟨hx.rest, hx.present.ge, fun cache hc => ?_⟩
    cases hx.empty cache hc
    simp [OrderedMap.empty, OrderedMap.get]
  case inr =>
    refine ⟨hd, hp ▸ hr.lt.le, fun cache' hc' => ?_⟩
    cases hc.symm.trans hc'
    refine generateBrief_heights (P := fun n => ws.present db < n ∧ n ≤ ws.present x.fst)
      (fun x hx => ?_) hg
    have := getBlocks_heights hb x hx
    omega

end WorkerService
end RunSync

section Collect

variable {env : Env} {das : Table DARow} {s s' : Collected} {P : Int → Prop}

-- The numbers of the data that was collected.
def Collected.Numbers (P : Int → Prop) (s : Collected) : Prop :=
  ∀ fd ∈ s.daDatas, ∃ n, P n ∧ (s.heap fd).blockNum = uint64 n

theorem collectData_numbers {tx : TxID} {brief : TransactionBrief} (hs : s.Numbers P)
    (hb : P brief.blockNum) (h : collectData env das tx s brief = .ok s') : s'.Numbers P := by
  unfold collectData at h
  split at h
  case h_1 =>
    cases h
    exact hs
  case h_2 fd _ =>
    have ⟨r, _, h⟩ := Loop.bind_eq_ok h
    cases h
    -- The same data may have been collected before, in which case its number has changed.
    intro fd' hf
    by_cases he : fd' = fd
    case pos => exact ⟨brief.blockNum, hb, by simp [he]⟩
    case neg =>
      have ⟨n, hn, hf⟩ := hs fd' (by simpa [he] using hf)
      exact ⟨n, hn, by simpa [he] using hf⟩

theorem collectAll_numbers {cache : BtcTxSortCache} (hs : s.Numbers P)
    (hc : ∀ tx, ∀ b ∈ (cache.get tx).getD [], P b.blockNum)
    (h : collectAll env das cache s = .ok s') : s'.Numbers P :=
  Loop.foldlM_preserves (Collected.Numbers P) (fun tx _ _ _ hs h =>
    Loop.foldlM_preserves (Collected.Numbers P) (fun b hb _ _ hs h =>
      collectData_numbers hs (hc tx b hb) h) hs h) hs h

end Collect

section Save

variable {keccak256 : Bytes → Hash} {das das' : Table DARow} {r : DARow}
variable {entries : List (GoString × Int × GoString)} {nonces : List Int}

-- What a row tells about an inscription, besides its nonce.
def entry (r : DARow) : GoString × Int × GoString :=
  (r.txHash, r.blockNum, r.commitment)

theorem batchRows_map {α : Type} {g : DARow → α} {g' : DA → α} {das : List DA}
    {dataCollect : Bytes} {parentHash : Hash}
    (h : ∀ da parent state, g { row keccak256 da with
      proof := Hex.bytes2Hex da.proof, parentStateHash := parent, stateHash := state } = g' da) :
    (batchRows keccak256 dataCollect parentHash das).map g = das.map g' := by
  induction das generalizing dataCollect parentHash
  case nil => rfl
  case cons da das hi =>
    rw [batchRows, map_cons, hi, map_cons, h]

-- The table is extended by one row for each of the data.
def Extended (das : Table DARow) (entries : List (GoString × Int × GoString)) (nonces : List Int)
    (das' : Table DARow) : Prop :=
  ∃ rows : List DARow, das' = das ++ rows.map (⟨·, false⟩) ∧ rows.map entry = entries ∧
    rows.map DARow.nonce = nonces

-- What the row of data tells about it.
def gist (da : DA) : GoString × Int × GoString :=
  (da.txHash.hex, int64 da.blockNum, Hex.bytes2Hex da.commitment.marshal)

theorem Extended.mem_rows (h : Extended das entries nonces das') (hr : r ∈ das.rows) :
    r ∈ das'.rows := by
  obtain ⟨rows, rfl, _⟩ := h
  rw [Table.rows_append]
  exact mem_append_left _ hr

theorem Extended.of_mem_rows (h : Extended das entries nonces das') (hr : r ∈ das'.rows) :
    r ∈ das.rows ∨ entry r ∈ entries := by
  obtain ⟨rows, rfl, rfl, _⟩ := h
  rw [Table.rows_append] at hr
  exact (mem_append.mp hr).imp_right List.mem_map_of_mem

-- A batch is created as a whole, if its keys are fresh and the statement does not fail.
def Collected.accepted (f : Faults) (das : Table DARow) (s : Collected) : List DA :=
  let das' := s.daDatas.map s.heap
  if f.saveBatchCommitment = none ∧ Table.Fresh (das.keys DARow.key) (das'.map (·.txHash.hex)) then
    das'
  else
    []

theorem Collected.accepted_subset {f : Faults} {s : Collected} :
    s.accepted f das ⊆ s.daDatas.map s.heap := by
  rw [accepted]
  split
  case isTrue  => exact List.Subset.refl _
  case isFalse => exact nil_subset _

theorem saveBatchCommitment_cases {parentHash : Hash} {l : List DA} :
    let das' := (saveBatchCommitment keccak256 das l parentHash).fst
    Table.Fresh (das.keys DARow.key) (l.map (·.txHash.hex)) ∧
        Extended das (l.map gist) (l.map (int64 ·.nonce)) das' ∨
      ¬Table.Fresh (das.keys DARow.key) (l.map (·.txHash.hex)) ∧ das' = das := by
  let rows := batchRows keccak256 [] parentHash l
  have hk : rows.filterMap DARow.key = l.map (·.txHash.hex) := by
    have hm : rows.map DARow.txHash = l.map (·.txHash.hex) := batchRows_map fun _ _ _ => rfl
    rw [← hm]
    exact congrFun filterMap_eq_map _
  have hi : (das.createAll DARow.key rows).isSome ↔ _ := Table.createAll_isSome_iff
  rw [hk] at hi
  have he : rows.map entry = l.map gist := batchRows_map fun _ _ _ => rfl
  have hn : rows.map DARow.nonce = l.map (int64 ·.nonce) := batchRows_map fun _ _ _ => rfl
  unfold saveBatchCommitment
  split
  case h_1 hr =>
    have hl : l = [] := by simpa [rows, hr, eq_comm] using he
    cases hl
    exact .inl ⟨⟨.nil, fun _ h => by cases h⟩, [], (append_nil das).symm, rfl, rfl⟩
  case h_2 =>
    cases hc : das.createAll DARow.key rows <;> rw [hc] at hi
    case none   => exact .inr ⟨by simpa using hi, rfl⟩
    case some t => exact .inl ⟨hi.mp rfl, rows, Table.createAll_eq_some hc, he, hn⟩

theorem saveData_extended {f : Faults} {env : Env} {s : State} {collected : Collected} :
    Extended s.db.das ((collected.accepted f s.db.das).map gist)
      ((collected.accepted f s.db.das).map (int64 ·.nonce)) (saveData f env s collected).db.das := by
  have hn : Extended s.db.das [] [] s.db.das := ⟨[], (append_nil _).symm, rfl, rfl⟩
  obtain ⟨parentHash, hd⟩ : ∃ parentHash, (saveData f env s collected).db.das =
      if f.saveBatchCommitment.isSome then s.db.das else (saveBatchCommitment env.keccak256 s.db.das
        (collected.daDatas.map collected.heap) parentHash).fst := by
    unfold saveData
    dsimp only
    split
    case isTrue => exact ⟨_, rfl⟩
    case isFalse h =>
      rw [length_eq_zero_iff.mp (not_not.mp h)]
      exact ⟨.zero, (ite_self _).symm⟩
  rw [hd, Collected.accepted]
  cases f.saveBatchCommitment
  case some => simpa using hn
  case none =>
    obtain ⟨hf, hx⟩ | ⟨hf, hx⟩ := @saveBatchCommitment_cases env.keccak256 s.db.das parentHash
      (collected.daDatas.map collected.heap)
    case inl =>
      rw [if_pos ⟨rfl, hf⟩]
      exact hx
    case inr =>
      rw [if_neg fun h => hf h.right]
      exact hx.symm ▸ hn

end Save

section Invariant

variable {f : Faults} {c : Config} {env : Env} {s s' : State}

-- All data is from blocks after the first one, up to the height that is recorded.
structure Inv (c : Config) (db : Database) : Prop where
  syncInfo : db.syncInfo = []
  das : ∀ r ∈ db.das.rows, ∃ netParams, c.netParams = some netParams ∧
    int64 c.genesisBlockNumber < r.blockNum ∧ r.blockNum ≤ c.present netParams db
  le : ∀ netParams, c.netParams = some netParams →
    int64 c.genesisBlockNumber ≤ c.present netParams db

theorem mem_saveData {P : Int → Prop} {collected : Collected} {r : DARow}
    (hb : ∀ k, P k → -2 ^ 63 ≤ k ∧ k < 2 ^ 63) (hd : collected.Numbers P)
    (h : r ∈ (saveData f env s collected).db.das.rows) : r ∈ s.db.das.rows ∨ P r.blockNum := by
  refine (saveData_extended.of_mem_rows h).imp_right fun hr => ?_
  obtain ⟨da, ha, he⟩ := mem_map.mp hr
  obtain ⟨fd, hf, rfl⟩ := mem_map.mp (Collected.accepted_subset ha)
  obtain ⟨k, hk, hn⟩ := hd fd hf
  have hx : int64 (collected.heap fd).blockNum = r.blockNum := (Prod.mk.inj (Prod.mk.inj he).right).left
  rwa [← hx, hn, int64_uint64 (hb k hk).left (hb k hk).right]

theorem saveData_rest {collected : Collected} :
    (saveData f env s collected).db = { s.db with das := (saveData f env s collected).db.das } := by
  unfold Bitcoin.saveData
  dsimp only
  split <;> rfl

-- What a round adds to the database: a height, and rows of the blocks up to there.
structure Adds (c : Config) (netParams : Params) (db db' : Database) : Prop where
  syncInfo : db'.syncInfo = db.syncInfo
  le : c.present netParams db ≤ c.present netParams db'
  das : ∀ r ∈ db'.das.rows, r ∈ db.das.rows ∨
    (c.present netParams db < r.blockNum ∧ r.blockNum ≤ c.present netParams db')

theorem doBitcoinSync_adds {netParams : Params} {err : Option GoError}
    (hc : c.netParams = some netParams) (h : doBitcoinSync c env s = .ok (s', err)) :
    Adds c netParams s.db s'.db := by
  unfold doBitcoinSync doBitcoinSyncWith at h
  split at h
  case isTrue =>
    cases h
    exact ⟨rfl, le_rfl, fun _ => .inl⟩
  case isFalse =>
    dsimp only at h
    rw [hc] at h
    obtain ⟨⟨db, result⟩, hr, h⟩ := Loop.bind_eq_ok h
    have ha := WorkerService.runSync_advances hr
    have hx : db = { s.db with baseChain := db.baseChain } := ha.rest
    have hi : db.syncInfo = s.db.syncInfo := by rw [hx]
    have hd : db.das = s.db.das := by rw [hx]
    dsimp only at h
    split at h
    case h_1 =>
      cases h
      exact ⟨hi, ha.le, fun r hr => .inl (hd ▸ hr)⟩
    case h_2 cache =>
      obtain ⟨collected, hcol, h⟩ := Loop.bind_eq_ok h
      cases h
      have hn := collectAll_numbers (P := fun k => c.present netParams s.db < k ∧
        k ≤ c.present netParams db) (by simp [Collected.Numbers]) (ha.briefs cache rfl) hcol
      have hl : -2 ^ 63 ≤ c.present netParams s.db := WorkerService.present_bounds.left
      have hu : c.present netParams db < 2 ^ 63 := WorkerService.present_bounds.right
      rw [saveData_rest]
      refine ⟨hi, ha.le, fun r hr => ?_⟩
      exact (mem_saveData (fun k hk => by omega) hn hr).imp_left (hd ▸ ·)

theorem Inv.adds {netParams : Params} {db db' : Database} (i : Inv c db)
    (hc : c.netParams = some netParams) (h : Adds c netParams db db') : Inv c db' where
  syncInfo := h.syncInfo.trans i.syncInfo
  das r hr := by
    refine ⟨netParams, hc, ?_⟩
    cases h.das r hr
    case inl hr =>
      obtain ⟨netParams', hc', hg, hp⟩ := i.das r hr
      cases Option.some.inj (hc.symm.trans hc')
      exact ⟨hg, hp.trans h.le⟩
    case inr hr => exact ⟨(i.le netParams hc).trans_lt hr.left, hr.right⟩
  le netParams' hc' := by
    cases Option.some.inj (hc.symm.trans hc')
    exact (i.le netParams hc).trans h.le

theorem Inv.doBitcoinSync {err : Option GoError} (i : Inv c s.db)
    (h : doBitcoinSync c env s = .ok (s', err)) : Inv c s'.db := by
  cases hc : c.netParams
  case some netParams => exact i.adds hc (doBitcoinSync_adds hc h)
  case none =>
    rw [Bitcoin.doBitcoinSync, doBitcoinSyncWith, hc] at h
    split at h <;> cases h <;> exact i

theorem inv_of_reachable {pool : FilePool} {heap : Heap}
    (r : (machine c pool heap).Reachable anyStep s) : Inv c s.db := by
  refine r.invariant (I := fun s => Inv c s.db) ?init fun s e s' i _ h => ?step
  case init =>
    exact ⟨rfl, by simp [machine, Database.empty, Table.rows], fun _ _ => le_rfl⟩
  case step =>
    cases e
    case doBitcoinSync env =>
      obtain ⟨x, hx, he⟩ := Loop.map_eq_ok h
      exact he ▸ i.doBitcoinSync hx
    all_goals
      cases h
      exact i

end Invariant

section Startup

variable {c : Config} {db : Database}

-- The row in which the progress on the configured chain is recorded.
def recorded (c : Config) (db : Database) : Option BaseChainRow :=
  c.netParams.bind fun netParams =>
    db.baseChain.find? (newWorkerService .quiet c netParams db.das).matchesChain

-- The data of all blocks up to the recorded height survives the start of the node.
def Keeps (c : Config) (db : Database) : Prop :=
  ∀ bc, recorded c db = some bc → ∀ r ∈ db.das.rows, r.blockNum ≤ bc.currentHeight.toNat →
    r ∈ (startup db).das.rows

-- The number of the last block is only recorded for the other chain, so that it is read as zero.
theorem Inv.mem_startup (i : Inv c db) {r : DARow} :
    r ∈ (startup db).das.rows ↔ r ∈ db.das.rows ∧ r.blockNum ≤ 0 := by
  have hn : db.getLastBlockNum = 0 := by simp [Database.getLastBlockNum, i.syncInfo]
  simp [startup, hn, Database.cleanUpDB, Table.rows_delete]

theorem Inv.exists_recorded (i : Inv c db) {r : DARow} (hr : r ∈ db.das.rows) :
    ∃ bc, recorded c db = some bc ∧ r.blockNum ≤ bc.currentHeight.toNat := by
  have ⟨netParams, hc, hg, hp⟩ := i.das r hr
  unfold Config.present WorkerService.present at hp
  cases hb : db.baseChain.find? (newWorkerService .quiet c netParams db.das).matchesChain
  case none =>
    rw [hb] at hp
    exact absurd (hg.trans_le hp) (lt_irrefl _)
  case some bc =>
    rw [hb] at hp
    exact ⟨bc, by simp [recorded, hc, hb], hp.trans (int64_le_toNat _)⟩

theorem Inv.keeps_iff (i : Inv c db) : Keeps c db ↔ ∀ r ∈ db.das.rows, r.blockNum ≤ 0 := by
  constructor
  case mp =>
    intro h r hr
    have ⟨bc, hb, hh⟩ := i.exists_recorded hr
    exact i.mem_startup.mp (h bc hb r hr hh) |>.right
  case mpr => exact fun h bc _ r hr _ => i.mem_startup.mpr ⟨hr, h r hr⟩

theorem Inv.nonpos_iff (i : Inv c db) (hg : c.genesisBlockNumber.toNat < 2 ^ 63) :
    (∀ r ∈ db.das.rows, r.blockNum ≤ 0) ↔ db.das.rows = [] := by
  rw [eq_nil_iff_forall_not_mem]
  refine forall₂_congr fun r hr => iff_false_intro fun hn => ?_
  have ⟨_, _, hr, _⟩ := i.das r hr
  have := int64_nonneg hg
  omega

end Startup

def committed : DA :=
  { DA.zero with commitment := { Digest.zero with x := ⟨[1, 0, 0, 0], rfl⟩ } }

-- Every block consists of a transaction that inscribes the commitment.
def inscribing : Env where
  now := .zero
  pool := {
    heap _ := committed
    now := .zero
    initMultiAdaptiveSdk := none
    verifyCommitWithProof _ _ _ := none
    writeError _ := none
  }
  keccak256 _ := .zero
  setBytes _ := (committed.commitment, none)
  getBlockCount := .ok 1
  getBlockHash _ := .ok .zero
  getBlockVerbose _ := .ok [[]]
  getBlockHeader _ := .ok ()
  parseFiles _ := .ok (.ok [⟨customContentType, [], []⟩])
  parseTransaction _ := .ok (.ok [⟨customContentType, [], []⟩])
  getTransactionSignature _ := .ok []
  firstOrCreate := none
  saveBlocks := none
  saveTransactions := none
  saveFiles := none
  updateChain := none

def regtest : Config where
  bitcoinMagicNumber := "dab5bffa"
  bitcoinNet := .ascii "regtest"
  genesisBlockNumber := 0

def emptyPool : FilePool :=
  .new DefaultConfig "" "b"

def filledPool : FilePool :=
  { emptyPool with all := emptyPool.all.add 0 committed }

-- If the first block has a sensible number, the start of the node removes all data.
theorem keeps_iff_nonpos (c : Config) (pool : FilePool) (heap : Heap) (s : State)
    (r : (machine c pool heap).Reachable anyStep s) :
    (Keeps c s.db ↔ ∀ r ∈ s.db.das.rows, r.blockNum ≤ 0) ∧
    (c.genesisBlockNumber.toNat < 2 ^ 63 → (Keeps c s.db ↔ s.db.das.rows = [])) := by
  have i := inv_of_reachable r
  exact ⟨i.keeps_iff, fun hg => i.keeps_iff.trans (i.nonpos_iff hg)⟩

-- A round in which the data is not known leaves nothing to be removed.
theorem keeps_unknown : ∃ s,
    (machine regtest emptyPool fun _ => committed).run
      (machine regtest emptyPool fun _ => committed).init [.doBitcoinSync inscribing] = .ok s ∧
    (recorded regtest s.db).map BaseChainRow.currentHeight = some 1 ∧ Keeps regtest s.db := by
  have ⟨s, h, hh, hd⟩ : ∃ s,
      (machine regtest emptyPool fun _ => committed).run
        (machine regtest emptyPool fun _ => committed).init [.doBitcoinSync inscribing] = .ok s ∧
      (recorded regtest s.db).map BaseChainRow.currentHeight = some 1 ∧ s.db.das.rows = [] :=
    ⟨_, rfl, rfl, rfl⟩
  have r : (machine regtest emptyPool fun _ => committed).Reachable anyStep s :=
    .run .init (fun _ _ _ => trivial) h
  exact ⟨s, h, hh, keeps_iff_nonpos _ _ _ s r |>.right (by decide) |>.mpr hd⟩

-- The data of the block at the recorded height is removed.
theorem not_keeps_inscribed :
    ¬∀ (c : Config) (pool : FilePool) (heap : Heap) (s : State),
      (machine c pool heap).Reachable anyStep s → Keeps c s.db := by
  intro h
  have ⟨s, hs, hh, hd, hc⟩ : ∃ s,
      (machine regtest filledPool fun _ => committed).run
        (machine regtest filledPool fun _ => committed).init [.doBitcoinSync inscribing] = .ok s ∧
      (∃ bc, recorded regtest s.db = some bc ∧ bc.currentHeight = 1) ∧
      s.db.das.rows.map DARow.blockNum = [1] ∧ (startup s.db).das.rows = [] :=
    ⟨_, rfl, ⟨_, rfl, rfl⟩, rfl, rfl⟩
  have k := h _ _ _ s (.run .init (fun _ _ _ => trivial) hs)
  have ⟨bc, hb, hn⟩ := hh
  have ⟨r, hr, he⟩ : ∃ r ∈ s.db.das.rows, r.blockNum = 1 := mem_map.mp (by simp [hd])
  have hm := k bc hb r hr (by simp [he, hn])
  simp [hc] at hm

end Sync.Bitcoin
