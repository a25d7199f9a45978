import DomiconExec.Pool.Theorems.Slots
import DomiconExec.Sync.Theorems.Inscriptions

namespace Sync.Bitcoin

open List Db Sql FilePool

section Collect

variable {w : World} {chain : Chain} {env : Env} {das : Table DARow} {s : Collected}
variable {t : Lookup} {heap : Heap} {l : List Inscription} {x : Inscription} {fd : Ref}

namespace World

theorem found_cons_none (h : w.find t x = none) : w.found t (x :: l) = w.found t l := by
  rw [found, filterMap_cons, h]
  rfl

theorem found_cons_some (h : w.find t x = some fd) :
    w.found t (x :: l) = (x, fd) :: w.found t l := by
  rw [found, filterMap_cons, h]
  rfl

theorem found_congr {t' : Lookup} (h : ∀ x ∈ l, w.find t' x = w.find t x) :
    w.found t' l = w.found t l :=
  filterMap_congr fun x hx => by rw [h x hx]

theorem mem_found {y : Inscription × Ref} :
    y ∈ w.found t l ↔ y.fst ∈ l ∧ w.find t y.fst = some y.snd := by
  simp only [found, mem_filterMap, Option.map_eq_some_iff]
  constructor
  case mp =>
    rintro ⟨x, hx, fd, hf, rfl⟩
    exact ⟨hx, hf⟩
  case mpr =>
    rintro ⟨hx, hf⟩
    exact ⟨y.fst, hx, y.snd, hf, rfl⟩

end World

-- Nothing that the loop over the inscriptions does has an effect on a later turn: data is found by
-- its own commitment, no transaction hash is that of a commitment, and no data is found twice.
structure Clean (w : World) (t : Lookup) (heap : Heap) (l : List Inscription) : Prop where
  own : ∀ y ∈ w.found t l, (heap y.snd).commitment.hash = w.commitHash y.fst
  apart : ∀ y ∈ w.found t l, ∀ x ∈ l, w.commitHash x ≠ y.fst.txHash
  data : (w.found t l).map Prod.snd |>.Nodup

def stamp (now : GoTime) (nonce : UInt64) (x : Inscription) (da : DA) : DA :=
  { da with
    nonce := nonce
    signerAddr := x.brief.addresses
    blockNum := uint64 x.brief.blockNum
    signData := x.brief.signatures.map Hex.hex2Bytes
    txHash := x.txHash
    receiveAt := now
  }

def stamps (now : GoTime) (heap : Heap) : UInt64 → List (Inscription × Ref) → List DA
  | _, []         => []
  | nonce, y :: l => stamp now (nonce + 1) y.fst (heap y.snd) :: stamps now heap (nonce + 1) l

theorem stamps_congr {now : GoTime} {heap' : Heap} {nonce : UInt64} {l : List (Inscription × Ref)}
    (h : ∀ y ∈ l, heap' y.snd = heap y.snd) : stamps now heap' nonce l = stamps now heap nonce l := by
  induction l generalizing nonce
  case nil => rfl
  case cons y l hi =>
    obtain ⟨hy, hl⟩ := forall_mem_cons.mp h
    rw [stamps, hy, hi hl, stamps]

theorem collectData_none (h : w.find s.pool.all x = none) :
    collectData (w.env chain env) das x.tx s x.brief = .ok s := by
  have hg : s.pool.all.get ((w.env chain env).setBytes x.brief.commitment).fst.hash = none := h
  rw [collectData, getDAByCommit, hg]

theorem collectData_some (h : w.find s.pool.all x = some fd) : ∃ s',
    collectData (w.env chain env) das x.tx s x.brief = .ok s' ∧
      s'.stateNonce = s.stateNonce + 1 ∧ s'.daDatas = s.daDatas ++ [fd] ∧
      s'.heap = Function.update s.heap fd (stamp env.now (s.stateNonce + 1) x (s.heap fd)) ∧
      s'.pool.all = s.pool.all.enter s'.heap s.pool.config.globalSlots fd ∧
      s'.pool.config = s.pool.config := by
  have hg : s.pool.all.get ((w.env chain env).setBytes x.brief.commitment).fst.hash = some fd := h
  let heap := Function.update s.heap fd (stamp env.now (s.stateNonce + 1) x (s.heap fd))
  obtain ⟨r, hr, ha, _⟩ := add_ok { (w.env chain env).pool with heap } s.pool [fd] true
  refine ⟨⟨s.stateNonce + 1, r.pool, heap, s.daDatas ++ [fd]⟩, ?_, rfl, rfl, rfl, ha,
    (add_kept hr).left⟩
  rw [collectData, getDAByCommit, hg]
  exact Loop.bind_of_eq_ok hr

-- What the loop over the inscriptions does.
structure Collects (w : World) (now : GoTime) (s : Collected) (l : List Inscription)
    (s' : Collected) : Prop where
  daDatas : s'.daDatas = s.daDatas ++ (w.found s.pool.all l).map Prod.snd
  stamped : (w.found s.pool.all l).map (s'.heap ·.snd) =
    stamps now s.heap s.stateNonce (w.found s.pool.all l)
  heap : ∀ fd ∉ (w.found s.pool.all l).map Prod.snd, s'.heap fd = s.heap fd

theorem Clean.mono {l' : List Inscription} (c : Clean w t heap l) (hw : w.found t l' = w.found t l)
    (hs : ∀ x ∈ l', x ∈ l) : Clean w t heap l' := by
  refine ⟨?own, ?apart, ?data⟩ <;> rw [hw]
  case own   => exact c.own
  case apart => exact fun y hy x hx => c.apart y hy x (hs x hx)
  case data  => exact c.data

theorem Clean.get_enter {limit : UInt64} (c : Clean w t heap (x :: l)) (hf : w.find t x = some fd)
    {heap' : Heap} (ht : (heap' fd).txHash = x.txHash)
    (hc : (heap' fd).commitment = (heap fd).commitment) {k : Hash} (hk : k ≠ x.txHash) :
    (t.enter heap' limit fd).get k = t.get k := by
  have ho := c.own (x, fd) <| World.mem_found.mpr ⟨mem_cons_self, hf⟩
  apply Lookup.enter_get_of_ne
  case hk => rwa [ht]
  case hc => rwa [hc, ho]

theorem Clean.turn {t' : Lookup} {heap' : Heap} (c : Clean w t heap (x :: l))
    (hf : w.find t x = some fd) (hl : ∀ k, k ≠ x.txHash → t'.get k = t.get k)
    (hc : ∀ fd, (heap' fd).commitment = (heap fd).commitment) :
    w.found t' l = w.found t l ∧ Clean w t' heap' l := by
  have he := @World.found_cons_some w t l x fd hf
  have hm : ∀ y ∈ w.found t l, y ∈ w.found t (x :: l) := fun y hy => he ▸ mem_cons_of_mem _ hy
  have ha := c.apart (x, fd) <| he ▸ List.mem_cons_self
  have hw : w.found t' l = w.found t l :=
    World.found_congr fun y hy => hl _ <| ha y <| mem_cons_of_mem _ hy
  refine ⟨hw, ?own, ?apart, ?data⟩ <;> rw [hw]
  case own =>
    intro y hy
    rw [hc]
    exact c.own y (hm y hy)
  case apart => exact fun y hy z hz => c.apart y (hm y hy) z (mem_cons_of_mem _ hz)
  case data  => exact nodup_cons.mp (he ▸ c.data) |>.right

theorem Clean.collects (c : Clean w s.pool.all s.heap l) : ∃ s',
    l.foldlM (fun s x => collectData (w.env chain env) das x.tx s x.brief) s = .ok s' ∧
      Collects w env.now s l s' := by
  induction l generalizing s
  case nil => exact ⟨s, rfl, by simp [World.found], rfl, fun _ _ => rfl⟩
  case cons x l hi =>
    rw [foldlM_cons]
    cases hf : w.find s.pool.all x
    case none =>
      have he := @World.found_cons_none w s.pool.all l x hf
      obtain ⟨s', hs, h⟩ := hi <| c.mono he.symm fun y => mem_cons_of_mem x
      rw [Loop.bind_of_eq_ok (collectData_none hf)]
      exact ⟨s', hs, ⟨he ▸ h.daDatas, he ▸ h.stamped, he ▸ h.heap⟩⟩
    case some fd =>
      have he := @World.found_cons_some w s.pool.all l x fd hf
      obtain ⟨s₁, h₁, hn, hd, hh, hp, _⟩ := @collectData_some w chain env das s x fd hf
      have hfd : s₁.heap fd = stamp env.now (s.stateNonce + 1) x (s.heap fd) := by
        rw [hh, Function.update_self]
      have hne : ∀ g, g ≠ fd → s₁.heap g = s.heap g := fun g hg => by
        rw [hh, Function.update_of_ne hg]
      have hc : ∀ g, (s₁.heap g).commitment = (s.heap g).commitment := by
        intro g
        by_cases hg : g = fd
        case pos => rw [hg, hfd, stamp]
        case neg => rw [hne g hg]
      have hl : ∀ k, k ≠ x.txHash → s₁.pool.all.get k = s.pool.all.get k := fun k hk =>
        hp ▸ c.get_enter hf (by rw [hfd, stamp]) (hc fd) hk
      obtain ⟨hw, c₁⟩ := c.turn hf hl hc
      obtain ⟨s', hs, h⟩ := hi c₁
      have hx : fd ∉ (w.found s.pool.all l).map Prod.snd := by
        have hd := c.data
        rw [he, map_cons] at hd
        exact nodup_cons.mp hd |>.left
      rw [Loop.bind_of_eq_ok h₁]
      refine ⟨s', hs, ?daDatas, ?stamped, ?heap⟩ <;> rw [he]
      case daDatas => rw [h.daDatas, hd, hw, append_assoc, map_cons, singleton_append]
      case stamped =>
        have hs := h.stamped
        rw [hw, hn] at hs
        rw [map_cons, stamps, hs, h.heap fd (hw ▸ hx), hfd]
        refine congrArg _ (stamps_congr fun y hy => hne _ fun hg => hx ?_)
        exact hg ▸ mem_map_of_mem hy
      case heap =>
        intro g hg
        rw [map_cons, mem_cons, not_or] at hg
        rw [h.heap g (hw ▸ hg.right), hne g hg.left]

end Collect

section Save

variable {now : GoTime} {heap : Heap} {nonce : UInt64} {l : List (Inscription × Ref)}

def expected (heap : Heap) (y : Inscription × Ref) : GoString × Int × GoString :=
  (y.fst.txHash.hex, y.fst.brief.blockNum, Hex.bytes2Hex (heap y.snd).commitment.marshal)

def nonces : UInt64 → Nat → List Int
  | _, 0         => []
  | nonce, n + 1 => int64 (nonce + 1) :: nonces (nonce + 1) n

theorem stamps_nonce :
    (stamps now heap nonce l).map (int64 ·.nonce) = nonces nonce l.length := by
  induction l generalizing nonce
  case nil         => rfl
  case cons y l hi => exact congrArg _ hi

theorem stamps_map {α : Type} {g : DA → α} {g' : Inscription × Ref → α}
    (h : ∀ y ∈ l, ∀ nonce, g (stamp now nonce y.fst (heap y.snd)) = g' y) :
    (stamps now heap nonce l).map g = l.map g' := by
  induction l generalizing nonce
  case nil => rfl
  case cons y l hi =>
    obtain ⟨hy, hl⟩ := forall_mem_cons.mp h
    rw [stamps, map_cons, hy, hi hl, map_cons]

theorem saveData_stamps {f : Faults} {env : Env} {s : State} {collected : Collected}
    (hc : collected.daDatas.map collected.heap = stamps now heap nonce l)
    (hb : ∀ y ∈ l, -2 ^ 63 ≤ y.fst.brief.blockNum ∧ y.fst.brief.blockNum < 2 ^ 63)
    (hf : Table.Fresh (s.db.das.keys DARow.key) (l.map (·.fst.txHash.hex)))
    (hs : l ≠ [] → f.saveBatchCommitment = none) :
    Extended s.db.das (l.map (expected heap)) (nonces nonce l.length)
      (saveData f env s collected).db.das := by
  have he : (stamps now heap nonce l).map gist = l.map (expected heap) := by
    refine stamps_map fun y hy nonce => ?_
    rw [expected, gist, stamp, int64_uint64 (hb y hy).left (hb y hy).right]
  have hk : (stamps now heap nonce l).map (·.txHash.hex) = l.map (·.fst.txHash.hex) :=
    stamps_map fun _ _ _ => rfl
  have ha : collected.accepted f s.db.das = stamps now heap nonce l := by
    rw [Collected.accepted, hc, hk]
    split
    case isTrue  => rfl
    case isFalse h =>
      cases l
      case nil    => rfl
      case cons y l => exact absurd ⟨hs (cons_ne_nil y l), hf⟩ h
  rw [← he, ← stamps_nonce, ← ha]
  exact saveData_extended

end Save

section Round

variable {w : World} {chain : Chain} {f : Faults} {c : Config} {env : Env} {netParams : Params}
variable {s s' : State} {tip : Int64}

theorem newWorkerService_present {das : Table DARow} {db : Database} :
    (newWorkerService f c netParams das).present db = c.present netParams db :=
  rfl

-- No resolved inscription is lost because its transaction cannot be read.
theorem World.found_reads {t : Lookup} {l : List (Int × TxID)}
    (h : ∀ y ∈ w.found t (l.flatMap w.inscriptionsOf), env.reads y.fst.tx) :
    w.found t ((l.filter (env.reads ·.snd)).flatMap w.inscriptionsOf) =
      w.found t (l.flatMap w.inscriptionsOf) := by
  induction l
  case nil => rfl
  case cons x l hi =>
    rw [flatMap_cons, found, filterMap_append, forall_mem_append] at h
    obtain ⟨hx, hl⟩ := h
    rw [flatMap_cons, found, found, filterMap_append, filter_cons]
    cases hr : env.reads x.snd
    case true =>
      rw [if_pos rfl, flatMap_cons, filterMap_append]
      exact congrArg _ (hi hl)
    case false =>
      have hn : w.found t (w.inscriptionsOf x) = [] := by
        refine eq_nil_iff_forall_not_mem.mpr fun y hy => ?_
        have hx := hx y hy
        rw [(mem_inscriptionsOf (mem_found.mp hy).left).left, hr] at hx
        contradiction
      rw [if_neg Bool.false_ne_true]
      exact (hi hl).trans (congrArg (· ++ _) hn.symm)

-- The condition under which a round stores all that it finds up to the given height.
structure Storable (w : World) (chain : Chain) (present tip : Int) (s : State) : Prop where
  distinct : ((w.transactions chain present tip).map Prod.snd).Nodup
  clean : Clean w s.pool.all s.heap (w.inscribed chain present tip)
  fresh : Table.Fresh (s.db.das.keys DARow.key)
    ((w.found s.pool.all (w.inscribed chain present tip)).map (·.fst.txHash.hex))

-- What a round does that ends at the height `tip` and stores the data `l`.
structure Stores (w : World) (present : Database → Int) (tip : Int) (nonce : UInt64)
    (l : List (Inscription × Ref)) (s s' : State) : Prop where
  present : present s'.db = tip
  das : Extended s.db.das (l.map (expected s.heap)) (nonces nonce l.length) s'.db.das
  forced : s'.forced = false

theorem Config.present_congr {db db' : Database} (h : db'.baseChain = db.baseChain) :
    c.present netParams db' = c.present netParams db := by
  unfold Config.present WorkerService.present
  rw [h]
  rfl

theorem Collects.map_heap {now : GoTime} {s s' : Collected} {l : List Inscription}
    (h : Collects w now s l s') (hd : s.daDatas = []) :
    s'.daDatas.map s'.heap = stamps now s.heap s.stateNonce (w.found s.pool.all l) := by
  rw [h.daDatas, hd, nil_append, map_map]
  exact h.stamped

-- What a round collects that gets to record a height.
theorem WorkerService.Records.round {err : Option GoError} (hf : s.forced = false)
    (hc : c.netParams = some netParams)
    (r : (newWorkerService f c netParams s.db.das).Records (w.env chain env) s.db tip)
    (h : doBitcoinSyncWith f c (w.env chain env) s = .ok (s', err)) :
    ∃ baseChain collected,
      (WorkerService.inscriptions (WorkerService.briefsOf w env.reads .empty
        (w.transactions chain (c.present netParams s.db) tip.toInt))).foldlM
          (fun t x => collectData (w.env chain env) s.db.das x.tx t x.brief)
          ⟨(newWorkerService f c netParams s.db.das).stateNonce, s.pool, s.heap, []⟩ =
            .ok collected ∧
      c.present netParams { s.db with baseChain } = tip.toInt ∧ err = none ∧
      s' = { saveData f (w.env chain env)
        { s with db := { s.db with baseChain }, forced := true } collected with forced := false } := by
  obtain ⟨blocks, hb⟩ := r.getBlocks
  obtain ⟨baseChain, hr, hp⟩ := r.runSync hb
  cases WorkerService.getBlocks_env hb
  rw [doBitcoinSyncWith, hf, hc] at h
  obtain ⟨x, hx, h⟩ := Loop.bind_eq_ok h
  obtain ⟨_, _, hx⟩ := Loop.bind_eq_ok (hr.symm.trans hx)
  obtain ⟨cache, hg, hx⟩ := Loop.bind_eq_ok hx
  cases hx
  cases WorkerService.generateBrief_env hg
  obtain ⟨collected, hcol, h⟩ := Loop.bind_eq_ok h
  cases h
  rw [collectAll_eq] at hcol
  exact ⟨baseChain, collected, hcol, hp, rfl, rfl⟩

theorem Storable.round {err : Option GoError}
    (st : Storable w chain (c.present netParams s.db) tip.toInt s)
    (hf : s.forced = false) (hc : c.netParams = some netParams)
    (r : (newWorkerService f c netParams s.db.das).Records (w.env chain env) s.db tip)
    (hr : ∀ y ∈ w.found s.pool.all (w.inscribed chain (c.present netParams s.db) tip.toInt),
      env.reads y.fst.tx)
    (hs : w.found s.pool.all (w.inscribed chain (c.present netParams s.db) tip.toInt) ≠ [] →
      f.saveBatchCommitment = none)
    (h : doBitcoinSyncWith f c (w.env chain env) s = .ok (s', err)) :
    Stores w (c.present netParams) tip.toInt
      (newWorkerService f c netParams s.db.das).stateNonce
      (w.found s.pool.all (w.inscribed chain (c.present netParams s.db) tip.toInt)) s s' := by
  obtain ⟨baseChain, collected, hcol, hp, rfl, rfl⟩ := r.round hf hc h
  rw [WorkerService.inscriptions_briefsOf .empty st.distinct fun x _ => not_mem_nil] at hcol
  have hw : _ = w.found s.pool.all (w.inscribed chain (c.present netParams s.db) tip.toInt) :=
    World.found_reads hr
  have cl := st.clean.mono hw fun x hx => by
    obtain ⟨y, hy, hx⟩ := mem_flatMap.mp hx
    exact mem_flatMap.mpr ⟨y, mem_of_mem_filter hy, hx⟩
  obtain ⟨collected', hcol', hcs⟩ := @Clean.collects w chain env s.db.das
    ⟨(newWorkerService f c netParams s.db.das).stateNonce, s.pool, s.heap, []⟩ _ cl
  cases Except.ok.inj (hcol.symm.trans hcol')
  have hst := hcs.map_heap rfl
  rw [hw] at hst
  refine ⟨?present, ?das, rfl⟩
  case present => exact (Config.present_congr (by rw [saveData_rest])).trans hp
  case das =>
    refine saveData_stamps hst (fun y hy => ?_) st.fresh hs
    have hm := World.mem_inscribed (World.mem_found.mp hy).left
    have hb : -2 ^ 63 ≤ c.present netParams s.db := WorkerService.present_bounds.left
    have ht := tip.toInt_lt
    omega

theorem doBitcoinSyncWith_idle {err : Option GoError} (h : s.forced = true ∨ c.netParams = none)
    (hs : doBitcoinSyncWith f c env s = .ok (s', err)) : s'.db = s.db := by
  cases hf : s.forced
  case true =>
    rw [doBitcoinSyncWith, hf] at hs
    cases hs
    rfl
  case false =>
    have hc := h.resolve_left (Bool.eq_false_iff.mp hf)
    rw [doBitcoinSyncWith, hf, hc] at hs
    cases hs
    rfl

end Round

section Rows

variable {f : Faults} {c : Config} {env : Env} {netParams : Params} {s s' : State}
variable {ws : WorkerService} {db : Database}

-- What every round does: the recorded height is the one that `RunSync` leaves, and no row is
-- removed.
structure Grows (baseChain : List BaseChainRow) (db db' : Database) : Prop where
  baseChain : db'.baseChain = baseChain
  syncInfo : db'.syncInfo = db.syncInfo
  rows : ∀ r ∈ db.das.rows, r ∈ db'.das.rows

theorem runSync_grows {x : Database × Except GoError BtcTxSortCache} (h : ws.runSync env db = .ok x)
    : Grows x.fst.baseChain db x.fst := by
  have hr := (WorkerService.runSync_advances h).rest
  refine ⟨rfl, ?syncInfo, fun r h => ?rows⟩
  case syncInfo => rw [hr]
  case rows =>
    rw [hr]
    exact h

theorem doBitcoinSyncWith_grows {err : Option GoError} (hf : s.forced = false)
    (hc : c.netParams = some netParams) (h : doBitcoinSyncWith f c env s = .ok (s', err)) :
    ∃ x, (newWorkerService f c netParams s.db.das).runSync env s.db = .ok x ∧
      Grows x.fst.baseChain s.db s'.db := by
  rw [doBitcoinSyncWith, hf, hc] at h
  obtain ⟨x, hx, h⟩ := Loop.bind_eq_ok h
  have hg := runSync_grows hx
  refine ⟨x, hx, ?_⟩
  dsimp only at h
  split at h
  case h_1 =>
    cases h
    exact hg
  case h_2 cache hr =>
    obtain ⟨collected, _, h⟩ := Loop.bind_eq_ok h
    cases h
    refine ⟨?_, ?_, fun r hr => saveData_extended.mem_rows (hg.rows r hr)⟩ <;> rw [saveData_rest]
    exact hg.syncInfo

theorem openDatabase_grows : Grows (openDatabase env ws db).baseChain db (openDatabase env ws db) ∧
    ws.present (openDatabase env ws db) = ws.present db := by
  unfold openDatabase
  split
  case h_1 =>
    obtain ⟨baseChain, he, hp⟩ := ws.getPresentBlockHeight_eq env db
    rw [he]
    exact ⟨⟨rfl, rfl, fun _ hr => hr⟩, hp⟩
  case h_2 => exact ⟨⟨rfl, rfl, fun _ hr => hr⟩, rfl⟩

end Rows

section Quiet

variable {w : World} {chain : Chain} {c : Config} {env : Env} {netParams : Params}
variable {ws : WorkerService} {db : Database} {s s' : State} {tip : Int64}

theorem Env.Quiet.getBlocks (q : env.Quiet tip) (first last : Int) :
    ∃ blocks, WorkerService.getBlocks (w.env chain env) first last = .ok blocks := by
  refine (Loop.foldlM_ok_iff fun i blocks => iff_of_true ?_ trivial).mpr fun _ _ => trivial
  obtain ⟨_, hh⟩ := Loop.exists_of_isOk (q.getBlockHash (first + i))
  obtain ⟨_, hb⟩ := Loop.exists_of_isOk (q.getBlockVerbose (chain (first + i)))
  obtain ⟨_, hd⟩ := Loop.exists_of_isOk (q.getBlockHeader (chain (first + i)))
  refine ⟨blocks ++ [(first + i, w.block (chain (first + i)))], ?_⟩
  simp only [World.env, hh, hb, hd, Except.map, Except.mapError, bind, Except.bind]
  rfl

theorem Env.Quiet.records (q : env.Quiet tip) (h : ws.present db < tip.toInt) :
    ws.Records (w.env chain env) db tip where
  getBlockCount := q.getBlockCount
  firstOrCreate := q.firstOrCreate
  lt := h
  getBlocks := q.getBlocks _ _
  saveBlocks := q.saveBlocks
  saveTransactions := q.saveTransactions
  saveFiles := q.saveFiles
  updateChain := q.updateChain

theorem Env.Quiet.reads (q : env.Quiet tip) (tx : TxID) : env.reads tx :=
  Bool.and_eq_true_iff.mpr ⟨q.parseTransaction tx, q.getTransactionSignature tx⟩

theorem WorkerService.runSync_of_le (hc : env.getBlockCount = .ok tip)
    (hf : env.firstOrCreate = none) (h : tip.toInt ≤ ws.present db) : ∃ baseChain,
      ws.runSync env db = .ok ({ db with baseChain }, .ok .empty) ∧
      ws.present { db with baseChain } = ws.present db := by
  obtain ⟨baseChain, he, hp⟩ := ws.getPresentBlockHeight_eq env db
  refine ⟨baseChain, ?_, hp⟩
  rw [runSync, hc, hf]
  dsimp only
  rw [he]
  exact if_pos h

-- A round without new blocks.
theorem Env.Quiet.round_of_le (q : env.Quiet tip) (w : World) (chain : Chain)
    (hf : s.forced = false) (hc : c.netParams = some netParams)
    (hl : tip.toInt ≤ c.present netParams s.db) : ∃ baseChain,
      doBitcoinSync c (w.env chain env) s =
        .ok ({ s with db := { s.db with baseChain }, forced := false }, none) ∧
      c.present netParams { s.db with baseChain } = c.present netParams s.db := by
  obtain ⟨baseChain, hr, hp⟩ := @WorkerService.runSync_of_le (w.env chain env)
    (newWorkerService .quiet c netParams s.db.das) s.db tip q.getBlockCount q.firstOrCreate hl
  refine ⟨baseChain, ?_, hp⟩
  rw [doBitcoinSync, doBitcoinSyncWith, hf, hc]
  exact Loop.bind_of_eq_ok hr

theorem Env.Quiet.round {err : Option GoError} (q : env.Quiet tip) (hf : s.forced = false)
    (hc : c.netParams = some netParams)
    (st : Storable w chain (c.present netParams s.db) tip.toInt s)
    (h : doBitcoinSync c (w.env chain env) s = .ok (s', err)) :
    Stores w (c.present netParams) (max (c.present netParams s.db) tip.toInt)
      (getMaxIDDANonce s.db.das)
      (w.found s.pool.all (w.inscribed chain (c.present netParams s.db) tip.toInt)) s s' := by
  by_cases hl : c.present netParams s.db < tip.toInt
  case pos =>
    rw [max_eq_right hl.le]
    exact st.round hf hc (q.records hl) (fun y _ => q.reads y.fst.tx) (fun _ => rfl) h
  case neg =>
    have hl := not_lt.mp hl
    obtain ⟨baseChain, hr, hp⟩ := q.round_of_le w chain hf hc hl
    cases hr.symm.trans h
    rw [max_eq_left hl, World.inscribed_eq_nil hl]
    exact ⟨hp, ⟨[], (append_nil _).symm, rfl, rfl⟩, rfl⟩

end Quiet

-- The blocks with the hash zero consist of a transaction that inscribes the commitment.
def sample : World where
  inscriptions _ := .ok [⟨customContentType, [], []⟩]
  signature _ := []
  block hash := if hash = .zero then [.ascii "01"] else []
  keccak256 := inscribing.keccak256
  setBytes := inscribing.setBytes

theorem inscribing_quiet : inscribing.Quiet 1 where
  getBlockCount := rfl
  getBlockHash _ := rfl
  getBlockVerbose _ := rfl
  getBlockHeader _ := rfl
  parseFiles _ := rfl
  parseTransaction _ := rfl
  getTransactionSignature _ := rfl
  firstOrCreate := rfl
  saveBlocks := rfl
  saveTransactions := rfl
  saveFiles := rfl
  updateChain := rfl

theorem storable_sample :
    Storable sample (fun _ => .zero) 0 1 ⟨.empty, filledPool, fun _ => committed, false⟩ where
  distinct := nodup_singleton _
  clean := {
    own := forall_mem_singleton.mpr rfl
    apart := forall_mem_singleton.mpr <| forall_mem_singleton.mpr (by decide)
    data := nodup_singleton _
  }
  fresh := ⟨nodup_singleton _, fun _ _ => not_mem_nil⟩

def reaching (tip : Int64) : Env :=
  { inscribing with getBlockCount := .ok tip }

theorem reaching_quiet {tip : Int64} : (reaching tip).Quiet tip :=
  { inscribing_quiet with getBlockCount := rfl }

def numberedData : Heap :=
  fun fd => { DA.zero with commitment := ⟨.zero, ⟨[fd.toUInt64 + 1, 0, 0, 0], rfl⟩⟩ }

-- There are two transactions, each of which inscribes a commitment of its own.
def paired : World where
  inscriptions tx := .ok [⟨customContentType, tx, []⟩]
  signature _ := []
  block hash := if hash = .fill 2 then [.ascii "02"] else [.ascii "01"]
  keccak256 := inscribing.keccak256
  setBytes body := ((numberedData (if body = GoString.ascii "01" then 0 else 1)).commitment, none)

def unsynchronized : State where
  db := .empty
  pool := { emptyPool with
    all := emptyPool.all.add 0 (numberedData 0) |>.add 1 (numberedData 1)
  }
  heap := numberedData
  forced := false

-- Another first block with the same transaction, and a second block.
def continued : Chain :=
  fun height => if height ≤ 1 then .fill 1 else .fill 2

theorem storable_paired : Storable paired continued 0 2 unsynchronized where
  distinct := by decide
  clean := {
    own := by decide +kernel
    apart := by decide +kernel
    data := by decide +kernel
  }
  fresh := by decide +kernel

end Sync.Bitcoin
