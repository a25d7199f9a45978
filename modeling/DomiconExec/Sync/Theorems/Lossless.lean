import DomiconExec.Sync.Theorems.Round

namespace Sync.Bitcoin

open List Db Sql FilePool Transition System

namespace Synced

variable {w : World} {chain : Chain} {c : Config} {s s' : Synced} {e : Event}

def Stored (db : Database) (x : Inscription) : Prop :=
  ∃ r ∈ db.das.rows, r.txHash = x.txHash.hex ∧ r.blockNum = x.brief.blockNum

def Returned (w : World) (chain : Chain) (c : Config) (db : Database) (x : Inscription) : Prop :=
  ∀ netParams env tip, c.netParams = some netParams → env.Quiet tip →
    x.brief.blockNum ≤ tip.toInt → ∃ db' cache,
      (newWorkerService .quiet c netParams db.das).runSync (w.env chain env) db = .ok (db', .ok cache) ∧
      x.brief ∈ (cache.get x.tx).getD []

def Lossless (w : World) (chain : Chain) (c : Config) (s : Synced) : Prop :=
  ∀ x ∈ s.passed, Stored s.state.db x ∨ Returned w chain c s.state.db x

def resolved (w : World) (chain : Chain) (c : Config) (netParams : Params) (tip : Int64)
    (s : State) : List (Inscription × Ref) :=
  w.found s.pool.all (w.inscribed chain (c.present netParams s.db) tip.toInt)

-- A round that records a height reads the transactions of the inscriptions that it resolves and can
-- store them.
def Completes (w : World) (chain : Chain) (c : Config) (s : State) (env : Env) (f : Faults) : Prop :=
  ∀ netParams tip, c.netParams = some netParams → s.forced = false →
    (newWorkerService f c netParams s.db.das).Records (w.env chain env) s.db tip →
    resolved w chain c netParams tip s ≠ [] →
      Storable w chain (c.present netParams s.db) tip.toInt s ∧
      (∀ y ∈ resolved w chain c netParams tip s, env.reads y.fst.tx) ∧
      f.saveBatchCommitment = none

-- The round resolves no inscription if it gets to record a height.
def Passes (w : World) (chain : Chain) (c : Config) (s : State) (env : Env) (f : Faults) : Prop :=
  ∀ netParams tip, c.netParams = some netParams → s.forced = false →
    (newWorkerService f c netParams s.db.das).Records (w.env chain env) s.db tip →
    resolved w chain c netParams tip s = []

def Restarts (f : Faults) (db : Database) : Prop :=
  f.cleanUpDB.isSome ∨ ∀ r ∈ db.das.rows, r.blockNum ≤ db.getLastBlockNum

def Guarded (w : World) (chain : Chain) (c : Config) (s : Synced) : Event → Prop
  | .round env f             => Completes w chain c s.state env f
  | .crash env f point _ _ =>
    Restarts f s.state.db ∧
      match point with
      | .begun | .opened   => True
      | .recorded | .saved => Passes w chain c s.state env f
  | .done | .pool _ _ => True

section Step

variable {env : Env} {f : Faults} {netParams : Params} {db : Database} {x : Inscription}
variable {t t' : State} {err : Option GoError}

theorem Stored.grows {baseChain : List BaseChainRow} {db' : Database} (h : Stored db x)
    (g : Grows baseChain db db') : Stored db' x := by
  obtain ⟨r, hr, h⟩ := h
  exact ⟨r, g.rows r hr, h⟩

theorem runSync_present {x : Database × Except GoError BtcTxSortCache}
    (h : (newWorkerService f c netParams db.das).runSync env db = .ok x) :
    (∃ tip, (newWorkerService f c netParams db.das).Records env db tip ∧
      c.present netParams x.fst = tip.toInt) ∨
    c.present netParams x.fst = c.present netParams db := by
  by_cases hr : ∃ tip, (newWorkerService f c netParams db.das).Records env db tip
  case pos =>
    obtain ⟨tip, r⟩ := hr
    obtain ⟨blocks, hb⟩ := r.getBlocks
    obtain ⟨baseChain, hr, hp⟩ := r.runSync hb
    obtain ⟨_, _, h⟩ := Loop.bind_eq_ok (hr.symm.trans h)
    obtain ⟨cache, _, h⟩ := Loop.bind_eq_ok h
    cases h
    exact .inl ⟨tip, r, hp⟩
  case neg => exact .inr (WorkerService.runSync_pauses (not_exists.mp hr) h).present

theorem mem_passes (h : x ∈ passes w chain c t db) : ∃ netParams, c.netParams = some netParams ∧
    x ∈ w.inscribed chain (c.present netParams t.db) (c.present netParams db) ∧
    ∃ fd, w.find t.pool.all x = some fd := by
  unfold passes at h
  split at h
  case h_1 => contradiction
  case h_2 netParams hc =>
    obtain ⟨hx, hf⟩ := mem_filter.mp h
    exact ⟨netParams, hc, hx, Option.isSome_iff_exists.mp hf⟩

-- An inscription is passed if a height is recorded, and the pool resolves it.
theorem mem_passes_runSync {y : Database × Except GoError BtcTxSortCache}
    (h : x ∈ passes w chain c t db) (hc : c.netParams = some netParams)
    (hr : (newWorkerService f c netParams t.db.das).runSync env t.db = .ok y)
    (hb : db.baseChain = y.fst.baseChain) :
    ∃ tip fd, (newWorkerService f c netParams t.db.das).Records env t.db tip ∧
      (x, fd) ∈ resolved w chain c netParams tip t := by
  obtain ⟨netParams', hc', hx, fd, hf⟩ := mem_passes h
  cases Option.some.inj (hc.symm.trans hc')
  rw [Config.present_congr hb] at hx
  cases runSync_present hr
  case inl h =>
    obtain ⟨tip, r, hp⟩ := h
    rw [hp] at hx
    exact ⟨tip, fd, r, World.mem_found.mpr ⟨hx, hf⟩⟩
  case inr h =>
    rw [h, World.inscribed_eq_nil le_rfl] at hx
    contradiction

theorem passes_congr {db' : Database} (h : db'.baseChain = db.baseChain) :
    passes w chain c t db' = passes w chain c t db := by
  unfold passes
  split
  case h_1 => rfl
  case h_2 => rw [Config.present_congr h]

theorem not_mem_passes (h : db.baseChain = t.db.baseChain) : x ∉ passes w chain c t db := by
  intro hx
  obtain ⟨netParams, _, hx, _⟩ := mem_passes hx
  rw [Config.present_congr h, World.inscribed_eq_nil le_rfl] at hx
  contradiction

theorem stored_round (g : Completes w chain c t env f)
    (h : doBitcoinSyncWith f c (w.env chain env) t = .ok (t', err)) :
    (∀ x, Stored t.db x → Stored t'.db x) ∧ ∀ x ∈ passes w chain c t t'.db, Stored t'.db x := by
  have hi (hd : t'.db = t.db) : (∀ x, Stored t.db x → Stored t'.db x) ∧
      ∀ x ∈ passes w chain c t t'.db, Stored t'.db x :=
    ⟨fun x hx => hd ▸ hx, fun x hx => absurd hx (not_mem_passes (congrArg Database.baseChain hd))⟩
  cases hf : t.forced
  case true  => exact hi (doBitcoinSyncWith_idle (.inl hf) h)
  case false =>
    cases hc : c.netParams
    case none => exact hi (doBitcoinSyncWith_idle (.inr hc) h)
    case some netParams =>
      obtain ⟨y, hy, hg⟩ := doBitcoinSyncWith_grows hf hc h
      refine ⟨fun x hx => hx.grows hg, fun x hx => ?_⟩
      obtain ⟨tip, fd, r, hm⟩ := mem_passes_runSync hx hc hy hg.baseChain
      obtain ⟨st, hr, hs⟩ := g netParams tip hc hf r (ne_nil_of_mem hm)
      obtain ⟨rows, hd, he, _⟩ := (st.round hf hc r hr (fun _ => hs) h).das
      obtain ⟨row, hrow, he⟩ := mem_map.mp (he ▸ mem_map_of_mem hm)
      obtain ⟨ht, he⟩ := Prod.mk.inj he
      refine ⟨row, ?_, ht, (Prod.mk.inj he).left⟩
      rw [hd, Table.rows_append]
      exact mem_append_right _ hrow

theorem databaseAt_grows {point : Point} (h : databaseAt f c env t point = .ok db) :
    ∃ baseChain, Grows baseChain t.db db := by
  unfold databaseAt at h
  split at h
  case h_1 netParams hf hc =>
    cases point
    case begun =>
      cases h
      exact ⟨_, rfl, rfl, fun _ => id⟩
    case opened =>
      cases h
      exact ⟨_, openDatabase_grows.left⟩
    case recorded =>
      obtain ⟨x, hx, rfl⟩ := Loop.map_eq_ok h
      exact ⟨_, runSync_grows hx⟩
    case saved =>
      obtain ⟨x, hx, rfl⟩ := Loop.map_eq_ok h
      obtain ⟨y, _, hg⟩ := doBitcoinSyncWith_grows hf hc hx
      exact ⟨_, hg⟩
  case h_2 =>
    cases h
    exact ⟨_, rfl, rfl, fun _ => id⟩

-- An interrupted round passes inscriptions only if it has recorded a height.
theorem not_mem_passes_databaseAt {point : Point}
    (h : databaseAt f c (w.env chain env) t point = .ok db)
    (g : point = .recorded ∨ point = .saved → Passes w chain c t env f) :
    x ∉ passes w chain c t db := by
  unfold databaseAt at h
  split at h
  case h_1 netParams hf hc =>
    have hn {y : Database × Except GoError BtcTxSortCache} (g : Passes w chain c t env f)
        (hy : (newWorkerService f c netParams t.db.das).runSync (w.env chain env) t.db = .ok y)
        (hb : db.baseChain = y.fst.baseChain) : x ∉ passes w chain c t db := by
      intro hx
      obtain ⟨tip, fd, r, hm⟩ := mem_passes_runSync hx hc hy hb
      rw [g netParams tip hc hf r] at hm
      contradiction
    cases point
    case begun =>
      cases h
      exact not_mem_passes rfl
    case opened =>
      cases h
      intro hx
      obtain ⟨netParams', hc', hx, _⟩ := mem_passes hx
      cases Option.some.inj (hc.symm.trans hc')
      have hp : c.present netParams _ = _ := (@openDatabase_grows (w.env chain env)
        (newWorkerService f c netParams t.db.das) t.db).right
      rw [hp, newWorkerService_present, World.inscribed_eq_nil le_rfl] at hx
      contradiction
    case recorded =>
      obtain ⟨x, hx, rfl⟩ := Loop.map_eq_ok h
      exact hn (g (.inl rfl)) hx rfl
    case saved =>
      obtain ⟨x, hx, rfl⟩ := Loop.map_eq_ok h
      obtain ⟨y, hy, hg⟩ := doBitcoinSyncWith_grows hf hc hx
      exact hn (g (.inr rfl)) hy hg.baseChain
  case h_2 =>
    cases h
    exact not_mem_passes rfl

theorem Stored.startupWith {baseChain : List BaseChainRow} {db' : Database} (h : Stored db x)
    (g : Grows baseChain db db') (hr : Restarts f db) : Stored (startupWith f db') x := by
  obtain ⟨r, hm, h⟩ := h
  refine ⟨r, ?_, h⟩
  unfold Bitcoin.startupWith
  split
  case isTrue    => exact g.rows r hm
  case isFalse hf =>
    have hl := hr.resolve_left hf r hm
    have hn : db'.getLastBlockNum = db.getLastBlockNum := by
      rw [Database.getLastBlockNum, g.syncInfo, Database.getLastBlockNum]
    simp only [startup, Database.cleanUpDB, Table.rows_delete, mem_filter, hn]
    exact ⟨g.rows r hm, by simpa using hl⟩

theorem startupWith_baseChain : (startupWith f db).baseChain = db.baseChain := by
  unfold Bitcoin.startupWith
  split <;> rfl

theorem stored_step {t' : State} (g : Guarded w chain c s e)
    (h : stepState w chain c s.state e = .ok t') :
    (∀ x, Stored s.state.db x → Stored t'.db x) ∧
      ∀ x ∈ passes w chain c s.state t'.db, Stored t'.db x := by
  cases e
  case round env f =>
    obtain ⟨y, hy, rfl⟩ := Loop.map_eq_ok h
    exact stored_round g hy
  case crash env f point pool heap =>
    obtain ⟨db, hd, h⟩ := Loop.bind_eq_ok h
    cases h
    obtain ⟨baseChain, hg⟩ := databaseAt_grows hd
    refine ⟨fun x hx => hx.startupWith hg g.left, fun x hx => absurd hx ?_⟩
    rw [passes_congr startupWith_baseChain]
    apply not_mem_passes_databaseAt hd
    rintro (rfl | rfl) <;> exact g.right
  case done =>
    cases h
    exact ⟨fun _ => id, fun x hx => absurd hx (not_mem_passes rfl)⟩
  case pool pool heap =>
    cases h
    exact ⟨fun _ => id, fun x hx => absurd hx (not_mem_passes rfl)⟩

theorem stored_of_reachable {pool : FilePool} {heap : Heap}
    (r : (machine w chain c pool heap).Reachable (Guarded w chain c) s) :
    ∀ x ∈ s.passed, Stored s.state.db x := by
  refine r.invariant (I := fun s => ∀ x ∈ s.passed, Stored s.state.db x) (by simp [machine])
    fun s e s' i g h => ?_
  obtain ⟨t', ht, h⟩ := Loop.bind_eq_ok h
  cases h
  obtain ⟨ho, hn⟩ := stored_step g ht
  exact forall_mem_append.mpr ⟨fun x hx => ho x (i x hx), hn⟩

end Step

-- In a run in which no recorded inscription fails to be read or stored, and in which the node is
-- only stopped while nothing can be lost, all inscriptions have rows.
theorem lossless_of_guarded (w : World) (chain : Chain) (c : Config) (pool : FilePool) (heap : Heap)
    (s : Synced) (r : (machine w chain c pool heap).Reachable (Guarded w chain c) s) :
    Lossless w chain c s :=
  fun x hx => .inl (stored_of_reachable r x hx)

-- A round that finds the data of an inscription in a pool.
def sampled : System Synced Event GoPanic :=
  machine sample (fun _ => .zero) regtest filledPool fun _ => committed

theorem guarded_sampled :
    Guarded sample (fun _ => .zero) regtest sampled.init (.round inscribing .quiet) := by
  intro netParams tip hc hf r hn
  cases hc
  cases r.getBlockCount
  exact ⟨storable_sample, fun y _ => rfl, rfl⟩

theorem lossless_sampled : ∃ s, sampled.run sampled.init [.round inscribing .quiet] = .ok s ∧
    s.passed.length = 1 ∧ Lossless sample (fun _ => .zero) regtest s := by
  obtain ⟨s, hs, hp⟩ : ∃ s, sampled.step sampled.init (.round inscribing .quiet) = .ok s ∧
    s.passed.length = 1 := ⟨_, rfl, rfl⟩
  refine ⟨s, ?_, hp, lossless_of_guarded _ _ _ _ _ s (.step .init guarded_sampled hs)⟩
  exact Loop.bind_of_eq_ok hs

-- The same round, except that the transaction cannot be read.
theorem not_lossless_unread :
    ¬∀ (w : World) (chain : Chain) (c : Config) (pool : FilePool) (heap : Heap) (s : Synced),
      (machine w chain c pool heap).Reachable anyStep s → Lossless w chain c s := by
  intro h
  obtain ⟨s, hs, hp, hr, hn⟩ : ∃ s, sampled.step sampled.init
      (.round { inscribing with parseTransaction := fun _ => .error ⟨"timeout"⟩ } .quiet) = .ok s ∧
      s.passed = [⟨.ascii "01", ⟨[], 1, [], [[]]⟩⟩] ∧ s.state.db.das.rows = [] ∧
      Prod.snd <$> (newWorkerService .quiet regtest .regressionNet s.state.db.das).runSync
        (sample.env (fun _ => .zero) inscribing) s.state.db = .ok (.ok .empty) :=
    ⟨_, rfl, rfl, rfl, rfl⟩
  cases h _ _ _ _ _ s (.step .init trivial hs) _ (hp ▸ mem_singleton_self _)
  case inl h =>
    obtain ⟨r, hm, _⟩ := h
    rw [hr] at hm
    contradiction
  case inr h =>
    obtain ⟨db', cache, hc, hm⟩ := h .regressionNet inscribing 1 rfl inscribing_quiet (by decide)
    rw [hc] at hn
    cases hn
    contradiction
end Synced
end Sync.Bitcoin
