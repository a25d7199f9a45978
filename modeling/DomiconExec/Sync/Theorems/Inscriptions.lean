import DomiconExec.Sync.Inscriptions
import DomiconExec.Sync.Theorems.Startup

namespace Sync.Bitcoin

open List Db Sql FilePool

namespace World

variable {w : World} {chain : Chain} {present tip : Int}

theorem mem_heights {height : Int} :
    height ∈ heights present tip ↔ present < height ∧ height ≤ tip := by
  simp only [heights, mem_map, mem_range]
  constructor
  case mp =>
    rintro ⟨i, hi, rfl⟩
    omega
  case mpr =>
    intro h
    exact ⟨(height - present - 1).toNat, by omega, by omega⟩

theorem heights_eq_nil (h : tip ≤ present) : heights present tip = [] := by
  rw [heights, Int.toNat_eq_zero.mpr (by omega)]
  rfl

theorem inscribed_eq_nil (h : tip ≤ present) : w.inscribed chain present tip = [] := by
  rw [inscribed, transactions, heights_eq_nil h]
  rfl

theorem mem_inscriptionsOf {x : Inscription} {y : Int × TxID} (h : x ∈ w.inscriptionsOf y) :
    x.tx = y.snd ∧ x.brief.blockNum = y.fst := by
  obtain ⟨brief, hb, rfl⟩ := mem_map.mp h
  obtain ⟨i, _, rfl⟩ := mem_map.mp hb
  exact ⟨rfl, rfl⟩

theorem mem_inscribed {x : Inscription} (h : x ∈ w.inscribed chain present tip) :
    present < x.brief.blockNum ∧ x.brief.blockNum ≤ tip := by
  obtain ⟨y, hy, hx⟩ := mem_flatMap.mp h
  obtain ⟨height, hh, hy⟩ := mem_flatMap.mp hy
  obtain ⟨tx, _, rfl⟩ := mem_map.mp hy
  rw [(mem_inscriptionsOf hx).right]
  exact mem_heights.mp hh

end World

section RunSync

variable {w : World} {chain : Chain} {ws : WorkerService} {env : Env} {db : Database} {tip : Int64}

namespace WorkerService

theorem eq_of_mapError_map {α β : Type} {x : Except GoError α} {f : GoError → GoError} {b v : β}
    (h : (x.map fun _ => v).mapError f = .ok b) : b = v := by
  cases x
  case error => contradiction
  case ok a  => exact (Except.ok.inj h).symm

theorem getBlocks_env {present tip : Int} {blocks : List (Int × List TxID)}
    (h : getBlocks (w.env chain env) (present + 1) tip = .ok blocks) :
    blocks = (World.heights present tip).map fun height => (height, w.block (chain height)) := by
  have hl : tip + 1 - (present + 1) = tip - present := by omega
  rw [getBlocks, hl] at h
  rw [World.heights, map_map]
  refine Loop.foldlM_concat (fun i _ acc acc' hs => ?_) h
  obtain ⟨hash, hh, h₁⟩ := Loop.bind_eq_ok hs
  obtain ⟨tx, ht, h₂⟩ := Loop.bind_eq_ok h₁
  obtain ⟨_, _, h₃⟩ := Loop.bind_eq_ok h₂
  cases eq_of_mapError_map hh
  cases eq_of_mapError_map ht
  exact (Except.ok.inj h₃).symm

theorem findIdx?_getPresentBlockHeight :
    ((ws.getPresentBlockHeight env db).fst.baseChain.findIdx? ws.matchesChain).isSome := by
  rw [List.findIdx?_isSome, getPresentBlockHeight]
  cases h : db.baseChain.find? ws.matchesChain
  case some bc => exact any_eq_true.mpr ⟨bc, List.mem_of_find?_eq_some h, List.find?_some h⟩
  case none    => simp [matchesChain]

theorem updateChain_ok {n : Int} (hu : env.updateChain = none)
    (hi : (db.baseChain.findIdx? ws.matchesChain).isSome) :
    ∃ db', ws.updateChain env n db = .ok db' := by
  obtain ⟨i, hi⟩ := Option.isSome_iff_exists.mp hi
  rw [updateChain, hu, hi]
  exact ⟨_, rfl⟩

theorem Records.runSync {blocks : List (Int × List TxID)} (r : Records ws env db tip)
    (hb : WorkerService.getBlocks env (ws.present db + 1) tip.toInt = .ok blocks) : ∃ baseChain,
      ws.runSync env db = (do
        let _ ← WorkerService.saveFiles env blocks
        let cache ← generateBrief env blocks
        return ({ db with baseChain }, .ok cache)) ∧
      ws.present { db with baseChain } = tip.toInt := by
  obtain ⟨baseChain, he, hp⟩ := ws.getPresentBlockHeight_eq env db
  have hi := @findIdx?_getPresentBlockHeight ws env db
  rw [he] at hi
  obtain ⟨db', hu⟩ := @updateChain_ok ws env _ tip.toInt r.updateChain hi
  obtain ⟨hd, hn⟩ := updateChain_eq (Int64.le_toInt _) (Int64.toInt_lt _) hu
  refine ⟨db'.baseChain, ?_, hd ▸ hn⟩
  have hl : ¬ws.present db ≥ tip.toInt := not_le.mpr r.lt
  rw [WorkerService.runSync, r.getBlockCount, r.firstOrCreate]
  dsimp only
  rw [he]
  dsimp only
  rw [if_neg hl, hb, r.saveBlocks, r.saveTransactions]
  change (WorkerService.saveFiles env blocks >>= _) = WorkerService.saveFiles env blocks >>= _
  cases hs : WorkerService.saveFiles env blocks
  case error => rfl
  case ok err =>
    obtain ⟨_, _, he⟩ := Loop.bind_eq_ok hs
    cases (Except.ok.inj he).symm.trans r.saveFiles
    change (generateBrief env blocks >>= _) = generateBrief env blocks >>= _
    rw [hu, hd]

theorem runSync_pauses {x : Database × Except GoError BtcTxSortCache}
    (h : ∀ tip, ¬Records ws env db tip) (hx : ws.runSync env db = .ok x) : Pauses ws db x := by
  refine (runSync_cases hx).resolve_right ?_
  rintro ⟨tip, _, _, hr, _⟩
  exact h tip hr

end WorkerService
end RunSync

section Briefs

variable {w : World} {chain : Chain} {env : Env}

namespace WorkerService

variable {cache : BtcTxSortCache}

def inscriptions (cache : BtcTxSortCache) : List Inscription :=
  cache.keys.flatMap fun tx => (cache.get tx |>.getD []).map fun brief => ⟨tx, brief⟩

theorem inscriptions_set {tx : TxID} {briefs : List TransactionBrief} (hl : cache.Listed)
    (hn : tx ∉ cache.keys) :
    inscriptions (cache.set tx briefs) =
      inscriptions cache ++ briefs.map fun brief => ⟨tx, brief⟩ := by
  have hk : (cache.set tx briefs).keys = cache.keys ++ [tx] := if_neg fun h => hn (hl.mem tx |>.mpr h)
  have hg : ∀ tx' ∈ cache.keys, (cache.set tx briefs).get tx' = cache.get tx' := by
    intro tx' h
    rw [OrderedMap.get_set, if_neg (ne_of_mem_of_not_mem h hn)]
  rw [inscriptions, hk, flatMap_append, flatMap_singleton, OrderedMap.get_set, if_pos rfl]
  refine congrArg (· ++ _) (flatMap_congr fun tx' h => ?_)
  rw [hg tx' h]

theorem generateBrief_eq (blocks : List (Int × List TxID)) : generateBrief env blocks =
    (blocks.flatMap fun b => b.snd.map (b.fst, ·)).foldlM
      (fun cache x => addBriefs env cache x.fst x.snd) .empty := by
  rw [Loop.foldlM_flatMap]
  simp only [foldlM_map]
  rfl

-- The entries for the readable transactions. One that occurs twice stays in its place.
def briefsOf (w : World) (reads : TxID → Bool) (cache : BtcTxSortCache) (l : List (Int × TxID)) :
    BtcTxSortCache :=
  l.foldl (fun cache x => if reads x.snd then cache.set x.snd (w.briefs x) else cache) cache

theorem addBriefs_env {cache' : BtcTxSortCache} {x : Int × TxID}
    (h : addBriefs (w.env chain env) cache x.fst x.snd = .ok cache') :
    cache' = if env.reads x.snd then cache.set x.snd (w.briefs x) else cache := by
  cases hp : env.parseTransaction x.snd
  case error =>
    simp only [addBriefs, World.env, hp, Except.map] at h
    cases h
    simp [Env.reads, hp, Except.isOk, Except.toBool]
  case ok =>
    simp only [addBriefs, World.env, hp, Except.map] at h
    obtain ⟨inscriptions, hi, h⟩ := Loop.bind_eq_ok h
    cases hs : env.getTransactionSignature x.snd <;> rw [hs] at h <;> cases h
    case error => simp [Env.reads, hp, hs, Except.isOk, Except.toBool]
    case ok =>
      simp [Env.reads, hp, hs, Except.isOk, Except.toBool, World.briefs, hi, Except.toOption]

theorem generateBrief_env {present tip : Int}
    (h : generateBrief (w.env chain env)
      ((World.heights present tip).map fun height => (height, w.block (chain height))) = .ok cache) :
    cache = briefsOf w env.reads .empty (w.transactions chain present tip) := by
  rw [generateBrief_eq, flatMap_map] at h
  exact Loop.eq_foldl_of_foldlM (fun _ _ _ _ => addBriefs_env) h

-- If no transaction occurs twice, then the inscriptions of all that can be read are kept.
theorem inscriptions_briefsOf {reads : TxID → Bool} {l : List (Int × TxID)} (hc : cache.Listed)
    (hn : (l.map Prod.snd).Nodup) (hd : ∀ x ∈ l, x.snd ∉ cache.keys) :
    inscriptions (briefsOf w reads cache l) =
      inscriptions cache ++ (l.filter (reads ·.snd)).flatMap w.inscriptionsOf := by
  induction l generalizing cache
  case nil => simp [briefsOf]
  case cons x l hi =>
    obtain ⟨hx, hn⟩ := nodup_cons.mp hn
    obtain ⟨hd, hd'⟩ := forall_mem_cons.mp hd
    rw [briefsOf, foldl_cons]
    cases hr : reads x.snd
    case false =>
      rw [filter_cons, hr]
      exact hi hc hn hd'
    case true =>
      have hs := @hi (cache.set x.snd (w.briefs x)) hc.set hn fun y hy => by
        rw [OrderedMap.mem_keys_set hc]
        rintro (he | hm)
        case inl => exact hx (he ▸ mem_map_of_mem hy)
        case inr => exact hd' y hy hm
      rw [if_pos rfl, filter_cons, hr, if_pos rfl, flatMap_cons, ← append_assoc]
      rw [inscriptions_set hc hd] at hs
      exact hs

end WorkerService

theorem collectAll_eq {das : Table DARow} {cache : BtcTxSortCache} {s : Collected} :
    collectAll env das cache s = (WorkerService.inscriptions cache).foldlM
      (fun s x => collectData env das x.tx s x.brief) s := by
  rw [WorkerService.inscriptions, Loop.foldlM_flatMap]
  simp only [foldlM_map]
  rfl

end Briefs

end Sync.Bitcoin
