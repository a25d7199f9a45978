import DomiconExec.Pool.Eviction
import DomiconExec.Pool.Theorems.Journal

namespace FilePool

open Transition.System

variable {fp : FilePool} {heap : Heap} {now : GoTime} {order : IterOrder Hash}
variable {innerOrder : Hash → IterOrder Hash}

-- The loop ranges over a map that is never filled.
theorem evict_eq_self (h : fp.collector = ∅) : fp.evict order innerOrder now = fp := by
  have hl : order.list fp.collector.keys = [] := by
    apply List.eq_nil_iff_forall_not_mem.mpr
    intro hash hm
    rw [order.mem, GoMap.mem_keys, h] at hm
    exact GoMap.not_mem_empty hm
  rw [evict, hl, List.foldl_nil]

theorem Life.collector_eq_empty {config : Config} {path nodeType : String}
    {file : List (Ref × Bytes)} (r : (machine config path nodeType file).Reachable anyStep fp) :
    fp.collector = ∅ := by
  refine r.invariant (I := fun fp => fp.collector = ∅) rfl ?_
  intro fp e fp' h _ hs
  cases e
  case journal op => exact journal_step_collector h hs
  case evict =>
    cases hs
    rw [evict_eq_self h, h]
  case remove =>
    cases hs
    exact h
  case addInToDisk =>
    cases hs
    exact h

def Held (fp : FilePool) (fd : Ref) : Prop :=
  fd ∈ fp.all.collector.values

-- The heartbeat of the data is the one under its key.
def StaleAt (heap : Heap) (now : GoTime) (fp : FilePool) (fd : Ref) : Prop :=
  fp.stale now (heap fd).key

-- Exactly the stale data is gone, together with its heartbeats and its slots.
structure Evicted (heap : Heap) (now : GoTime) (fp fp' : FilePool) : Prop where
  lookup : ∀ fd, fp'.Held fd ↔ fp.Held fd ∧ ¬fp.StaleAt heap now fd
  beats : ∀ hash, hash ∈ fp'.beats ↔ hash ∈ fp.beats ∧
    ∀ fd, fp.Held fd → fp.StaleAt heap now fd → (heap fd).key ≠ hash
  kept : ∀ hash ∈ fp'.beats, fp'.beats.get hash = fp.beats.get hash
  slots : fp'.all.slots =
    fp.all.slots - (fp.all.collector.values \ fp'.all.collector.values).card

theorem evicted_self (h : ∀ fd, fp.Held fd → ¬fp.StaleAt heap now fd) :
    Evicted heap now fp fp where
  lookup fd := (and_iff_left_of_imp (h fd)).symm
  beats hash := (and_iff_left fun fd hr hs => absurd hs (h fd hr)).symm
  kept hash _ := rfl
  slots := by simp

theorem evicted_iff_fresh (config : Config) (path nodeType : String) (file : List (Ref × Bytes))
    (fp : FilePool) (r : (Life.machine config path nodeType file).Reachable anyStep fp)
    (heap : Heap) (order : IterOrder Hash) (innerOrder : Hash → IterOrder Hash) (now : GoTime) :
    Evicted heap now fp (fp.evict order innerOrder now) ↔
      ∀ fd, fp.Held fd → ¬fp.StaleAt heap now fd := by
  rw [evict_eq_self (Life.collector_eq_empty r)]
  constructor
  case mp  => exact fun h fd hr => ((h.lookup fd).mp hr).right
  case mpr => exact evicted_self

-- A node that has found no file, and to which data was added.
noncomputable def filled : List Life.Event := [
  .journal (.restart quietBoot),
  .journal (.pool (.add plainEnv [0] true))
]

def living : Transition.System FilePool Life.Event GoPanic :=
  Life.machine DefaultConfig "fileData.rlp" "a" []

theorem run_filled : ∃ fp, living.run living.init filled = .ok fp ∧
    (∀ fd, fp.Held fd ↔ fd = 0) ∧ fp.heartbeat (plainEnv.heap 0).key = plainEnv.now := by
  obtain ⟨fp, hs, hv, hb⟩ : ∃ fp, living.run living.init filled = .ok fp ∧
      fp.all.collector.values = {0} ∧ fp.heartbeat (plainEnv.heap 0).key = plainEnv.now :=
    ⟨_, rfl, by decide, by decide⟩
  exact ⟨fp, hs, fun fd => by rw [Held, hv, Finset.mem_singleton], hb⟩

-- An hour later nothing is stale.
theorem evicted_filled : ∃ fp, living.run living.init filled = .ok fp ∧ fp.Held 0 ∧
    Evicted plainEnv.heap (plainEnv.now.addSec 3600) fp
      (fp.evict (.along []) (fun _ => .along []) (plainEnv.now.addSec 3600)) := by
  obtain ⟨fp, hs, hv, hb⟩ := run_filled
  have r : living.Reachable anyStep fp := .run .init (fun _ _ _ => trivial) hs
  refine ⟨fp, hs, (hv 0).mpr rfl, ?_⟩
  apply (evicted_iff_fresh DefaultConfig "fileData.rlp" "a" [] fp r plainEnv.heap _ _ _).mpr
  intro fd hd
  rw [(hv fd).mp hd, StaleAt, stale, hb]
  decide

-- A day and an hour later the data is stale, but it is still there after a tick.
theorem not_evicted_filled :
    ¬∀ config path nodeType file fp,
      (Life.machine config path nodeType file).Reachable anyStep fp →
      ∀ heap order innerOrder now, Evicted heap now fp (fp.evict order innerOrder now) := by
  intro h
  obtain ⟨fp, hs, hv, hb⟩ := run_filled
  have r : living.Reachable anyStep fp := .run .init (fun _ _ _ => trivial) hs
  have he := h _ _ _ _ fp r plainEnv.heap (.along []) (fun _ => .along [])
    (plainEnv.now.addSec 90000)
  rw [evict_eq_self (Life.collector_eq_empty r)] at he
  apply ((he.lookup 0).mp ((hv 0).mpr rfl)).right
  rw [StaleAt, stale, hb]
  decide

end FilePool
