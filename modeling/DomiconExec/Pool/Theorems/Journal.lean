import DomiconExec.Pool.Theorems.Replay
import DomiconExec.Pool.Theorems.Slots

namespace FilePool

open List Journal Program Transition.System

variable {env : Env} {fp : FilePool} {fd : Ref} {fds : List Ref} {isLocal : Bool}

-- No operation of the pool adds to the map that the rotations are given.
section Collector

theorem removeAll_collector {heap : Heap} : (fp.removeAll heap fds).collector = fp.collector := by
  induction fds generalizing fp
  case nil            => rfl
  case cons fd fds hi => exact hi

theorem step_collector {fp' : FilePool} {e : Event} (h : fp.collector = ∅)
    (hs : fp.step e = .ok fp') : fp'.collector = ∅ := by
  cases e
  case add env fds isLocal =>
    obtain ⟨r, hr, he⟩ := Loop.map_eq_ok hs
    rw [← he, (add_kept hr).right, h]
  case removeAll heap das =>
    cases hs
    rw [removeAll_collector, h]
  case removeFileData hash =>
    cases hs
    unfold removeFileData
    split
    case h_1 => exact h
    case h_2 =>
      dsimp only
      rw [h]
      exact GoMap.del_of_not_mem GoMap.not_mem_empty

theorem load_collector {openError : Option GoError} {j : Journal}
    {r : Loading × Option LoadError} (h : load env openError isLocal fp j = .ok r) :
    r.fst.pool.collector = fp.collector := by
  unfold load at h
  split at h
  case h_1 =>
    cases h
    rfl
  case h_2 =>
    obtain ⟨p, hp, h⟩ := Loop.bind_eq_ok h
    cases h
    refine Replay.loop_invariant (P := (·.pool.collector = fp.collector)) ?_ hp rfl
    intro s batch s' hs ha
    obtain ⟨r, hr, ha⟩ := Loop.bind_eq_ok ha
    cases ha
    exact (add_kept hr).right.trans hs

theorem rejournal_collector {d : Disk} : (fp.rejournal d).collector = fp.collector := by
  unfold rejournal
  split
  case h_1 => rfl
  case h_2 => split <;> rfl

theorem init_collector {b : Boot} {fp' : FilePool} (h : init b fp = .ok fp') :
    fp'.collector = fp.collector := by
  obtain ⟨fp₁, h₁, he⟩ := Loop.map_eq_ok h
  have hc : fp'.collector = fp₁.collector := by
    rw [← he, initDiskCache]
    split <;> rfl
  rw [hc]
  unfold initJournal at h₁
  split at h₁
  case h_1 =>
    cases h₁
    rfl
  case h_2 =>
    obtain ⟨r, hr, h₁⟩ := Loop.bind_eq_ok h₁
    cases h₁
    rw [rejournal_collector, load_collector hr]

variable {config : Config} {path nodeType : String} {file : List (Ref × Bytes)}

theorem journal_step_collector {op : Op} {fp' : FilePool} (h : fp.collector = ∅)
    (hs : Journal.step path fp op = .ok fp') : fp'.collector = ∅ := by
  cases op
  case pool e => exact step_collector h hs
  case rotate d =>
    cases hs
    rw [rejournal_collector, h]
  case restart b => exact init_collector hs

theorem collector_eq_empty (r : (Journal.machine config path nodeType file).Reachable anyStep fp) :
    fp.collector = ∅ := by
  refine r.invariant (I := fun fp => fp.collector = ∅) rfl ?_
  intro fp op fp' h _ hs
  exact journal_step_collector h hs

end Collector

namespace Journal

variable {d : Disk} {j j' : Journal} {file : List (Ref × Bytes)} {all : GoMap Hash Ref}

theorem raise_ok {err : Option GoError} {u : Unit} (h : raise err j = .ok u j') :
    err = none ∧ j' = j := by
  cases err
  case some => contradiction
  case none =>
    cases h
    exact ⟨rfl, rfl⟩

theorem dump_ok (h : dump d fds j = .ok file j') :
    j' = j ∧ file.map Prod.fst = fds ∧ ∀ e ∈ file, (d.heap e.fst).encode = .ok e.snd := by
  induction fds generalizing file j
  case nil =>
    cases h
    exact ⟨rfl, rfl, by simp⟩
  case cons fd fds hi =>
    cases hb : (d.heap fd).encode <;> simp only [dump, hb] at h
    case error => contradiction
    case ok b =>
      obtain ⟨_, j₁, h₁, h⟩ := of_bind_ok h
      obtain ⟨rest, j₂, h₂, h⟩ := of_bind_ok h
      cases h
      obtain ⟨_, rfl⟩ := raise_ok h₁
      obtain ⟨rfl, hf, he⟩ := hi h₂
      exact ⟨rfl, congrArg (fd :: ·) hf, forall_mem_cons.mpr ⟨hb, he⟩⟩

theorem rotate_ok {u : Unit} (h : rotate d all j = .ok u j') :
    j'.writer = some .sink ∧
    j'.file.map Prod.fst = (d.order.list all.keys).filterMap all.get ∧
    ∀ e ∈ j'.file, (d.heap e.fst).encode = .ok e.snd := by
  obtain ⟨_, j₁, _, h⟩ := of_bind_ok h
  obtain ⟨_, j₂, _, h⟩ := of_bind_ok h
  obtain ⟨file, j₃, hf, h⟩ := of_bind_ok h
  obtain ⟨_, j₄, _, h⟩ := of_bind_ok h
  obtain ⟨_, j₅, h₅, h⟩ := of_bind_ok h
  obtain ⟨_, j₆, h₆, h⟩ := of_bind_ok h
  cases h
  cases h₅
  obtain ⟨_, rfl⟩ := raise_ok h₆
  exact ⟨rfl, (dump_ok hf).right⟩

end Journal

section Load

open Rlp Lookup

variable {limit : UInt64} {t : Lookup} {s : Loading} {das : List DA}

theorem enter_congr {heap heap' : Heap} (h : heap fd = heap' fd) :
    t.enter heap limit fd = t.enter heap' limit fd := by
  have hb : t.Blocks heap limit fd ↔ t.Blocks heap' limit fd := by simp only [Blocks, h]
  simp only [enter, hb, h]

namespace Journal.Loading

-- All that was decoded so far was entered into the index `t` one by one.
structure Loaded (limit : UInt64) (t : Lookup) (s : Loading) : Prop where
  slots : s.pool.config.globalSlots = limit
  all : s.pool.all = (List.range s.mem.length).foldl (enter s.heap limit) t

theorem Loaded.add (l : s.Loaded limit t) (batch : List DA) : ∃ s',
    Loading.add env isLocal s batch = .ok s' ∧ s'.mem = s.mem ++ batch ∧ s'.Loaded limit t := by
  let s₁ : Loading := { s with mem := s.mem ++ batch }
  obtain ⟨r, hr, ha, _⟩ := add_ok { env with heap := s₁.heap } s.pool
    (List.range' s.mem.length batch.length) isLocal
  refine ⟨{ s₁ with pool := r.pool }, ?_, rfl, (add_kept hr).left ▸ l.slots, ?_⟩
  case refine_1 =>
    rw [Loading.add, hr]
    rfl
  case refine_2 =>
    have he : (List.range s.mem.length).foldl (enter s.heap limit) t =
        (List.range s.mem.length).foldl (enter s₁.heap limit) t := by
      refine foldl_ext _ _ _ fun t fd hf => enter_congr ?_
      simp [heap, s₁, List.getElem?_append_left (mem_range.mp hf)]
    dsimp only
    rw [ha, l.all, he, l.slots, ← foldl_append, length_append, range_add,
      range'_eq_map_range]
    rfl

theorem Loaded.foldlM (l : s.Loaded limit t) (bs : List (List DA)) : ∃ s',
    bs.foldlM (Loading.add env isLocal) s = .ok s' ∧ s'.mem = s.mem ++ bs.flatten ∧
      s'.Loaded limit t := by
  induction bs generalizing s
  case nil => exact ⟨s, rfl, by simp, l⟩
  case cons batch bs hi =>
    obtain ⟨s₁, h₁, hm₁, l₁⟩ := @Loaded.add env isLocal _ _ _ l batch
    obtain ⟨s', hs, hm, l'⟩ := hi l₁
    refine ⟨s', ?_, by simp [hm, hm₁], l'⟩
    rw [foldlM_cons, h₁]
    exact hs

end Journal.Loading

namespace Journal

variable {d : Disk} {j j' : Journal} {all : GoMap Hash Ref}

theorem load_ok (hd : ∀ da ∈ das, 0 ≤ da.nameSpaceID.getD 0 ∧ da.item.encode.length < 2 ^ 64)
    (hj : j.contents = Item.encodeAll (das.map DA.item)) (env : Env) (isLocal : Bool)
    (fp : FilePool) :
    ∃ s, load env none isLocal fp j = .ok (s, none) ∧ s.mem = das.map DA.decoded ∧
      s.pool.all = (List.range s.mem.length).foldl (enter s.heap fp.config.globalSlots) fp.all := by
  have l : Loading.Loaded fp.config.globalSlots fp.all
      ⟨{ fp with journal := some { j with writer := some .devNull } }, []⟩ :=
    ⟨rfl, rfl⟩
  obtain ⟨s, hs, hm, l'⟩ := @Loading.Loaded.foldlM env isLocal _ _ _ l (batches [] (das.map DA.decoded))
  have hh : Holds das [] j := ⟨hd, torn_nil, by rw [hj, append_nil]⟩
  let journal := s.pool.journal.map fun j => { j with writer := none }
  refine ⟨{ s with pool := { s.pool with journal } }, ?_, by rw [hm, flatten_batches]; rfl, l'.all⟩
  simp only [load]
  rw [hh.loop_eq, hs]
  rfl

theorem contents_rotate {u : Unit} (h : rotate d all j = .ok u j')
    (hs : ∀ k fd, all.get k = some fd → (d.heap fd).item.encode.length < 2 ^ 64) :
    ∃ fds : List Ref, (∀ fd, fd ∈ fds ↔ ∃ k, all.get k = some fd) ∧
      (∀ fd ∈ fds, 0 ≤ (d.heap fd).nameSpaceID.getD 0 ∧
        (d.heap fd).item.encode.length < 2 ^ 64) ∧
      j'.contents = Item.encodeAll ((fds.map d.heap).map DA.item) := by
  obtain ⟨_, hf, he⟩ := rotate_ok h
  have hm (fd : Ref) : fd ∈ j'.file.map Prod.fst ↔ ∃ k, all.get k = some fd := by
    simp only [hf, mem_filterMap, IterOrder.mem, GoMap.mem_keys]
    exact exists_congr fun k => and_iff_right_of_imp GoMap.mem_of_get
  have hd (e : Ref × Bytes) (h : e ∈ j'.file) : 0 ≤ (d.heap e.fst).nameSpaceID.getD 0 ∧
      (d.heap e.fst).item.encode.length < 2 ^ 64 := by
    obtain ⟨k, hk⟩ := (hm e.fst).mp (mem_map_of_mem h)
    exact ⟨DA.nameSpaceID_nonneg (he e h), hs k e.fst hk⟩
  refine ⟨j'.file.map Prod.fst, hm, by simpa using hd, ?_⟩
  have hb : ∀ e ∈ j'.file, e.snd = (d.heap e.fst).item.encode := fun e h =>
    Except.ok.inj <| (he e h).symm.trans (DA.decode_item (hd e h).left (hd e h).right).left
  rw [contents]
  generalize j'.file = file at hb
  induction file
  case nil => rfl
  case cons e file hi =>
    obtain ⟨h, hb⟩ := forall_mem_cons.mp hb
    simp [Item.encodeAll, h, hi hb]

def unlimited : UInt64 :=
  .ofNat (2 ^ 64 - 1)

end Journal

end Load

-- Loading the file of the journal into an empty pool without a limit brings back all data that was
-- retrievable, as far as it survives being encoded.
def Recovers (env : Env) (heap : Heap) (path : String) (fp : FilePool) (j : Journal) : Prop :=
  ∃ s, load env none (!fp.config.journalRemote)
      (new { fp.config with globalSlots := unlimited } path fp.nodeType) j = .ok (s, none) ∧
    ∀ k fd, fp.all.get k = some fd → ∃ k' fd' b, (heap fd).encode = .ok b ∧
      DA.zero.decode b = .ok (s.heap fd') ∧ s.pool.all.get k' = some fd'

theorem recovers_iff {d : Disk} {j j' : Journal} {u : Unit} {path : String}
    (hc : fp.collector = ∅) (hr : rotate d fp.toJournal j = .ok u j') :
    Recovers env d.heap path fp j' ↔ ∀ k, fp.all.get k = none := by
  have hm : fp.toJournal = ∅ := hc
  obtain ⟨fds, hf, _, hj⟩ := contents_rotate hr (by simp [hm])
  have hn : fds = [] := eq_nil_iff_forall_not_mem.mpr fun fd h => by
    simpa [hm] using (hf fd).mp h
  rw [hn] at hj
  obtain ⟨s, hl, hmem, ha⟩ := @load_ok [] j' (by simp) hj env (!fp.config.journalRemote)
    (new { fp.config with globalSlots := unlimited } path fp.nodeType)
  -- Nothing was loaded.
  have he (k : Hash) : s.pool.all.get k = none := by
    rw [ha, hmem]
    exact GoMap.get_empty
  constructor
  case mp =>
    rintro ⟨s', hl', h⟩ k
    cases hl.symm.trans hl'
    by_contra hk
    obtain ⟨fd, hk⟩ := Option.ne_none_iff_exists'.mp hk
    obtain ⟨k', fd', b, _, _, hg⟩ := h k fd hk
    cases (he k').symm.trans hg
  case mpr =>
    intro h
    refine ⟨s, hl, fun k fd hk => ?_⟩
    cases (h k).symm.trans hk

-- Whatever has happened, the file that a rotation leaves behind is empty.
theorem recovers_iff_empty (config : Config) (path nodeType : String) (file : List (Ref × Bytes))
    (fp : FilePool) (r : (Journal.machine config path nodeType file).Reachable anyStep fp)
    (d : Disk) (j j' : Journal) (hr : rotate d fp.toJournal j = .ok () j') (env : Env) :
    Recovers env d.heap path fp j' ↔ ∀ k, fp.all.get k = none :=
  recovers_iff (collector_eq_empty r) hr

noncomputable def quietDisk : Disk where
  heap := plainEnv.heap
  order := .along []
  closeError := none
  createError := none
  writeError _ := none
  renameError := none
  openError := none

noncomputable def quietBoot : Boot where
  env := plainEnv
  openError := none
  disk := quietDisk
  setBytes _ := (.zero, none)
  records := []

def started : Transition.System FilePool Journal.Op GoPanic :=
  Journal.machine DefaultConfig "fileData.rlp" "a" []

theorem rotate_quietDisk (hc : fp.collector = ∅) (j : Journal) :
    rotate quietDisk fp.toJournal j = .ok () ⟨some .sink, []⟩ := by
  obtain ⟨writer, file⟩ := j
  rw [toJournal, hc]
  cases writer
  case none        => rfl
  case some writer => cases writer <;> rfl

theorem recovers_started : ∃ j', rotate quietDisk started.init.toJournal .newFdJournal = .ok () j' ∧
    Recovers plainEnv plainEnv.heap "fileData.rlp" started.init j' := by
  have hr := @rotate_quietDisk started.init rfl .newFdJournal
  have h := recovers_iff_empty DefaultConfig "fileData.rlp" "a" [] started.init .init quietDisk
    .newFdJournal _ hr plainEnv
  exact ⟨_, hr, h.mpr fun k => GoMap.get_empty⟩

-- Data that is added to a new pool is lost with the next rotation.
theorem not_recovers_added :
    ¬∀ config path nodeType file fp,
      (Journal.machine config path nodeType file).Reachable anyStep fp →
      ∀ j, fp.journal = some j → ∀ d j', rotate d fp.toJournal j = .ok () j' →
        ∀ env, Recovers env d.heap path fp j' := by
  intro h
  obtain ⟨fp, j, hs, hj, hg⟩ : ∃ fp j,
      started.run started.init [.restart quietBoot, .pool (.add plainEnv [0] true)] = .ok fp ∧
      fp.journal = some j ∧ fp.all.get (.fill 1) = some 0 := ⟨_, _, rfl, rfl, by decide⟩
  have r : started.Reachable anyStep fp := .run .init (fun _ _ _ => trivial) hs
  have hc := collector_eq_empty r
  have hr := rotate_quietDisk hc j
  have he := (recovers_iff hc hr).mp <| h _ _ _ _ fp r j hj quietDisk _ hr plainEnv
  cases (he (.fill 1)).symm.trans hg

end FilePool
