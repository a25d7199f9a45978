import DomiconExec.Sync.Theorems.Round

namespace Sync.Bitcoin

open List Db Sql FilePool

-- The part of data that a round looks at.
def bare (da : DA) : DA :=
  { DA.zero with commitment := da.commitment, txHash := da.txHash, blockNum := da.blockNum }

def mark (x : Inscription) (da : DA) : DA :=
  { da with txHash := x.txHash, blockNum := uint64 x.brief.blockNum }

-- What a round finds: the index of the pool with its number of slots, the data, and the transaction
-- hashes in the table.
structure Stock where
  limit : UInt64
  index : Lookup
  heap : Heap
  keys : List GoString

def State.stock (s : State) : Stock where
  limit := s.pool.config.globalSlots
  index := s.pool.all
  heap fd := bare (s.heap fd)
  keys := s.db.das.keys DARow.key

namespace Stock

variable (w : World)

-- Inscriptions are resolved one after the other. The data of each of them is marked, and offered to the
-- pool once more.
def resolve (s : Stock) : List Inscription → Stock × List Ref
  | []     => (s, [])
  | x :: l =>
    match w.find s.index x with
    | none    => s.resolve l
    | some fd =>
      let heap := Function.update s.heap fd (mark x (s.heap fd))
      let (s, fds) := resolve { s with heap, index := s.index.enter heap s.limit fd } l
      (s, fd :: fds)

def rows (s : Stock) (l : List Inscription) : List (GoString × Int × GoString) :=
  (s.resolve w l).snd.map fun fd => gist ((s.resolve w l).fst.heap fd)

-- The rows that are due for inscriptions. If transaction hashes are in conflict there are none.
def due (s : Stock) (l : List Inscription) : List (GoString × Int × GoString) :=
  if Table.Fresh s.keys ((s.rows w l).map Prod.fst) then s.rows w l else []

def drop (heap : Heap) (index : Lookup) (fd : Ref) : Lookup :=
  let collector := index.collector.del (heap fd).txHash |>.del (heap fd).commitment.hash
  { index with collector }

-- The data that was found is removed from the pool, whether or not its rows could be stored.
def after (s : Stock) (l : List Inscription) : Stock :=
  let (s', fds) := s.resolve w l
  { s' with index := fds.foldl (drop s'.heap) s'.index, keys := s.keys ++ (s.due w l).map Prod.fst }

end Stock

section Resolve

variable {w : World} {chain : Chain} {env : Env} {das : Table DARow} {s s' : Collected}
variable {st : Stock} {l : List Inscription}

structure Holds (s : Collected) (st : Stock) : Prop where
  limit : s.pool.config.globalSlots = st.limit
  index : s.pool.all = st.index
  heap : (fun fd => bare (s.heap fd)) = st.heap

-- The loop over the inscriptions resolves them.
theorem Holds.collects (h : Holds s st) : ∃ s',
    l.foldlM (fun s x => collectData (w.env chain env) das x.tx s x.brief) s = .ok s' ∧
      Holds s' (st.resolve w l).fst ∧ s'.daDatas = s.daDatas ++ (st.resolve w l).snd := by
  induction l generalizing s st
  case nil => exact ⟨s, rfl, h, (append_nil _).symm⟩
  case cons x l hi =>
    have hf : w.find st.index x = w.find s.pool.all x := by rw [h.index]
    rw [foldlM_cons, Stock.resolve, hf]
    cases hx : w.find s.pool.all x
    case none =>
      rw [Loop.bind_of_eq_ok (collectData_none hx)]
      exact hi h
    case some fd =>
      obtain ⟨s₁, h₁, _, hd, hh, hp, hc⟩ := @collectData_some w chain env das s x fd hx
      have hb : (fun fd => bare (s₁.heap fd)) =
          Function.update st.heap fd (mark x (st.heap fd)) := by
        rw [← h.heap, hh]
        exact Function.comp_update bare s.heap fd _
      obtain ⟨s', hs, h', hd'⟩ := @hi s₁ { st with
        heap := Function.update st.heap fd (mark x (st.heap fd))
        index := st.index.enter (Function.update st.heap fd (mark x (st.heap fd))) st.limit fd
      } ⟨hc ▸ h.limit, by rw [hp, ← hb, ← h.index, ← h.limit]; rfl, hb⟩
      rw [Loop.bind_of_eq_ok h₁]
      exact ⟨s', hs, h', by rw [hd', hd, append_assoc]; rfl⟩

end Resolve

section Save

variable {w : World} {env : Env} {s : State} {collected : Collected} {l : List Inscription}

def entries (db : Database) : List (GoString × Int × GoString) :=
  db.das.rows.map entry

theorem Extended.appends {das das' : Table DARow} {es : List (GoString × Int × GoString)}
    {nonces : List Int} (h : Extended das es nonces das') :
    das'.rows.map entry = das.rows.map entry ++ es ∧
      das'.keys DARow.key = das.keys DARow.key ++ es.map Prod.fst := by
  obtain ⟨rows, rfl, rfl, _⟩ := h
  rw [Table.rows_append, map_append, Table.keys_append, map_map]
  refine ⟨rfl, congrArg _ ?_⟩
  rw [Table.keys, filterMap_map]
  exact congrFun filterMap_eq_map _

theorem Stock.drop_bare {heap : Heap} : drop (fun fd => bare (heap fd)) = drop heap :=
  rfl

theorem removeAll_all {heap : Heap} {fp : FilePool} {fds : List Ref} :
    (fp.removeAll heap fds).all = fds.foldl (Stock.drop heap) fp.all :=
  (foldl_hom FilePool.all fun _ _ => rfl).symm

theorem removeAll_config {heap : Heap} {fp : FilePool} {fds : List Ref} :
    (fp.removeAll heap fds).config = fp.config := by
  induction fds generalizing fp
  case nil            => rfl
  case cons fd fds hi => exact hi

theorem saveData_pool : (saveData .quiet env s collected).heap = collected.heap ∧
    (saveData .quiet env s collected).pool.all =
      collected.daDatas.foldl (Stock.drop collected.heap) collected.pool.all ∧
    (saveData .quiet env s collected).pool.config = collected.pool.config := by
  unfold saveData
  dsimp only
  split
  case isTrue => exact ⟨rfl, removeAll_all, removeAll_config⟩
  case isFalse h =>
    rw [length_eq_zero_iff.mp (not_not.mp h)]
    exact ⟨rfl, rfl, rfl⟩

theorem Holds.save (h : Holds collected (s.stock.resolve w l).fst)
    (hd : collected.daDatas = (s.stock.resolve w l).snd) :
    entries (saveData .quiet env s collected).db = entries s.db ++ s.stock.due w l ∧
      (saveData .quiet env s collected).stock = s.stock.after w l := by
  have hr : (collected.daDatas.map collected.heap).map gist = s.stock.rows w l := by
    rw [hd, Stock.rows, ← h.heap, map_map]
    rfl
  have hk : (collected.daDatas.map collected.heap).map (·.txHash.hex) =
      (s.stock.rows w l).map Prod.fst := by
    rw [← hr, map_map (l := collected.daDatas.map collected.heap)]
    rfl
  have ha : (collected.accepted .quiet s.db.das).map gist = s.stock.due w l := by
    simp only [Collected.accepted, hk, Faults.quiet, true_and]
    rw [apply_ite (List.map gist), hr]
    rfl
  obtain ⟨he, hd'⟩ := (@saveData_extended .quiet env s collected).appends
  rw [ha] at he hd'
  refine ⟨he, ?_⟩
  obtain ⟨hh, hp, hc⟩ := @saveData_pool env s collected
  simp only [State.stock, Stock.after, Stock.mk.injEq, hp, hc, hh, hd, h.index]
  rw [← Stock.drop_bare, h.heap]
  exact ⟨h.limit, rfl, rfl, hd'⟩

end Save

section Round

variable {w : World} {chain : Chain} {c : Config} {env : Env} {netParams : Params}
variable {s s' : State} {tip : Int64}

-- The matching inscriptions as a round lists them. A transaction that occurs twice stays in its
-- place, with the later height.
def World.listed (w : World) (chain : Chain) (present tip : Int) : List Inscription :=
  WorkerService.inscriptions <|
    WorkerService.briefsOf w (fun _ => true) .empty (w.transactions chain present tip)

-- What a round leaves, besides the recorded height.
structure Stocked (w : World) (l : List Inscription) (s s' : State) : Prop where
  rows : entries s'.db = entries s.db ++ s.stock.due w l
  stock : s'.stock = s.stock.after w l
  forced : s'.forced = false

end Round

section Reorganization

variable {w : World} {c : Config} {netParams : Params} {A B : Chain} {tipA tipB : Int64}
variable {envA envB envB' : Env} {s s' s₁ s₂ s₃ : State} {l : List Inscription}
variable {e : GoString × Int × GoString}

-- The rows of a batch are new.
theorem not_mem_entries (h : e ∈ s.stock.due w l) : e ∉ entries s.db := by
  intro he
  rw [Stock.due] at h
  split at h
  case isFalse => contradiction
  case isTrue hf =>
    obtain ⟨r, hr, rfl⟩ := mem_map.mp he
    exact hf.free _ (mem_map_of_mem h) (Table.mem_keys_of_mem_rows hr rfl)

theorem Stocked.height (st : Stocked w l s s') (a : Adds c netParams s.db s'.db)
    (h : e ∈ s.stock.due w l) :
    c.present netParams s.db < e.snd.fst ∧ e.snd.fst ≤ c.present netParams s'.db := by
  have he : e ∈ entries s'.db := st.rows ▸ mem_append_right _ h
  obtain ⟨r, hr, rfl⟩ := mem_map.mp he
  exact (a.das r hr).resolve_left fun hr => not_mem_entries h (mem_map_of_mem hr)

def SameRows (db db' : Database) : Prop :=
  ∀ e, e ∈ entries db ↔ e ∈ entries db'

-- The rows that are due for the new blocks of the one chain are those due for the other one up to the
-- same height, and those due for the rest of the other one do not change if the blocks of the first one
-- come before it.
structure Agree (w : World) (A B : Chain) (s : Stock) (present tipA tipB : Int) : Prop where
  before : ∀ e, e ∈ s.due w (w.listed A present tipA) ↔
    e ∈ s.due w (w.listed B present tipB) ∧ e.snd.fst ≤ tipA
  beyond : ∀ e,
    e ∈ (s.after w (w.listed A present tipA)).due w (w.listed B (max present tipA) tipB) ↔
      e ∈ s.due w (w.listed B present tipB) ∧ tipA < e.snd.fst

end Reorganization

end Sync.Bitcoin
