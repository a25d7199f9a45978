import DomiconExec.Sync.Theorems.Lossless

open List

namespace Db

open Sql

theorem int64_eq_toNat {n : UInt64} (h : n.toNat < 2 ^ 63) : int64 n = n.toNat := by
  rw [int64_eq_toInt, BitVec.toInt_eq_toNat_cond, UInt64.toNat_toBitVec]
  split <;> omega

theorem toNat_uint64 {n : Nat} (h : n < 2 ^ 63) : (uint64 n).toNat = n := by
  simp [uint64, UInt64.ofInt]
  omega

-- The greatest nonce of rows that are numbered one after the other is that of the last row.
theorem foldl_nonce {l : List DARow} {da : Option DARow} {n : Nat}
    (ha : (da.getD .zero).nonce = n)
    (h : l.map DARow.nonce = (List.range' (n + 1) l.length).map Nat.cast) :
    ((l.foldl (fun da r => if da.all (·.nonce ≤ r.nonce) then some r else da) da).getD .zero).nonce =
      n + l.length := by
  induction l generalizing da n
  case nil => simpa using ha
  case cons r l hi =>
    rw [length_cons, range'_succ, map_cons, map_cons, List.cons.injEq] at h
    have hr : da.all (·.nonce ≤ r.nonce) := by
      cases da
      case none   => rfl
      case some d =>
        rw [Option.getD_some] at ha
        simp only [Option.all_some, decide_eq_true_eq]
        omega
    rw [foldl_cons, if_pos hr, @hi (some r) (n + 1) h.left h.right, length_cons]
    omega

theorem getMaxIDDANonce_eq {t : Table DARow}
    (h : t.rows.map DARow.nonce = (List.range' 1 t.rows.length).map Nat.cast)
    (hl : t.rows.length < 2 ^ 63) : (getMaxIDDANonce t).toNat = t.rows.length := by
  have hn : ((maxIDDA t).getD .zero).nonce = (0 : Nat) + t.rows.length := foldl_nonce rfl h
  rw [getMaxIDDANonce, hn, Nat.cast_zero, zero_add]
  exact toNat_uint64 hl

end Db

namespace Sync.Bitcoin

open Db Sql FilePool Transition System

theorem nonces_eq {nonce : UInt64} {n : Nat} (h : nonce.toNat + n < 2 ^ 63) :
    nonces nonce n = (List.range' (nonce.toNat + 1) n).map Nat.cast := by
  induction n generalizing nonce
  case zero => rfl
  case succ n hi =>
    have hn : (nonce + 1).toNat = nonce.toNat + 1 := by
      rw [UInt64.toNat_add, UInt64.toNat_one, Nat.mod_eq_of_lt (by omega)]
    rw [nonces, hi (by omega), int64_eq_toNat (by omega), hn, range'_succ, map_cons]

namespace Synced

variable {w : World} {chain : Chain} {c : Config} {s s' : Synced} {e : Event}

-- One row for each inscription with its transaction hash and height, and with its position as the
-- nonce.
def Numbered (s : Synced) : Prop :=
  (s.state.db.das.rows.map fun r => (r.txHash, r.blockNum, r.nonce)).Perm <|
    (s.passed.zipIdx 1).map fun x => (x.fst.txHash.hex, x.fst.brief.blockNum, (x.snd : Int))

def Unfailing : Event → Prop
  | .round env f         => f = .quiet ∧ ∃ tip, env.Quiet tip
  | .crash _ _ _ _ _     => False
  | .done | .pool _ _    => True

-- A round numbers the rows if it can store all that it resolves, and no nonce becomes negative.
def Orderly (w : World) (chain : Chain) (c : Config) (s : Synced) : Event → Prop
  | .round env _ => ∀ netParams tip, c.netParams = some netParams → env.Quiet tip →
    Storable w chain (c.present netParams s.state.db) tip.toInt s.state ∧
    s.state.db.das.rows.length + (resolved w chain c netParams tip s.state).length < 2 ^ 63
  | .crash _ _ _ _ _ | .done | .pool _ _ => True

structure Ordered (c : Config) (s : Synced) : Prop where
  forced : c.netParams.isSome → s.state.forced = false
  rows : (s.state.db.das.rows.map fun r => (r.txHash, r.blockNum)) =
    s.passed.map fun x => (x.txHash.hex, x.brief.blockNum)
  nonces : s.state.db.das.rows.map DARow.nonce =
    (List.range' 1 s.state.db.das.rows.length).map Nat.cast
  length : s.state.db.das.rows.length < 2 ^ 63

theorem Ordered.numbered (o : Ordered c s) : Numbered s := by
  have hl : s.passed.length = s.state.db.das.rows.length := by
    simpa using (congrArg List.length o.rows).symm
  have hr : (s.state.db.das.rows.map fun r => ((r.txHash, r.blockNum), r.nonce)) =
      (s.passed.zipIdx 1).map fun x => ((x.fst.txHash.hex, x.fst.brief.blockNum), (x.snd : Int)) := by
    rw [← zip_map', o.rows, o.nonces, ← hl, zipIdx_eq_zip_range', zip_map]
    rfl
  have hp := congrArg (List.map fun x => (x.fst.fst, x.fst.snd, x.snd)) hr
  rw [map_map, map_map] at hp
  exact .of_eq hp

theorem found_fst {t : Lookup} {l : List Inscription} :
    (w.found t l).map Prod.fst = l.filter fun x => (w.find t x).isSome := by
  induction l
  case nil => rfl
  case cons x l hi =>
    rw [filter_cons, ← hi]
    cases hf : w.find t x
    case none    => rw [World.found_cons_none hf]; rfl
    case some fd => rw [World.found_cons_some hf]; rfl

theorem passes_eq {netParams : Params} {tip : Int64} {t : State} {db : Database}
    (hc : c.netParams = some netParams)
    (hp : c.present netParams db = max (c.present netParams t.db) tip.toInt) :
    passes w chain c t db = (resolved w chain c netParams tip t).map Prod.fst := by
  unfold passes
  rw [hc, resolved, found_fst]
  dsimp only
  rw [hp]
  cases le_total (c.present netParams t.db) tip.toInt
  case inl h => rw [max_eq_right h]
  case inr h => rw [max_eq_left h, World.inscribed_eq_nil le_rfl, World.inscribed_eq_nil h]

theorem Ordered.empty {pool : FilePool} {heap : Heap} :
    Ordered c ⟨{ db := .empty, pool, heap, forced := false }, []⟩ :=
  ⟨fun _ => rfl, rfl, rfl, Nat.two_pow_pos 63⟩

theorem Ordered.stores {netParams : Params} {tip : Int64} {t : State} (o : Ordered c s)
    (hc : c.netParams = some netParams)
    (hl : s.state.db.das.rows.length + (resolved w chain c netParams tip s.state).length < 2 ^ 63)
    (st : Stores w (c.present netParams) (max (c.present netParams s.state.db) tip.toInt)
      (getMaxIDDANonce s.state.db.das) (resolved w chain c netParams tip s.state) s.state t) :
    Ordered c ⟨t, s.passed ++ passes w chain c s.state t.db⟩ := by
  obtain ⟨rows, hd, he, hn⟩ := st.das
  have hr : t.db.das.rows = s.state.db.das.rows ++ rows := by rw [hd, Table.rows_append]
  have hm := getMaxIDDANonce_eq o.nonces o.length
  have hk : rows.length = (resolved w chain c netParams tip s.state).length := by
    simpa using congrArg List.length he
  have he := congrArg (List.map fun e => (e.fst, e.snd.fst)) he
  rw [map_map, map_map] at he
  refine ⟨fun _ => st.forced, ?rows, ?nonces, ?length⟩ <;> dsimp only <;> rw [hr]
  case rows =>
    rw [passes_eq hc st.present, map_append, map_append, map_map, o.rows]
    exact congrArg _ he
  case nonces =>
    rw [map_append, o.nonces, hn, nonces_eq (by omega), hm, ← map_append, length_append,
      hk, Nat.add_comm _ 1, range'_append_1]
  case length =>
    rw [length_append]
    omega

theorem Ordered.of_db {t : State} (o : Ordered c s) (hf : c.netParams.isSome → t.forced = false)
    (h : t.db = s.state.db) : Ordered c ⟨t, s.passed ++ passes w chain c s.state t.db⟩ := by
  have hp : passes w chain c s.state t.db = [] :=
    eq_nil_iff_forall_not_mem.mpr fun x => not_mem_passes (congrArg Database.baseChain h)
  rw [hp, append_nil]
  exact ⟨hf, h ▸ o.rows, h ▸ o.nonces, h ▸ o.length⟩

theorem Ordered.step (o : Ordered c s) (hu : Unfailing e) (h : Orderly w chain c s e)
    (hs : step w chain c s e = .ok s') : Ordered c s' := by
  obtain ⟨t, ht, hs⟩ := Loop.bind_eq_ok hs
  cases hs
  cases e
  case round env f =>
    obtain ⟨rfl, tip, q⟩ := hu
    obtain ⟨y, hy, rfl⟩ := Loop.map_eq_ok ht
    cases hc : c.netParams
    case none => exact o.of_db (fun h => by simp [hc] at h) (doBitcoinSyncWith_idle (.inr hc) hy)
    case some netParams =>
      obtain ⟨st, hl⟩ := h netParams tip hc q
      exact o.stores hc hl (q.round (o.forced (Option.isSome_of_eq_some hc)) hc st hy)
  case crash => exact hu.elim
  case done =>
    cases ht
    exact o.of_db (fun _ => rfl) rfl
  case pool pool heap =>
    cases ht
    exact o.of_db o.forced rfl

-- If every round can store all that it resolves, the rows are numbered after each of them.
theorem numbered_of_orderly (w : World) (chain : Chain) (c : Config) (pool : FilePool) (heap : Heap)
    (s : Synced) (r : (machine w chain c pool heap).Reachable
      (fun s e => Unfailing e ∧ Orderly w chain c s e) s) : Numbered s := by
  refine Ordered.numbered (c := c) ?_
  refine r.invariant (I := Ordered c) .empty fun s e s' o g h => ?_
  exact o.step g.left g.right h

-- A round over two blocks, with an inscription in each of them.
theorem numbered_paired :
    let m := machine paired continued regtest unsynchronized.pool numberedData
    ∃ s, m.run m.init [.round (reaching 2) .quiet] = .ok s ∧
      s.state.db.das.rows.map (fun r => (r.blockNum, r.nonce)) = [(1, 1), (2, 2)] ∧ Numbered s := by
  intro m
  have hm : (fun s => s.state.db.das.rows.map fun r => (r.blockNum, r.nonce)) <$>
    m.step m.init (.round (reaching 2) .quiet) = .ok [(1, 1), (2, 2)] := by decide +kernel
  obtain ⟨s, hs, hl⟩ := Loop.map_eq_ok hm
  refine ⟨s, Loop.bind_of_eq_ok hs, hl, numbered_of_orderly _ _ _ _ _ s (.step .init ⟨?_, ?_⟩ hs)⟩
  case refine_1 => exact ⟨rfl, 2, reaching_quiet⟩
  case refine_2 =>
    intro netParams tip hc q
    cases hc
    cases q.getBlockCount
    exact ⟨storable_paired, by decide +kernel⟩

-- A round that finds two inscriptions in one transaction.
def doubled : World :=
  { sample with
    inscriptions := fun _ => .ok [⟨customContentType, [], []⟩, ⟨customContentType, [], []⟩]
  }

theorem step_doubled : (fun s => (s.passed.length, s.state.db.das.rows.length)) <$>
    step doubled (fun _ => .zero) regtest sampled.init (.round inscribing .quiet) = .ok (2, 0) := by
  decide +kernel

-- Two inscriptions in one transaction have the same transaction hash, so that neither is stored.
theorem not_numbered_twice :
    ¬∀ (w : World) (chain : Chain) (c : Config) (pool : FilePool) (heap : Heap) (s : Synced),
      (machine w chain c pool heap).Reachable (fun _ e => Unfailing e) s → Numbered s := by
  intro h
  obtain ⟨s, hs, hl⟩ := Loop.map_eq_ok step_doubled
  obtain ⟨hp, hr⟩ := Prod.mk.inj hl
  have hu : Unfailing (.round inscribing .quiet) := ⟨rfl, 1, inscribing_quiet⟩
  have hn := h doubled _ regtest filledPool (fun _ => committed) s (.step .init hu hs)
  simpa [hp, hr] using hn.length_eq
end Synced
end Sync.Bitcoin
