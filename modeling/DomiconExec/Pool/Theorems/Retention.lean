import DomiconExec.Pool.Retention

namespace FilePool

open List Sql Db

variable {setBytes : SetBytes} {t : Table DARow} {now receive : GoTime} {hash k : Hash}
variable {hashes : GoMap Hash GoTime}
variable {order : IterOrder Hash} {ticks : List (IterOrder Hash × GoTime)}

def Due (now : GoTime) (hashes : GoMap Hash GoTime) (hash : Hash) : Prop :=
  ∃ receive, hashes.get hash = some receive ∧ expires receive now

theorem removeHash_due {s : GoMap Hash GoTime × List Hash} (h : Due now s.fst hash) :
    removeHash now s hash = (s.fst.del hash, s.snd ++ [hash]) := by
  have ⟨receive, hg, he⟩ := h
  simp only [removeHash, hg, he, if_true]

theorem removeHash_not_due {s : GoMap Hash GoTime × List Hash} (h : ¬Due now s.fst hash) :
    removeHash now s hash = s := by
  unfold removeHash
  split
  case h_1    => rfl
  case h_2 hg => exact if_neg fun he => h ⟨_, hg, he⟩

theorem foldl_removeHash (l : List Hash) (s : GoMap Hash GoTime × List Hash) :
    (k ∈ (l.foldl (removeHash now) s).snd ↔ k ∈ s.snd ∨ k ∈ l ∧ Due now s.fst k) ∧
    (¬Due now s.fst k → (l.foldl (removeHash now) s).fst.get k = s.fst.get k) ∧
    (Due now s.fst k → k ∈ l → (l.foldl (removeHash now) s).fst.get k = none) := by
  induction l generalizing s
  case nil => simp
  case cons hash l hi =>
    rw [foldl_cons]
    by_cases hd : Due now s.fst hash
    case neg =>
      rw [removeHash_not_due hd]
      have ⟨hm, hg, hn⟩ := hi s
      refine ⟨hm.trans ?_, hg, fun h hk => hn h ?_⟩
      all_goals grind
    case pos =>
      rw [removeHash_due hd]
      have ⟨hm, hg, hn⟩ := hi (s.fst.del hash, s.snd ++ [hash])
      by_cases he : k = hash
      case pos =>
        subst he
        have hs : ¬Due now (s.fst.del k) k := by simp [Due]
        exact ⟨by simp [hm, hd], fun h => absurd hd h, fun _ _ => (hg hs).trans GoMap.get_del_self⟩
      case neg =>
        have hs : Due now (s.fst.del hash) k ↔ Due now s.fst k := by
          simp only [Due, GoMap.get_del_ne he]
        rw [hs] at hm hg hn
        refine ⟨hm.trans (by simp [he]), fun h => (hg h).trans (GoMap.get_del_ne he), fun h hk => ?_⟩
        exact hn h <| (mem_cons.mp hk).resolve_left he

theorem mem_removeExpired :
    k ∈ (removeExpired order now hashes).snd ↔ Due now hashes k := by
  refine (foldl_removeHash _ _).left.trans ?_
  simp only [not_mem_nil, false_or, IterOrder.mem, GoMap.mem_keys, and_iff_right_iff_imp]
  rintro ⟨_, hg, _⟩
  exact GoMap.mem_of_get hg

theorem removeExpired_get_of_not_due (h : ¬Due now hashes k) :
    (removeExpired order now hashes).fst.get k = hashes.get k :=
  (foldl_removeHash _ _).right.left h

theorem removeExpired_get_of_due (h : Due now hashes k) :
    (removeExpired order now hashes).fst.get k = none := by
  have ⟨_, hg, _⟩ := h
  exact (foldl_removeHash _ _).right.right h <| (order.mem _ _).mpr (GoMap.mem_of_get hg)

def CalledAt (hashes : GoMap Hash GoTime) (ticks : List (IterOrder Hash × GoTime)) (i : Nat)
    (hash : Hash) : Prop :=
  ∃ calls, (removeTicks hashes ticks)[i]? = some calls ∧ hash ∈ calls

theorem not_calledAt_of_not_mem {i : Nat} (h : hashes.get hash = none) :
    ¬CalledAt hashes ticks i hash := by
  induction ticks generalizing hashes i
  case nil => simp [CalledAt, removeTicks]
  case cons tick ticks hi =>
    have hd : ¬Due tick.snd hashes hash := fun ⟨_, hg, _⟩ => by cases h.symm.trans hg
    cases i
    case zero   => simpa [CalledAt, removeTicks, mem_removeExpired] using hd
    case succ i => exact hi <| (removeExpired_get_of_not_due hd).trans h

-- The loop is right about the time it knows: the call is issued at the first tick later than two
-- weeks after it.
theorem calledAt_iff {i : Nat} (h : hashes.get hash = some receive) :
    CalledAt hashes ticks i hash ↔ (ticks.map Prod.snd).findIdx? (expires receive) = some i := by
  induction ticks generalizing hashes i
  case nil => simp [CalledAt, removeTicks]
  case cons tick ticks hi =>
    have hd : Due tick.snd hashes hash ↔ expires receive tick.snd := by simp [Due, h]
    have hz : CalledAt hashes (tick :: ticks) 0 hash ↔ expires receive tick.snd := by
      simp [CalledAt, removeTicks, mem_removeExpired, hd]
    rw [map_cons, List.findIdx?_cons]
    by_cases he : expires receive tick.snd
    case pos =>
      rw [if_pos he]
      cases i
      case zero   => simp [hz, he]
      case succ i =>
        have hr : (removeExpired tick.fst tick.snd hashes).fst.get hash = none :=
          removeExpired_get_of_due (hd.mpr he)
        have hn : ¬CalledAt (removeExpired tick.fst tick.snd hashes).fst ticks i hash :=
          not_calledAt_of_not_mem hr
        exact iff_of_false hn (by simp)
    case neg =>
      rw [if_neg he]
      cases i
      case zero   => simp [hz, he]
      case succ i =>
        have hr : (removeExpired tick.fst tick.snd hashes).fst.get hash = some receive :=
          (removeExpired_get_of_not_due (mt hd.mp he)).trans h
        exact (hi hr).trans (by simp)

def recordHashes (setBytes : SetBytes) (r : DARow) : List Hash := [
    bytesToHash (Hex.fromHex r.txHash),
    (setBytes (Hex.decodeString r.commitment).fst).fst.hash
  ]

-- The text of the time is not among the selected columns, and the empty text is no time.
theorem getAllDARecords_eq : getAllDARecords setBytes t = t.rows.map fun r =>
    { DA.zero with
      txHash := bytesToHash (Hex.fromHex r.txHash)
      commitment := (setBytes (Hex.decodeString r.commitment).fst).fst } :=
  rfl

theorem foldl_set_get {das : List DA} (hz : ∀ da ∈ das, da.receiveAt = .zero)
    (h : hashes.get hash = some .zero ∨
      ∃ da ∈ das, hash = da.txHash ∨ hash = da.commitment.hash) :
    (das.foldl (fun hashes da =>
      hashes.set da.txHash da.receiveAt |>.set da.commitment.hash da.receiveAt) hashes).get hash =
      some .zero := by
  induction das generalizing hashes
  case nil => simpa using h
  case cons da das hi =>
    have ⟨hd, hz⟩ := forall_mem_cons.mp hz
    refine hi hz ?_
    dsimp only
    rw [hd]
    simp only [GoMap.get_set, exists_mem_cons_iff] at h ⊢
    grind

-- All hashes of stored data are taken for expired ever since the year 1.
theorem initDiskCache_get {fp : FilePool} {r : DARow} (hb : fp.nodeType = "b") (hr : r ∈ t.rows)
    (hm : hash ∈ recordHashes setBytes r) :
    (fp.initDiskCache setBytes t).diskCache.get hash = some .zero := by
  rw [initDiskCache, if_pos hb, getAllDARecords_eq]
  refine foldl_set_get (by simp [DA.zero]) <| .inr ?_
  simp only [recordHashes, mem_cons, not_mem_nil, or_false] at hm
  exact ⟨_, mem_map_of_mem hr, hm⟩

-- Data that was received at `receive` is kept for two weeks, and deleted at the next tick.
structure Retained (hashes : GoMap Hash GoTime) (ticks : List (IterOrder Hash × GoTime))
    (receive : GoTime) (hash : Hash) : Prop where
  kept : ∀ i now, CalledAt hashes ticks i hash → (ticks.map Prod.snd)[i]? = some now →
    ¬now.before (receive.addSec retention)
  deleted : ∀ i, (ticks.map Prod.snd).findIdx? (expires receive) = some i →
    CalledAt hashes ticks i hash

-- The first tick later than two weeks after the zero time is also the first one for `receive`.
structure OnSchedule (ticks : List GoTime) (receive : GoTime) : Prop where
  kept : ∀ i now, ticks.findIdx? (expires .zero) = some i → ticks[i]? = some now →
    ¬now.before (receive.addSec retention)
  deleted : ∀ i, ticks.findIdx? (expires receive) = some i →
    ticks.findIdx? (expires .zero) = some i

theorem retained_iff (h : hashes.get hash = some .zero) :
    Retained hashes ticks receive hash ↔ OnSchedule (ticks.map Prod.snd) receive := by
  constructor
  case mp  => exact fun ⟨hk, hd⟩ => ⟨fun i now => hk i now ∘ (calledAt_iff h).mpr,
    fun i => (calledAt_iff h).mp ∘ hd i⟩
  case mpr => exact fun ⟨hk, hd⟩ => ⟨fun i now => hk i now ∘ (calledAt_iff h).mp,
    fun i => (calledAt_iff h).mpr ∘ hd i⟩

-- After a restart data is retained exactly if its time does not matter.
theorem retained_iff_onSchedule (setBytes : SetBytes) (t : Table DARow) (fp : FilePool)
    (hb : fp.nodeType = "b") (ticks : List (IterOrder Hash × GoTime)) :
    (∀ r ∈ t.rows, ∀ receive, GoTime.parse r.receiveAt = some receive →
      ∀ hash ∈ recordHashes setBytes r,
        Retained (fp.initDiskCache setBytes t).diskCache ticks receive hash) ↔
    ∀ r ∈ t.rows, ∀ receive, GoTime.parse r.receiveAt = some receive →
      OnSchedule (ticks.map Prod.snd) receive := by
  refine forall₄_congr fun r hr receive _ => ?_
  constructor
  case mp  =>
    intro h
    have hm : bytesToHash (Hex.fromHex r.txHash) ∈ recordHashes setBytes r := List.mem_cons_self
    exact (retained_iff <| initDiskCache_get hb hr hm).mp (h _ hm)
  case mpr => exact fun h hash hm => (retained_iff <| initDiskCache_get hb hr hm).mpr h

-- The only stored data was received in July 2024.
def july : GoTime :=
  .ofUnix 0 1720000000

def julyRow : DARow :=
  { DARow.zero with receiveAt := .ascii "2024-07-03T09:46:40Z" }

def julyPool : FilePool :=
  new DefaultConfig "" "b"

-- A single tick that comes some seconds later.
noncomputable def tickAfter (sec : Int) : List (IterOrder Hash × GoTime) :=
  [(.along [], july.addSec sec)]

theorem parse_julyRow : GoTime.parse julyRow.receiveAt = some july := by
  decide +kernel

-- Fifteen days later nothing is deleted too early any more.
theorem retained_july : .zero ∈ recordHashes (fun _ => (.zero, none)) julyRow ∧
    Retained (julyPool.initDiskCache (fun _ => (.zero, none)) [⟨julyRow, false⟩]).diskCache
      (tickAfter 1296000) july .zero := by
  have hs : OnSchedule [july.addSec 1296000] july := by
    constructor
    case kept =>
      intro i now _ hn
      have he : now = july.addSec 1296000 := mem_singleton.mp (mem_of_getElem? hn)
      exact he ▸ by decide
    case deleted =>
      intro i h
      exact h ▸ by decide
  have hm : .zero ∈ recordHashes (fun _ => (.zero, none)) julyRow := by decide
  refine ⟨hm, (retained_iff_onSchedule (fun _ => (.zero, none)) [⟨julyRow, false⟩] julyPool rfl
    (tickAfter 1296000)).mpr ?_ julyRow (by simp [Table.rows]) july parse_julyRow .zero hm⟩
  intro r hr receive hp
  have he : r = julyRow := by simpa [Table.rows] using hr
  rw [he, parse_julyRow] at hp
  exact Option.some.inj hp ▸ hs

-- A minute later it is deleted already.
theorem not_retained_july :
    ¬∀ (setBytes : SetBytes) (t : Table DARow) (fp : FilePool), fp.nodeType = "b" →
      ∀ (ticks : List (IterOrder Hash × GoTime)), ∀ r ∈ t.rows, ∀ receive,
        GoTime.parse r.receiveAt = some receive → ∀ hash ∈ recordHashes setBytes r,
          Retained (fp.initDiskCache setBytes t).diskCache ticks receive hash := by
  intro h
  have hr : julyRow ∈ Table.rows [⟨julyRow, false⟩] := by simp [Table.rows]
  have hm : .zero ∈ recordHashes (fun _ => (.zero, none)) julyRow := by decide
  have hk := h (fun _ => (.zero, none)) [⟨julyRow, false⟩] julyPool rfl (tickAfter 60) julyRow hr july
    parse_julyRow _ hm |>.kept 0 (july.addSec 60)
  have hz : (julyPool.initDiskCache _ _).diskCache.get _ = some .zero := initDiskCache_get rfl hr hm
  have hi : ((tickAfter 60).map Prod.snd).findIdx? (expires .zero) = some 0 := by decide
  exact absurd (hk ((calledAt_iff hz).mpr hi) rfl) (by decide)

end FilePool
