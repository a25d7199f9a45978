import DomiconExec.Core.Forkid

namespace Forkid

open List

variable {config : ChainConfig} {genesis : Genesis} {forks blocks times : List UInt64}
variable {block time block' time' head : UInt64} {hash : UInt32} {id : ID} {f : Filter} {i k : Nat}
variable {e : UInt64 × UInt64}

structure Ordered (forks : List UInt64 × List UInt64) (genesis : UInt64) : Prop where
  blocks : forks.fst.Pairwise (· < ·)
  nonzero : 0 ∉ forks.fst
  times : forks.snd.Pairwise (· < ·)
  late : ∀ fork ∈ forks.snd, genesis < fork

theorem mem_dedupFrom {last fork : UInt64} (h : fork ∈ dedupFrom last forks) :
    fork = last ∨ fork ∈ forks := by
  induction forks generalizing last
  case nil => exact .inl (mem_singleton.mp h)
  case cons next forks hi =>
    unfold dedupFrom at h
    split at h
    case isTrue => exact (hi h).imp_right (mem_cons_of_mem next)
    case isFalse =>
      cases mem_cons.mp h
      case inl h => exact .inl h
      case inr h => exact .inr <| mem_cons.mpr (hi h)

theorem dedupFrom_sorted {last : UInt64} (h : (last :: forks).Pairwise (· ≤ ·)) :
    (dedupFrom last forks).Pairwise (· < ·) := by
  induction forks generalizing last
  case nil => exact pairwise_singleton ..
  case cons next forks hi =>
    obtain ⟨hl, hs⟩ := pairwise_cons.mp h
    have hn := (pairwise_cons.mp hs).left
    unfold dedupFrom
    split
    case isTrue he => exact hi (he ▸ hs)
    case isFalse hne =>
      have hlt := UInt64.lt_of_le_of_ne (hl next mem_cons_self) (Ne.symm hne)
      refine pairwise_cons.mpr ⟨fun fork hm => ?_, hi hs⟩
      cases mem_dedupFrom hm
      case inl he => exact he ▸ hlt
      case inr hm => exact UInt64.lt_of_lt_of_le hlt (hn fork hm)

theorem dedup_sorted (h : forks.Pairwise (· ≤ ·)) : (dedup forks).Pairwise (· < ·) := by
  cases forks
  case nil  => exact .nil
  case cons => exact dedupFrom_sorted h

theorem skipZero_sorted (h : forks.Pairwise (· < ·)) :
    (skipZero forks).Pairwise (· < ·) ∧ 0 ∉ skipZero forks := by
  cases forks
  case nil => exact ⟨.nil, not_mem_nil⟩
  case cons fork forks =>
    obtain ⟨hf, hs⟩ := pairwise_cons.mp h
    have hz : 0 ∉ forks := fun hm => UInt64.not_lt_zero (hf 0 hm)
    by_cases he : fork = 0
    case pos => rw [skipZero, if_pos he]; exact ⟨hs, hz⟩
    case neg => rw [skipZero, if_neg he]; exact ⟨h, by simp [Ne.symm he, hz]⟩

theorem dropWhile_late {genesis : UInt64} (h : forks.Pairwise (· < ·)) :
    ∀ fork ∈ forks.dropWhile (· ≤ genesis), genesis < fork := by
  induction forks
  case nil => exact fun _ hm => absurd hm List.not_mem_nil
  case cons next forks hi =>
    obtain ⟨hn, hs⟩ := pairwise_cons.mp h
    rw [dropWhile_cons]
    split
    case isTrue => exact hi hs
    case isFalse hg =>
      have hlt : genesis < next := by simpa using hg
      intro fork hm
      cases mem_cons.mp hm
      case inl he => exact he ▸ hlt
      case inr hm => exact UInt64.lt_trans hlt (hn fork hm)

theorem gatherForks_ordered (config : ChainConfig) (genesis : UInt64) :
    Ordered (gatherForks config genesis) genesis := by
  have hs (l : List UInt64) : (dedup (l.insertionSort (· ≤ ·))).Pairwise (· < ·) :=
    dedup_sorted (pairwise_insertionSort (· ≤ ·) l)
  have hb := skipZero_sorted <| hs (config.blockRules.filterMap (Option.map uint64))
  have ht := hs (config.timeRules.filterMap id)
  exact ⟨hb.left, hb.right, ht.sublist (dropWhile_sublist _), dropWhile_late ht⟩

def compared (blocks times : List UInt64) (block time : UInt64) : List (UInt64 × UInt64) :=
  blocks.map (·, block) ++ times.map (·, time)

def passed (blocks times : List UInt64) (block time : UInt64) : Nat :=
  ((compared blocks times block time).takeWhile fun e => e.fst ≤ e.snd).length

theorem compared_forks : (compared blocks times block time).map Prod.fst = blocks ++ times := by
  simp [compared, Function.comp_def]

theorem passed_le : passed blocks times block time ≤ (blocks ++ times).length := by
  rw [← @compared_forks _ _ block time, length_map]
  exact (takeWhile_sublist _).length_le

theorem passForks_eq : passForks head hash forks =
    ((forks.takeWhile (· ≤ head)).foldl checksumUpdate hash,
      forks[(forks.takeWhile (· ≤ head)).length]?) := by
  induction forks generalizing hash
  case nil => rfl
  case cons fork forks hi =>
    unfold passForks
    split
    case isTrue h  => simp [h, hi]
    case isFalse h => simp [h]

theorem takeWhile_compared (forks : List UInt64) (head : UInt64) :
    ((forks.map (·, head)).takeWhile fun e => e.fst ≤ e.snd).length =
      (forks.takeWhile (· ≤ head)).length := by
  rw [takeWhile_map, length_map]
  rfl

-- The forks by block number up to the first that was not passed, and those by time if there is
-- none.
theorem passed_eq : passed blocks times block time =
    if (blocks.takeWhile (· ≤ block)).length = blocks.length then
      blocks.length + (times.takeWhile (· ≤ time)).length
    else
      (blocks.takeWhile (· ≤ block)).length := by
  rw [passed, compared, takeWhile_append, takeWhile_compared, length_map]
  split
  case isTrue  => rw [length_append, length_map, takeWhile_compared]
  case isFalse => exact takeWhile_compared ..

theorem take_takeWhile (p : UInt64 → Bool) : forks.take (forks.takeWhile p).length = forks.takeWhile p :=
  (prefix_iff_eq_take.mp (List.takeWhile_prefix p)).symm

theorem newID_eq (h : gatherForks config genesis.time = (blocks, times)) :
    newID config genesis block time =
      ⟨checksumToBytes <| ((blocks ++ times).take (passed blocks times block time)).foldl
        checksumUpdate (checksumIEEE genesis.hash.val),
        (blocks ++ times)[passed blocks times block time]?.getD 0⟩ := by
  have ht := (List.takeWhile_prefix (l := blocks) (· ≤ block)).length_le
  rw [passed_eq]
  simp only [newID, h, passForks_eq]
  split
  case h_1 hash fork he =>
    obtain ⟨rfl, hf⟩ := Prod.mk.inj he
    have hlt := (List.getElem?_eq_some_iff.mp hf).choose
    rw [if_neg hlt.ne, take_append_of_le_length ht, take_takeWhile,
      List.getElem?_append_left hlt, hf]
    rfl
  case h_2 hash he =>
    obtain ⟨rfl, hn⟩ := Prod.mk.inj he
    have hl := le_antisymm ht (List.getElem?_eq_none_iff.mp hn)
    have hw : blocks.takeWhile (· ≤ block) = blocks := by
      rw [← take_takeWhile, hl, take_length]
    rw [if_pos hl, take_length_add_append, take_takeWhile, foldl_append, hw,
      List.getElem?_append_right (Nat.le_add_right ..), Nat.add_sub_cancel_left]
    split
    all_goals
      rename_i he
      obtain ⟨rfl, hf⟩ := Prod.mk.inj he
      rw [hf]
      rfl

theorem getElem?_checksums (h : k ≤ forks.length) :
    (checksums hash forks)[k]? = some ((forks.take k).foldl checksumUpdate hash) := by
  induction forks generalizing hash k
  case nil =>
    obtain rfl := Nat.le_zero.mp h
    rfl
  case cons fork forks hi =>
    cases k
    case zero   => rfl
    case succ k => exact hi (Nat.le_of_succ_le_succ h)

theorem checksumToBytes_injective : Function.Injective checksumToBytes := by
  intro a b h
  have hv := congrArg Subtype.val h
  simp only [checksumToBytes, putUint32, List.cons.injEq, ← UInt8.toNat_inj, UInt32.toNat_toUInt8,
    UInt32.toNat_shiftRight, Nat.shiftRight_eq_div_pow] at hv
  refine UInt32.toNat_inj.mp ?_
  have ha := a.toNat_lt
  have hb := b.toNat_lt
  simp at hv
  omega

-- The loop of the filter comes to a decision at the first fork that was not passed.
theorem loop_eq {es : List (UInt64 × UInt64)}
    (hh : ∀ j e, es[j]? = some e → e.snd = if i + j ≥ f.blocks then time else block)
    (hk : es[(es.takeWhile fun e => e.fst ≤ e.snd).length]? = some e) :
    f.loop block time id i (es.map Prod.fst) =
      f.decideAt e.snd time (i + (es.takeWhile fun e => e.fst ≤ e.snd).length) id := by
  induction es generalizing i
  case nil => contradiction
  case cons e' es hi =>
    have h₀ := hh 0 e' rfl
    rw [Nat.add_zero] at h₀
    rw [map_cons, Filter.loop, ← h₀]
    by_cases hp : e'.fst ≤ e'.snd
    case pos =>
      rw [takeWhile_cons_of_pos (by simpa using hp), length_cons] at hk ⊢
      rw [if_pos hp, hi (fun j e hj => ?_) hk, Nat.add_assoc, Nat.add_comm 1]
      rw [hh (j + 1) e hj, Nat.add_assoc, Nat.add_comm 1]
    case neg =>
      rw [takeWhile_cons_of_neg (by simpa using hp)] at hk ⊢
      obtain rfl : e' = e := Option.some.inj hk
      rw [if_neg hp]
      rfl

-- The forks of a filter with the numbers they are compared with. Without forks by time, this is the
-- block number at the end.
def sentried (blocks times : List UInt64) (block time : UInt64) : List (UInt64 × UInt64) :=
  compared blocks times block time ++ [(maxUint64, if times.length = 0 then block else time)]

theorem sentried_passed (hb : block < maxUint64) (ht : time < maxUint64) :
    ((sentried blocks times block time).takeWhile fun e => e.fst ≤ e.snd).length =
      passed blocks times block time := by
  have hm : ¬maxUint64 ≤ (if times.length = 0 then block else time) := by
    split
    case isTrue  => exact UInt64.not_le.mpr hb
    case isFalse => exact UInt64.not_le.mpr ht
  rw [sentried, takeWhile_append, passed]
  split
  case isTrue he => rw [takeWhile_cons_of_neg (by simpa using hm), append_nil, he]
  case isFalse   => rfl

theorem sentried_head {j : Nat} (h : (sentried blocks times block time)[j]? = some e) :
    e.snd = if j ≥ (if times.length = 0 then blocks.length + 1 else blocks.length) then time
      else block := by
  unfold sentried compared at h
  have hlt := (List.getElem?_eq_some_iff.mp h).choose
  simp only [length_append, length_map, length_singleton] at hlt
  by_cases hj : j < blocks.length
  case pos =>
    rw [append_assoc, List.getElem?_append_left (by simpa using hj), List.getElem?_map,
      List.getElem?_eq_getElem hj] at h
    obtain rfl := Option.some.inj h
    rw [if_neg]
    split <;> omega
  case neg =>
    rw [append_assoc, List.getElem?_append_right (by simpa using hj), length_map] at h
    by_cases ht : times.length = 0
    case pos =>
      obtain rfl := length_eq_zero_iff.mp ht
      obtain rfl : j = blocks.length := by
        rw [length_nil] at hlt
        omega
      simp only [Nat.sub_self, map_nil, nil_append, length_nil, if_true] at h ⊢
      obtain rfl := Option.some.inj h
      rw [if_neg (by omega)]
    case neg =>
      simp only [ht, if_false] at h ⊢
      rw [if_pos (by omega)]
      have hs : ∀ e ∈ times.map (·, time) ++ [(maxUint64, time)], e.snd = time := by
        intro e he
        obtain he | he := mem_append.mp he
        case inl =>
          obtain ⟨_, -, rfl⟩ := mem_map.mp he
          rfl
        case inr => rw [mem_singleton.mp he]
      exact hs e (mem_of_getElem? h)

theorem sums_iff {j : Nat} (hn : (checksums hash forks).Nodup) (hk : k ≤ forks.length) :
    ((checksums hash forks).map checksumToBytes)[j]? =
      some (checksumToBytes ((forks.take k).foldl checksumUpdate hash)) ↔ j = k := by
  have hs : (checksums hash forks)[k]? = _ := getElem?_checksums hk
  have hm := List.Nodup.map checksumToBytes_injective hn
  have hkm : ((checksums hash forks).map checksumToBytes)[k]? =
      some (checksumToBytes ((forks.take k).foldl checksumUpdate hash)) := by
    rw [List.getElem?_map, hs]
    rfl
  rw [← hkm]
  rw [eq_comm, List.getElem?_inj (List.getElem?_eq_some_iff.mp hkm).choose hm, eq_comm]

-- The decision of a node that has passed `k` forks, for an identifier of one that has passed `k'`.
theorem decideAt_ok {k' : Nat} {sums : List (ByteArr 4)} {n : Nat}
    (hs : sums = (checksums hash forks).map checksumToBytes) (hn : (checksums hash forks).Nodup)
    (hk : k ≤ forks.length) (hk' : k' ≤ forks.length)
    (hnext : ∀ next, forks[k]? = some next →
      head < next ∧ (next ≤ timestampThreshold ∨ time < next)) :
    Filter.decideAt ⟨forks ++ [maxUint64], sums, n⟩ head time k
      ⟨checksumToBytes ((forks.take k').foldl checksumUpdate hash), forks[k']?.getD 0⟩ = .ok () := by
  have hsum (j : Nat) := @sums_iff forks hash k' j hn hk'
  simp only [Filter.decideAt, hs, hsum]
  obtain hlt | rfl | hlt := Nat.lt_trichotomy k' k
  case inl =>
    have hf : (List.range k).find? (fun j => decide (j = k')) = some k' := by
      refine List.find?_range_eq_some.mpr ⟨decide_eq_true rfl, mem_range.mpr hlt, fun j hj => ?_⟩
      simpa using Nat.ne_of_lt hj
    have hl : k' < forks.length := Nat.lt_of_lt_of_le hlt hk
    rw [if_neg (Nat.ne_of_gt hlt), hf]
    simp [List.getElem?_append_left hl, List.getElem?_eq_getElem hl]
  case inr.inl =>
    rw [if_pos rfl, if_neg]
    rintro ⟨hpos, hh⟩
    cases hk : forks[k']?
    case none => simp [hk] at hpos
    case some next =>
      obtain ⟨hlt, hle⟩ := hnext next hk
      rw [hk, Option.getD_some] at hh
      obtain hge | ⟨hgt, hge⟩ := hh
      case inl => exact UInt64.not_le.mpr hlt hge
      case inr =>
        cases hle
        case inl hle => exact UInt64.not_lt.mpr hle hgt
        case inr hlt => exact UInt64.not_le.mpr hlt hge
  case inr.inr =>
    have hf : (List.range k).find? (fun j => decide (j = k')) = none := by
      refine List.find?_eq_none.mpr fun j hj => ?_
      have := mem_range.mp hj
      simp
      omega
    have hm := mem_of_getElem? <| (List.getElem?_drop ..).trans <|
      (congrArg _ <| Nat.add_sub_of_le hlt).trans ((hsum k').mpr rfl)
    rw [if_neg (Nat.ne_of_lt hlt), hf]
    exact if_pos <| any_eq_true.mpr ⟨_, hm, decide_eq_true rfl⟩

theorem not_of_getElem?_takeWhile {α : Type} {p : α → Bool} {l : List α} {a : α}
    (h : l[(l.takeWhile p).length]? = some a) : ¬p a := by
  induction l
  case nil => contradiction
  case cons b l hi =>
    by_cases hb : p b
    case pos =>
      rw [takeWhile_cons_of_pos hb] at h
      exact hi h
    case neg =>
      rw [takeWhile_cons_of_neg hb] at h
      exact Option.some.inj h ▸ hb

theorem next_of_passed {next : UInt64} (hf : ∀ fork ∈ blocks, fork ≤ timestampThreshold)
    (hb : block < maxUint64)
    (ht : time < maxUint64)
    (he : (sentried blocks times block time)[passed blocks times block time]? = some e)
    (h : (blocks ++ times)[passed blocks times block time]? = some next) :
    e.snd < next ∧ (next ≤ timestampThreshold ∨ time < next) := by
  have hp := @sentried_passed blocks times _ _ hb ht
  generalize passed blocks times block time = k at *
  have hk := (List.getElem?_eq_some_iff.mp h).choose
  have hfst : e.fst = next := by
    rw [← @compared_forks _ _ block time, List.getElem?_map, Option.map_eq_some_iff] at h
    obtain ⟨e', he', rfl⟩ := h
    have hlt := (List.getElem?_eq_some_iff.mp he').choose
    rw [sentried, List.getElem?_append_left hlt, he'] at he
    exact congrArg Prod.fst (Option.some.inj he).symm
  have hlt : e.snd < next := by
    have hn := not_of_getElem?_takeWhile (hp.symm ▸ he)
    rw [decide_eq_true_eq, hfst] at hn
    exact UInt64.not_le.mp hn
  refine ⟨hlt, ?_⟩
  by_cases hl : k < blocks.length
  case pos =>
    rw [List.getElem?_append_left hl] at h
    exact .inl <| hf next (mem_of_getElem? h)
  case neg =>
    rw [length_append] at hk
    rw [sentried_head he, if_neg (show ¬times.length = 0 by omega), if_pos (Nat.le_of_not_lt hl)] at hlt
    exact .inr hlt

theorem check_newID (hf : ∀ fork ∈ (gatherForks config genesis.time).fst, fork ≤ timestampThreshold)
    (hb : block < maxUint64) (ht : time < maxUint64)
    (hd : (checksums (checksumIEEE genesis.hash.val) ((gatherForks config genesis.time).fst ++
      (gatherForks config genesis.time).snd)).Nodup) :
    (newFilter config genesis).check block time (newID config genesis block' time') = .ok () := by
  obtain ⟨⟨blocks, times⟩, hg⟩ : ∃ forks, gatherForks config genesis.time = forks := ⟨_, rfl⟩
  rw [hg] at hf hd
  have hp := @sentried_passed blocks times _ _ hb ht
  have hl : passed blocks times block time < (sentried blocks times block time).length := by
    have hle := @passed_le blocks times block time
    rw [← @compared_forks _ _ block time, length_map] at hle
    rw [sentried, length_append]
    exact Nat.lt_succ_of_le hle
  obtain ⟨e, he⟩ : ∃ e, (sentried blocks times block time)[passed blocks times block time]? = some e :=
    ⟨_, List.getElem?_eq_getElem hl⟩
  have hforks : (sentried blocks times block time).map Prod.fst = blocks ++ times ++ [maxUint64] := by
    rw [sentried, map_append, compared_forks]
    rfl
  have hheads (j : Nat) (e : UInt64 × UInt64)
      (h : (sentried blocks times block time)[j]? = some e) :
      e.snd = if 0 + j ≥ (newFilter config genesis).blocks then time else block := by
    simp only [newFilter, hg, Nat.zero_add]
    exact sentried_head h
  have hall : (newFilter config genesis).forks = (sentried blocks times block time).map Prod.fst := by
    simp only [newFilter, hg, hforks]
  rw [Filter.check, hall, loop_eq hheads (hp.symm ▸ he), hp, Nat.zero_add, newID_eq hg]
  simp only [newFilter, hg]
  exact decideAt_ok rfl hd passed_le passed_le fun next => next_of_passed hf hb ht he

theorem compatible (config : ChainConfig) (genesis : Genesis) (block time block' time' : UInt64)
    (hf : ∀ fork ∈ (gatherForks config genesis.time).fst, fork ≤ timestampThreshold)
    (hb : block < maxUint64) (ht : time < maxUint64)
    (hd : (checksums (checksumIEEE genesis.hash.val) ((gatherForks config genesis.time).fst ++
      (gatherForks config genesis.time).snd)).Nodup) :
    (newFilter config genesis).check block time (newID config genesis block' time') = .ok () ∧
      Ordered (gatherForks config genesis.time) genesis.time :=
  ⟨check_newID hf hb ht hd, gatherForks_ordered config genesis.time⟩

theorem gatherForks_sample :
    gatherForks { homesteadBlock := some 10, londonBlock := some 0, canyonTime := some 1700000000 }
      5 = ([10], [1700000000]) := by
  decide +kernel

theorem compatible_sample :
    (newFilter { homesteadBlock := some 10, londonBlock := some 0, canyonTime := some 1700000000 }
      ⟨.zero, 5⟩).check 8 1600000000
      (newID { homesteadBlock := some 10, londonBlock := some 0, canyonTime := some 1700000000 }
        ⟨.zero, 5⟩ 20 1700000001) = .ok () ∧
      Ordered (gatherForks
        { homesteadBlock := some 10, londonBlock := some 0, canyonTime := some 1700000000 } 5) 5 := by
  refine compatible _ _ _ _ _ _ ?_ (by decide) (by decide) ?_
  all_goals rw [gatherForks_sample]
  case refine_1 => exact forall_mem_singleton.mpr (by decide)
  case refine_2 => decide +kernel
end Forkid
