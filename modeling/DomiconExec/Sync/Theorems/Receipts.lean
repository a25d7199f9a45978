import DomiconExec.Sync.Theorems.Accept

namespace Sync

open List Db OrderedMap

variable {env : Env} {values : GoMap Hash (Option CommitDetail)}
variable {l r rest spare : List Hash} {k y : Hash}

section Step

variable {s : Checked} {i : Nat}

theorem checkReceipt_some {rec : EthReceipt} (hg : s.commitCache.array[i]? = some k)
    (hk : receipt env k = some rec) :
    checkReceipt env s i = .ok ⟨s.commitCache, s.receipts.set i (some rec), s.asked ++ [k]⟩ := by
  simp only [checkReceipt, hg, hk]

theorem checkReceipt_none {cache : Backed Hash (Option CommitDetail)}
    (hg : s.commitCache.array[i]? = some k) (hk : receipt env k = none)
    (hd : s.commitCache.del k = .ok cache) :
    checkReceipt env s i = .ok ⟨cache, s.receipts, s.asked ++ [k]⟩ := by
  simp only [checkReceipt, hg, hk, hd]
  rfl

-- The loop before the first hash without a successful receipt: nothing was deleted yet.
theorem foldlM_checkReceipt {n m : Nat} (h : ∀ k ∈ l, (receipt env k).isSome) :
    (List.range l.length).foldlM (checkReceipt env)
      ⟨⟨l ++ rest, n, values⟩, List.replicate (l.length + m) none, []⟩ =
    .ok ⟨⟨l ++ rest, n, values⟩, l.map (receipt env) ++ List.replicate m none, l⟩ := by
  induction l using List.reverseRecOn generalizing m rest
  case nil => simp [pure, Except.pure]
  case append_singleton l k hi =>
    obtain ⟨h, hk⟩ := forall_mem_append.mp h
    obtain ⟨rec, hk⟩ := Option.isSome_iff_exists.mp <| hk k (mem_singleton_self k)
    have hn : (l ++ [k]).length + m = l.length + (m + 1) := by
      simp only [length_append, length_singleton]
      omega
    have hg : (l ++ ([k] ++ rest))[l.length]? = some k := by simp
    rw [length_append, length_singleton, range_succ, foldlM_append,
      ← length_singleton, ← length_append, hn, append_assoc, hi h,
      Loop.bind_of_eq_ok rfl, foldlM_cons, checkReceipt_some hg hk]
    simp [hk, pure, Except.pure, bind, Except.bind, replicate_succ]

end Step

-- The state of the loop after the first hash without a successful receipt.
def afterFailure (env : Env) (values : GoMap Hash (Option CommitDetail)) (l r spare : List Hash)
    (k : Hash) : Checked where
  commitCache := ⟨l ++ r ++ ((k :: r).drop r.length ++ spare), l.length + r.length, values.del k⟩
  receipts := l.map (receipt env) ++ List.replicate (r.length + 1) none
  asked := l ++ [k]

theorem checkReceipts_failure (hl : ∀ k ∈ l, (receipt env k).isSome) (hk : receipt env k = none)
    (hn : (l ++ k :: r).Nodup) :
    checkReceipts env ⟨l ++ k :: r ++ spare, (l ++ k :: r).length, values⟩ =
      ((List.range r.length).map (l.length + 1 + ·)).foldlM (checkReceipt env)
        (afterFailure env values l r spare k) := by
  have hc : (l ++ k :: r).length = l.length + (r.length + 1) := by simp
  have hg : (l ++ k :: r ++ spare)[l.length]? = some k := by simp
  have hm : k ∉ l ∧ k ∉ r := by
    obtain ⟨_, hr, hd⟩ := nodup_append.mp hn
    exact ⟨fun h => hd k h k mem_cons_self rfl, (nodup_cons.mp hr).left⟩
  have hd := @Backed.del_append _ _ _ k l r spare values hm.left hm.right
  rw [checkReceipts, hc, ← Nat.add_assoc, Loop.range_around, foldlM_append, Nat.add_assoc,
    append_assoc, foldlM_checkReceipt hl, Loop.bind_of_eq_ok rfl, foldlM_cons,
    ← append_assoc, checkReceipt_none hg hk hd]
  rfl

-- The place of the first hash without a successful receipt stays nil.
theorem none_mem_receipts {c : Checked}
    (h : ((List.range r.length).map (l.length + 1 + ·)).foldlM (checkReceipt env)
      (afterFailure env values l r spare k) = .ok c) : none ∈ c.receipts := by
  refine mem_of_getElem? (i := l.length) <| Loop.foldlM_preserves
    (fun s : Checked => s.receipts[l.length]? = some none) ?_ ?_ h
  case refine_1 =>
    intro i hi s s' hs he
    obtain ⟨j, _, rfl⟩ := mem_map.mp hi
    simp only [checkReceipt] at he
    split at he
    case h_1 => cases he
    case h_2 =>
      split at he
      case h_1 =>
        cases he
        rw [List.getElem?_set_ne (by omega), hs]
      case h_2 =>
        obtain ⟨cache, -, he⟩ := Loop.bind_eq_ok he
        cases he
        exact hs
  case refine_2 => simp [afterFailure, replicate_succ]

-- The hash behind the first failure is skipped, unless it is the last one.
theorem not_mem_asked {c : Checked} (hn : (l ++ k :: y :: r).Nodup) (hr : r ≠ [])
    (h : ((List.range (r.length + 1)).map (l.length + 1 + ·)).foldlM (checkReceipt env)
      (afterFailure env values l (y :: r) spare k) = .ok c) : y ∉ c.asked := by
  obtain ⟨-, hk, hd⟩ := nodup_append.mp hn
  obtain ⟨hky, hy⟩ := nodup_cons.mp hk
  have hy := (nodup_cons.mp hy).left
  -- The hash is in front of all places that are still read.
  refine (Loop.foldlM_preserves (fun s : Checked => s.commitCache.len ≤ l.length + r.length + 2 ∧
    l.length + r.length + 2 ≤ s.commitCache.array.length ∧
    y ∉ (s.commitCache.array.take (l.length + r.length + 2)).drop (l.length + 1) ∧
    y ∉ s.asked) ?_ ?_ h).right.right.right
  case refine_1 =>
    rintro i hi s s' ⟨hl, ha, hm, hs⟩ he
    obtain ⟨j, hj, rfl⟩ := mem_map.mp hi
    have hj := mem_range.mp hj
    simp only [checkReceipt] at he
    split at he
    case h_1 => contradiction
    case h_2 x hx =>
      have hxy : x ≠ y := by
        rintro rfl
        refine hm <| mem_iff_getElem?.mpr ⟨j, ?_⟩
        rw [List.getElem?_drop, List.getElem?_take, if_pos (by omega)]
        exact hx
      have hs : y ∉ s.asked ++ [x] := by
        simpa [hs] using hxy.symm
      split at he
      case h_1 =>
        cases he
        exact ⟨hl, ha, hm, hs⟩
      case h_2 =>
        obtain ⟨cache, hc, he⟩ := Loop.bind_eq_ok he
        cases he
        obtain ⟨hl', ha', hm'⟩ := @Backed.del_mem_drop _ _ _ x s.commitCache cache _
          (l.length + 1) hl ha hc
        exact ⟨hl', ha', fun h => hm (hm' y h), hs⟩
  case refine_2 =>
    refine ⟨?_, ?_, fun h => ?_, ?_⟩
    case refine_1 =>
      simp only [afterFailure, length_cons]
      omega
    case refine_2 =>
      simp only [afterFailure, length_append, length_cons, length_drop]
      omega
    case refine_3 =>
      obtain ⟨j, hj⟩ := mem_iff_getElem?.mp h
      rw [List.getElem?_drop, List.getElem?_take] at hj
      split at hj
      case isFalse => contradiction
      case isTrue hn =>
        simp only [afterFailure, append_assoc] at hj
        rw [Nat.add_assoc, List.getElem?_append_right (Nat.le_add_right ..),
          Nat.add_sub_cancel_left, Nat.add_comm, cons_append, List.getElem?_cons_succ] at hj
        exact hy <| GoSlice.mem_of_getElem?_stale hr (by omega) hj
    case refine_4 =>
      have hl : y ∉ l := fun h => hd y h y (by simp) rfl
      have hk : y ≠ k := fun he => hky (he ▸ mem_cons_self)
      simpa [afterFailure, hk] using hl

section Filter

-- The receipt of each hash was asked for once, and the hashes with a successful one are left with
-- it.
structure Filtered (env : Env) (om : Backed Hash (Option CommitDetail)) (c : Checked) : Prop where
  asked : c.asked.Perm om.toOrderedMap.keys
  keys : c.commitCache.toOrderedMap.keys =
    om.toOrderedMap.keys.filter fun k => (receipt env k).isSome
  get : ∀ k, c.commitCache.toOrderedMap.get k =
    if (receipt env k).isSome then om.toOrderedMap.get k else none
  receipts : c.receipts.filterMap id = om.toOrderedMap.keys.filterMap (receipt env)

variable {ks : List Hash}

-- The map with the keys `ks`, in an array with some places to spare.
abbrev backed (ks spare : List Hash) (values : GoMap Hash (Option CommitDetail)) :
    Backed Hash (Option CommitDetail) :=
  ⟨ks ++ spare, ks.length, values⟩

theorem backed_keys : (backed ks spare values).toOrderedMap.keys = ks :=
  List.take_left

theorem exists_backed {om : Backed Hash (Option CommitDetail)} (hl : om.len ≤ om.array.length) :
    ∃ ks spare values, om = backed ks spare values :=
  ⟨om.array.take om.len, om.array.drop om.len, om.values, by simp [backed, hl]⟩

theorem backed_nodup (ho : (backed ks spare values).toOrderedMap.Listed) : ks.Nodup :=
  @backed_keys values spare ks ▸ ho.nodup

theorem filtered_of {cache : Backed Hash (Option CommitDetail)} {failed : List Hash}
    (ho : (backed ks spare values).toOrderedMap.Listed)
    (hf : ∀ k, k ∈ failed ↔ k ∈ ks ∧ receipt env k = none)
    (hk : cache.toOrderedMap.keys = ks.filter fun k => (receipt env k).isSome)
    (hg : ∀ k, cache.values.get k = if k ∈ failed then none else values.get k) :
    Filtered env (backed ks spare values) ⟨cache, ks.map (receipt env), ks⟩ where
  asked := .of_eq backed_keys.symm
  keys := backed_keys.symm ▸ hk
  receipts := by simp [backed_keys]
  get k := by
    refine (hg k).trans ?_
    by_cases hr : receipt env k = none
    case neg =>
      rw [if_neg fun hm => hr ((hf k).mp hm).right, if_pos (Option.isSome_iff_ne_none.mpr hr)]
      rfl
    case pos =>
      simp only [hr, Option.isSome_none, Bool.false_eq_true, if_false, ite_eq_left_iff]
      intro hm
      have hn : k ∉ ks := fun h => hm ((hf k).mpr ⟨h, hr⟩)
      rw [← @backed_keys values spare ks, ho.mem] at hn
      exact GoMap.get_of_not_mem hn

theorem exists_first_failure (env : Env) (ks : List Hash) : (∀ k ∈ ks, (receipt env k).isSome) ∨
    ∃ l k r, ks = l ++ k :: r ∧ (∀ k ∈ l, (receipt env k).isSome) ∧ receipt env k = none := by
  cases h : ks.find? fun k => (receipt env k).isNone
  case none   =>
    rw [List.find?_eq_none] at h
    exact .inl fun k hk => by simpa [Option.isSome_iff_ne_none] using h k hk
  case some k =>
    obtain ⟨hk, l, r, he, hl⟩ := List.find?_eq_some_iff_append.mp h
    refine .inr ⟨l, k, r, he, fun k hk => ?_, by simpa using hk⟩
    simpa [Option.isSome_iff_ne_none] using hl k hk

theorem checkReceipts_success (h : ∀ k ∈ ks, (receipt env k).isSome) :
    checkReceipts env (backed ks spare values) =
      .ok ⟨backed ks spare values, ks.map (receipt env), ks⟩ := by
  have hc := @foldlM_checkReceipt env values ks spare ks.length 0 h
  rwa [Nat.add_zero, replicate_zero, append_nil] at hc

theorem filtered_of_success (ho : (backed ks spare values).toOrderedMap.Listed)
    (h : ∀ k ∈ ks, (receipt env k).isSome) :
    ∃ c, checkReceipts env (backed ks spare values) = .ok c ∧
      Filtered env (backed ks spare values) c := by
  refine ⟨_, checkReceipts_success h, @filtered_of _ _ _ _ _ [] ho (fun k => ?_) ?_ (fun _ => rfl)⟩
  case refine_1 =>
    refine iff_of_false not_mem_nil ?_
    rintro ⟨hm, hn⟩
    exact absurd (h k hm) (by simp [hn])
  case refine_2 => exact backed_keys.trans (filter_eq_self.mpr h).symm

-- Unless all receipts are there, the logs cannot be collected. So it makes no difference that
-- `processBlocks` keeps the cache as it was.
theorem collectLogs_checkReceipts_iff {cache : Backed Hash (Option CommitDetail)} {logs : List EthLog}
    (ho : (backed ks spare values).toOrderedMap.Listed) :
    (∃ c, checkReceipts env (backed ks spare values) = .ok c ∧ c.commitCache = cache ∧
      collectLogs c.receipts = .ok logs) ↔
    cache = backed ks spare values ∧ collectLogs (ks.map (receipt env)) = .ok logs := by
  obtain h | ⟨l, k, r, rfl, hs, hk⟩ := exists_first_failure env ks
  case inl =>
    rw [checkReceipts_success h]
    constructor
    case mp =>
      rintro ⟨_, ⟨⟩, rfl, hl⟩
      exact ⟨rfl, hl⟩
    case mpr =>
      rintro ⟨rfl, hl⟩
      exact ⟨_, rfl, rfl, hl⟩
  case inr =>
    refine iff_of_false ?_ ?_
    case refine_1 =>
      rintro ⟨c, hc, -, hl⟩
      rw [checkReceipts_failure hs hk (backed_nodup ho)] at hc
      exact ne_none_of_collectLogs hl _ (none_mem_receipts hc) rfl
    case refine_2 =>
      rintro ⟨-, hl⟩
      exact ne_none_of_collectLogs hl _ (mem_map_of_mem (a := k) (by simp)) hk

variable (hl : ∀ k ∈ l, (receipt env k).isSome) (hk : receipt env k = none)

include hl in
theorem mem_failed {tail : List Hash} (k : Hash) :
    k ∈ l ++ tail ∧ receipt env k = none ↔ k ∈ tail ∧ receipt env k = none := by
  refine and_congr_left fun hn => ?_
  rw [mem_append, or_iff_right]
  exact fun hm => absurd (hl k hm) (by simp [hn])

include hl hk

theorem filtered_of_last (ho : (backed (l ++ [k]) spare values).toOrderedMap.Listed) :
    ∃ c, checkReceipts env (backed (l ++ [k]) spare values) = .ok c ∧
      Filtered env (backed (l ++ [k]) spare values) c := by
  have hr : l.map (receipt env) ++ [none] = (l ++ [k]).map (receipt env) := by simp [hk]
  refine ⟨_, checkReceipts_failure hl hk (backed_nodup ho), ?_⟩
  simp only [afterFailure, length_nil, Nat.zero_add, replicate_one, hr]
  refine @filtered_of _ _ _ _ _ [k] ho (fun k' => ?_) ?_ (fun k' => ?_)
  case refine_1 =>
    rw [mem_failed hl]
    aesop
  case refine_2 => simp [Backed.toOrderedMap, hk, filter_eq_self.mpr hl]
  case refine_3 => simp [GoMap.get_del]

-- The last hash but one is deleted properly, since the last one is found where it was.
theorem filtered_of_last_but_one (ho : (backed (l ++ [k, y]) spare values).toOrderedMap.Listed) :
    ∃ c, checkReceipts env (backed (l ++ [k, y]) spare values) = .ok c ∧
      Filtered env (backed (l ++ [k, y]) spare values) c := by
  have hn := backed_nodup ho
  have hg : (afterFailure env values l [y] spare k).commitCache.array[l.length + 1]? = some y := by
    simp [afterFailure]
  have ha : l ++ [k] ++ [y] = l ++ [k, y] := by simp
  have hc := @checkReceipts_failure env values l [y] spare k hl hk hn
  cases hy : receipt env y
  case some rec =>
    have hr : (l.map (receipt env) ++ [none, none]).set (l.length + 1) (some rec) =
        (l ++ [k, y]).map (receipt env) := by simp [hk, hy]
    refine ⟨_, hc.trans <| Loop.bind_of_eq_ok (checkReceipt_some hg hy), ?_⟩
    simp only [afterFailure, length_singleton, List.replicate, hr, ha]
    refine @filtered_of _ _ _ _ _ [k] ho (fun k' => ?_) ?_ (fun k' => ?_)
    case refine_1 =>
      rw [mem_failed hl]
      aesop
    case refine_2 =>
      simp [Backed.toOrderedMap, hk, hy, filter_eq_self.mpr hl, take_append]
    case refine_3 => simp [GoMap.get_del]
  case none =>
    have hm : y ∉ l := fun h => by
      have := hl y h
      simp [hy] at this
    have hr : l.map (receipt env) ++ [none, none] = (l ++ [k, y]).map (receipt env) := by
      simp [hk, hy]
    have hd := @Backed.del_append _ _ _ y l [] ([y] ++ spare) (values.del k) hm List.not_mem_nil
    refine ⟨_, hc.trans <| Loop.bind_of_eq_ok (checkReceipt_none hg hy hd), ?_⟩
    simp only [afterFailure, length_singleton, List.replicate, hr, ha]
    refine @filtered_of _ _ _ _ _ [k, y] ho (fun k' => ?_) ?_ (fun k' => ?_)
    case refine_1 =>
      rw [mem_failed hl]
      aesop
    case refine_2 => simp [Backed.toOrderedMap, hk, hy, filter_eq_self.mpr hl]
    case refine_3 =>
      simp only [GoMap.get_del, mem_cons, not_mem_nil, or_false]
      aesop

omit hl hk

-- The hash behind the first failure is never asked for, unless at most one hash is left.
theorem not_filtered (hl : ∀ k ∈ l, (receipt env k).isSome) (hk : receipt env k = none)
    (hn : (l ++ k :: y :: r).Nodup) (hr : r ≠ []) :
    ¬∃ c, checkReceipts env (backed (l ++ k :: y :: r) spare values) = .ok c ∧
      Filtered env (backed (l ++ k :: y :: r) spare values) c := by
  rintro ⟨c, hc, hf⟩
  rw [checkReceipts_failure hl hk hn] at hc
  refine not_mem_asked hn hr hc (hf.asked.mem_iff.mpr ?_)
  rw [backed_keys]
  simp

-- The loop works exactly if only the last two hashes may lack a successful receipt.
theorem filtered_iff (env : Env) (om : Backed Hash (Option CommitDetail))
    (hl : om.len ≤ om.array.length) (ho : om.toOrderedMap.Listed) :
    (∃ c, checkReceipts env om = .ok c ∧ Filtered env om c) ↔
      ∀ k ∈ om.toOrderedMap.keys.take (om.len - 2), (receipt env k).isSome := by
  obtain ⟨ks, spare, values, rfl⟩ := exists_backed hl
  rw [backed_keys]
  obtain h | ⟨l, k, r, rfl, hs, hk⟩ := exists_first_failure env ks
  case inl =>
    exact iff_of_true (filtered_of_success ho h) fun k hm => h k (mem_of_mem_take hm)
  case inr =>
    rcases r with _ | ⟨y, _ | ⟨z, r⟩⟩
    case nil =>
      refine iff_of_true (filtered_of_last hs hk ho) fun k' hm => hs k' ?_
      rw [take_append_of_le_length (by simp)] at hm
      exact mem_of_mem_take hm
    case cons.nil =>
      refine iff_of_true (filtered_of_last_but_one hs hk ho) fun k' hm => hs k' ?_
      rw [take_append_of_le_length (by simp)] at hm
      exact mem_of_mem_take hm
    case cons.cons =>
      refine iff_of_false (not_filtered hs hk (backed_nodup ho) (cons_ne_nil z r)) fun h => ?_
      have hm : k ∈ (l ++ k :: y :: z :: r).take ((l ++ k :: y :: z :: r).length - 2) := by
        refine mem_iff_getElem?.mpr ⟨l.length, ?_⟩
        rw [List.getElem?_take, if_pos (by simp only [length_append, length_cons]; omega)]
        simp
      exact absurd (h k hm) (by simp [hk])

def listing (ks : List Hash) : OrderedMap Hash (Option CommitDetail) :=
  ks.foldl (fun om k => om.set k none) .empty

theorem listing_listed (ks : List Hash) : (listing ks).Listed := by
  unfold listing
  induction ks using List.reverseRecOn
  case nil => exact .empty
  case append_singleton ks k hi =>
    rw [foldl_append]
    exact hi.set

-- Neither of two hashes has a receipt.
theorem filtered_pair :
    ∃ c, checkReceipts idle (backed [.fill 1, .fill 2] [] (listing [.fill 1, .fill 2]).values) =
        .ok c ∧
      Filtered idle (backed [.fill 1, .fill 2] [] (listing [.fill 1, .fill 2]).values) c := by
  refine (filtered_iff idle _ (by decide) ?_).mpr (by decide)
  exact listing_listed [.fill 1, .fill 2]

-- The second one of three hashes is never asked for.
theorem not_filtered_triple :
    ¬∀ (env : Env) (om : Backed Hash (Option CommitDetail)), om.len ≤ om.array.length →
      om.toOrderedMap.Listed → ∃ c, checkReceipts env om = .ok c ∧ Filtered env om c := by
  intro h
  refine @not_filtered idle (listing [.fill 1, .fill 2, .fill 3]).values [] [.fill 3] [] (.fill 1)
    (.fill 2) (by simp) rfl (by decide) (by simp) ?_
  exact h idle _ (by decide) (listing_listed [.fill 1, .fill 2, .fill 3])

end Filter

end Sync
