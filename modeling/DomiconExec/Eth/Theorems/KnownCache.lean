import DomiconExec.Eth.Handler

namespace Eth.KnownCache

open List Transition.System

variable {k k' : KnownCache} {hashes last : List Hash} {kept : Finset Hash}

-- The first loop of `Add`, in which `Pop` takes out elements of its choice. The difference of
-- naturals is the larger one of zero and the difference of the source.
def evicting (k : KnownCache) (n : Nat) : Transition.System (Finset Hash) Hash Unit where
  init := k.hashes
  step s hash := if k.max - n < s.card ∧ hash ∈ s then .ok (s.erase hash) else .error ()

-- What a call of `Add` may result in. The loop ends as soon as its condition does not hold.
structure Adds (k : KnownCache) (hashes : List Hash) (k' : KnownCache) : Prop where
  evicted : ∃ kept, (k.evicting hashes.length).Reachable anyStep kept ∧
    ¬k.max - hashes.length < kept.card ∧
    k'.hashes = hashes.foldl (fun s hash => insert hash s) kept
  max_eq : k'.max = k.max

-- The caches after calls with at most `max` hashes each, together with the hashes of the last call.
inductive Reached (max : Nat) : List Hash → KnownCache → Prop
  | init : Reached max [] (newKnownCache max)
  | add {k k' : KnownCache} {last hashes : List Hash} :
    Reached max last k → hashes.length ≤ max → Adds k hashes k' → Reached max hashes k'

theorem evicting_step {n : Nat} {s s' : Finset Hash} {hash : Hash}
    (h : (k.evicting n).step s hash = .ok s') :
    k.max - n < s.card ∧ hash ∈ s ∧ s' = s.erase hash := by
  simp only [evicting] at h
  split at h
  case isFalse   => contradiction
  case isTrue hc => exact ⟨hc.left, hc.right, (Except.ok.inj h).symm⟩

theorem evicting_pop {n : Nat} {s : Finset Hash} {hash : Hash} (hc : k.max - n < s.card)
    (hm : hash ∈ s) : (k.evicting n).step s hash = .ok (s.erase hash) :=
  if_pos ⟨hc, hm⟩

theorem evicting_terminates (k : KnownCache) (n : Nat) : (k.evicting n).Terminates := by
  refine terminates_of_decreasing Finset.card fun s hash s' h => ?_
  obtain ⟨_, hm, rfl⟩ := evicting_step h
  exact Finset.card_erase_lt_of_mem hm

-- The loop only stops at its condition, since there is an element to pop as long as it holds.
theorem adds_exists (k : KnownCache) (hashes : List Hash) : ∃ k', Adds k hashes k' := by
  obtain ⟨kept, hr, hf⟩ := (evicting_terminates k hashes.length).exists_final
  refine ⟨⟨_, k.max⟩, ⟨kept, hr, fun hc => ?_, rfl⟩, rfl⟩
  obtain ⟨hash, hm⟩ := Finset.card_pos.mp (Nat.zero_lt_of_lt hc)
  exact hf hash _ (evicting_pop hc hm)

theorem foldl_insert : hashes.foldl (fun s hash => insert hash s) kept = kept ∪ hashes.toFinset := by
  induction hashes generalizing kept
  case nil => simp
  case cons hash hashes hi =>
    rw [foldl_cons, hi]
    ext
    simp only [Finset.mem_union, Finset.mem_insert, toFinset_cons]
    tauto

theorem reachable_of_append {n : Nat} {l r : List Hash} (hd : (l ++ r).Nodup)
    (hr : k.max - n ≤ r.length) (h : (k.evicting n).Reachable anyStep (l ++ r).toFinset) :
    (k.evicting n).Reachable anyStep r.toFinset := by
  induction l
  case nil => exact h
  case cons hash l hi =>
    rw [cons_append] at hd h
    obtain ⟨hn, hd'⟩ := nodup_cons.mp hd
    have he : (hash :: (l ++ r)).toFinset.erase hash = (l ++ r).toFinset := by
      rw [toFinset_cons, Finset.erase_insert (mt mem_toFinset.mp hn)]
    have hc : k.max - n < (hash :: (l ++ r)).toFinset.card := by
      rw [toFinset_card_of_nodup hd, length_cons, length_append]
      omega
    refine hi hd' <| h.step (e := hash) trivial ?_
    exact he ▸ evicting_pop hc (mem_toFinset.mpr mem_cons_self)

-- In the model that the handlers use, the elements are popped in the order in which they are
-- listed.
theorem adds_add (order : IterOrder Hash) (k : KnownCache) (hashes : List Hash) :
    Adds k hashes (k.add order hashes) := by
  have hd := order.nodup k.hashes
  have he : (order.list k.hashes).toFinset = k.hashes := by ext; simp
  have hl := he ▸ toFinset_card_of_nodup hd
  have hs := take_append_drop (k.hashes.card - (k.max - hashes.length)) (order.list k.hashes)
  by_cases hc : k.max - hashes.length ≤ k.hashes.card
  case pos =>
    refine ⟨⟨_, reachable_of_append (hs.symm ▸ hd) ?_ ?_, ?_, foldl_insert.symm⟩, rfl⟩
    case refine_1 =>
      rw [length_drop]
      omega
    case refine_2 => exact hs.symm ▸ he.symm ▸ .init
    case refine_3 =>
      rw [toFinset_card_of_nodup hd.drop, length_drop]
      omega
  case neg =>
    refine ⟨⟨k.hashes, .init, by omega, ?_⟩, rfl⟩
    rw [foldl_insert, add, Nat.sub_eq_zero_of_le (by omega), drop_zero, he]

theorem Reached.max_eq {n : Nat} (r : Reached n last k) : k.max = n := by
  induction r
  case init        => rfl
  case add ha hi => exact ha.max_eq.trans hi

theorem Adds.card_le (a : Adds k hashes k') (hl : hashes.length ≤ k.max) : k'.hashes.card ≤ k.max := by
  obtain ⟨kept, _, hc, he⟩ := a.evicted
  have hu := Finset.card_union_le kept hashes.toFinset
  have hs := toFinset_card_le hashes
  rw [he, foldl_insert]
  omega

-- After every call the cache is within its bound and has the hashes of the call, and the loop of
-- the next call comes to an end.
theorem card_le_and_contains (n : Nat) (last : List Hash) (k : KnownCache) (r : Reached n last k) :
    k.hashes.card ≤ n ∧ (∀ hash ∈ last, k.contains hash) ∧
      ∀ hashes, (k.evicting hashes.length).Terminates ∧ ∃ k', Adds k hashes k' := by
  refine ⟨?_, ?_, fun hashes => ⟨evicting_terminates k _, adds_exists k hashes⟩⟩
  all_goals cases r
  case refine_1.init           => simp [newKnownCache]
  case refine_1.add r hl ha    => exact r.max_eq ▸ ha.card_le (r.max_eq.symm ▸ hl)
  case refine_2.init           => simp
  case refine_2.add ha         =>
    obtain ⟨kept, _, _, he⟩ := ha.evicted
    intro hash hm
    simp [contains, he, foldl_insert, hm]

-- The cache is full when the third hash is added, which takes the place of the second one.
theorem card_le_and_contains_evicted :
    let full : KnownCache := ⟨{.fill 2, .fill 1}, 2⟩
    let evicted : KnownCache := ⟨{.fill 3, .fill 1}, 2⟩
    Reached 2 [.fill 1, .fill 2] full ∧ full.hashes.card = 2 ∧ Adds full [.fill 3] evicted ∧
      evicted.hashes.card ≤ 2 ∧ ∀ hash ∈ [.fill 3], evicted.contains hash := by
  intro full evicted
  have hf : Adds (newKnownCache 2) [.fill 1, .fill 2] full := ⟨⟨∅, .init, by decide, rfl⟩, rfl⟩
  have hp : (full.evicting 1).step full.hashes (.fill 2) = _ := evicting_pop (by decide)
    (by decide)
  have he : Adds full [.fill 3] evicted :=
    ⟨⟨full.hashes.erase (.fill 2), .step .init trivial hp, by decide, by decide⟩, rfl⟩
  have r : Reached 2 [.fill 1, .fill 2] full := .add .init (by decide) hf
  obtain ⟨hc, hm, _⟩ := card_le_and_contains 2 [.fill 3] evicted (.add r (by decide) he)
  exact ⟨r, by decide, he, hc, hm⟩

end Eth.KnownCache
