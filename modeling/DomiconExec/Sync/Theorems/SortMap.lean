import DomiconExec.Sync.Ethereum

namespace Sync.SortMap

open List OrderedMap

-- The calls that change an ordered map. If the array of its keys has to grow, the runtime allocates
-- more than what is needed.
inductive Call
  | set (key : String) (cbn : Option CommitDetail) (spare : List String)
  | del (key : String)

abbrev CommitMap :=
  Backed String (Option CommitDetail)

def machine : Transition.System CommitMap Call GoPanic where
  init := ⟨[], 0, ∅⟩
  step
    | om, .set key cbn spare => .ok (om.set key cbn spare)
    | om, .del key           => om.del key

-- The values in the order of the keys, where a missing one is nil.
def values (om : CommitMap) : List (Option CommitDetail) :=
  om.toOrderedMap.keys.map fun key => (om.values.get key).join

-- When a key was set for the first time since it was last deleted, for the calls in reverse order.
def firstSet : List Call → String → Option Nat
  | [], _                   => none
  | .set key' .. :: past, key =>
    if key = key' ∧ firstSet past key = none then some past.length else firstSet past key
  | .del key' :: past, key    => if key = key' then none else firstSet past key

variable {past : List Call} {om : CommitMap} {key : String} {cbn : Option CommitDetail}
  {spare : List String} {i : Nat}

theorem firstSet_lt (h : firstSet past key = some i) : i < past.length := by
  induction past <;> unfold firstSet at h
  case nil => contradiction
  case cons c past hi =>
    rw [length_cons]
    cases c <;> grind

structure Listing (past : List Call) (om : CommitMap) : Prop where
  fits : om.len ≤ om.array.length
  listed : om.toOrderedMap.Listed
  present : ∀ key, key ∈ om.toOrderedMap.keys ↔ firstSet past key ≠ none
  sorted : om.toOrderedMap.keys.Pairwise fun a b =>
    ∀ i ∈ firstSet past a, ∀ j ∈ firstSet past b, i < j

namespace Listing

theorem init : Listing [] machine.init where
  fits := Nat.le_refl _
  listed := .empty
  present _ := by simp [machine, Backed.toOrderedMap, firstSet]
  sorted := .nil

theorem set (l : Listing past om) : Listing (.set key cbn spare :: past) (om.set key cbn spare) := by
  obtain ⟨hf, he⟩ := @Backed.set_toOrderedMap _ _ _ key cbn om spare l.fits
  refine ⟨hf, he ▸ l.listed.set, fun k => ?_, ?_⟩
  case refine_1 =>
    rw [he, mem_keys_set l.listed, l.present, firstSet]
    grind
  case refine_2 =>
    rw [he]
    by_cases hk : key ∈ om.toOrderedMap.keys
    case pos =>
      -- A key that is set again keeps its place.
      rw [keys_set_of_get (l.listed.mem_keys_iff.mp hk)]
      have := (l.present key).mp hk
      refine l.sorted.imp fun h => ?_
      simp only [firstSet]
      grind
    case neg =>
      rw [keys_set_of_get_eq_none (not_not.mp (l.listed.mem_keys_iff.not.mp hk)), pairwise_append]
      have hn := not_not.mp ((l.present key).not.mp hk)
      refine ⟨l.sorted.imp_of_mem fun ha hb h => ?_, pairwise_singleton .., fun a ha b hb => ?_⟩
      all_goals simp only [firstSet]
      case refine_1 => grind
      case refine_2 =>
        rw [if_neg (by grind), mem_singleton.mp hb, if_pos ⟨rfl, hn⟩]
        intro i hi j hj
        exact Option.some.inj hj ▸ firstSet_lt hi

theorem del (l : Listing past om) :
    ∃ om', om.del key = .ok om' ∧ Listing (.del key :: past) om' := by
  obtain ⟨om', hd, ha, hl, he⟩ := om.del_ok key l.fits l.listed.nodup
  have mem k : k ∈ om'.toOrderedMap.keys ↔ k ≠ key ∧ k ∈ om.toOrderedMap.keys := by
    rw [he]
    exact l.listed.nodup.mem_erase_iff
  refine ⟨om', hd, (hl.trans l.fits).trans_eq ha.symm, ⟨?_, fun k => ?_⟩, fun k => ?_, ?_⟩
  case refine_1 => exact he ▸ l.listed.nodup.erase key
  case refine_2 =>
    rw [mem, l.listed.mem, he]
    exact GoMap.mem_del.symm
  case refine_3 =>
    rw [mem, l.present, firstSet]
    grind
  case refine_4 =>
    have hs : om'.toOrderedMap.keys.Sublist om.toOrderedMap.keys := he ▸ List.erase_sublist
    refine (l.sorted.sublist hs).imp fun h => ?_
    simp only [firstSet]
    grind

theorem run (calls : List Call) : ∃ om, machine.run machine.init calls = .ok om ∧
    Listing calls.reverse om := by
  induction calls using List.reverseRecOn
  case nil => exact ⟨_, rfl, .init⟩
  case append_singleton calls c hi =>
    obtain ⟨om, hr, l⟩ := hi
    have hs : machine.run machine.init (calls ++ [c]) = machine.step om c := by
      rw [Transition.System.run, foldlM_append]
      exact (Loop.bind_of_eq_ok hr).trans (bind_pure _)
    rw [hs, reverse_concat]
    cases c
    case set => exact ⟨_, rfl, l.set⟩
    case del => exact l.del

end Listing

-- The keys are listed once, in the order in which they were first set since their last deletion,
-- with their values.
theorem keys_in_order (calls : List Call) : ∃ om, machine.run machine.init calls = .ok om ∧
    om.toOrderedMap.keys.Nodup ∧
    (∀ key, key ∈ om.toOrderedMap.keys ↔ key ∈ om.values) ∧
    (∀ key, key ∈ om.toOrderedMap.keys ↔ firstSet calls.reverse key ≠ none) ∧
    (om.toOrderedMap.keys.Pairwise fun a b =>
      ∀ i ∈ firstSet calls.reverse a, ∀ j ∈ firstSet calls.reverse b, i < j) ∧
    om.toOrderedMap.keys.map om.values.get = (values om).map some := by
  obtain ⟨om, hr, l⟩ := Listing.run calls
  refine ⟨om, hr, l.listed.nodup, l.listed.mem, l.present, l.sorted, ?_⟩
  rw [values, map_map]
  refine map_congr_left fun key hk => ?_
  obtain ⟨cbn, hg⟩ : ∃ cbn, om.values.get key = some cbn :=
    GoMap.mem_iff.mp <| (l.listed.mem key).mp hk
  simp [hg]

end Sync.SortMap
