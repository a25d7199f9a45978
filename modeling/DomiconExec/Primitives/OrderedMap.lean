import DomiconExec.Primitives.Bytes
import DomiconExec.Primitives.GoMap
import DomiconExec.Primitives.GoSlice
import DomiconExec.Primitives.Loop

open List

-- A map that also keeps its keys, in the order in which they were added.
structure OrderedMap (κ ν : Type) where
  keys : List κ
  values : GoMap κ ν

namespace OrderedMap

variable {κ ν : Type}

def empty : OrderedMap κ ν where
  keys := []
  values := ∅

variable [DecidableEq κ]

def set (om : OrderedMap κ ν) (key : κ) (v : ν) : OrderedMap κ ν where
  keys := if key ∈ om.values then om.keys else om.keys ++ [key]
  values := om.values.set key v

def get (om : OrderedMap κ ν) (key : κ) : Option ν :=
  om.values.get key

theorem get_set {om : OrderedMap κ ν} {key key' : κ} {v : ν} :
    (om.set key v).get key' = if key' = key then some v else om.get key' :=
  GoMap.get_set

-- Each key of the map is listed once.
structure Listed (om : OrderedMap κ ν) : Prop where
  nodup : om.keys.Nodup
  mem : ∀ key, key ∈ om.keys ↔ key ∈ om.values

theorem Listed.empty : (empty : OrderedMap κ ν).Listed where
  nodup := List.nodup_nil
  mem key := by simp [OrderedMap.empty]

variable {om : OrderedMap κ ν} {key key' : κ} {v : ν}

theorem mem_keys_set (l : om.Listed) : key' ∈ (om.set key v).keys ↔ key' = key ∨ key' ∈ om.keys := by
  simp only [set]
  split
  case isTrue h =>
    rw [← l.mem] at h
    exact ⟨.inr, fun h' => h'.elim (fun he => he ▸ h) id⟩
  case isFalse => simp [or_comm]

theorem keys_set_of_get (h : om.get key ≠ none) : (om.set key v).keys = om.keys :=
  if_pos (GoMap.mem_iff.mpr (Option.ne_none_iff_exists'.mp h))

theorem keys_set_of_get_eq_none (h : om.get key = none) :
    (om.set key v).keys = om.keys ++ [key] :=
  if_neg (GoMap.get_eq_none.mp h)

theorem Listed.mem_keys_iff (l : om.Listed) : key ∈ om.keys ↔ om.get key ≠ none :=
  (l.mem key).trans (GoMap.mem_iff.trans Option.ne_none_iff_exists'.symm)

theorem Listed.set (l : om.Listed) : (om.set key v).Listed where
  nodup := by
    simp only [OrderedMap.set]
    split
    case isTrue => exact l.nodup
    case isFalse h =>
      rw [← l.mem] at h
      exact concat_eq_append ▸ l.nodup.concat h
  mem key' := by
    rw [mem_keys_set l, l.mem]
    exact GoMap.mem_set.symm

-- The map with the array behind its slice of keys. Who asked for the keys looks at the same array.
structure Backed (κ ν : Type) where
  array : List κ
  len : Nat
  values : GoMap κ ν

namespace Backed

variable {om : Backed κ ν}

def toOrderedMap (om : Backed κ ν) : OrderedMap κ ν where
  keys := om.array.take om.len
  values := om.values

-- The key is written behind the others, or all keys move to a larger array, whose rest is `spare`.
def set (om : Backed κ ν) (key : κ) (v : ν) (spare : List κ) : Backed κ ν :=
  let values := om.values.set key v
  if key ∈ om.values then
    { om with values }
  else
    let rest := if om.len < om.array.length then om.array.drop (om.len + 1) else spare
    { array := om.array.take om.len ++ key :: rest, len := om.len + 1, values }

theorem set_toOrderedMap {spare : List κ} (hl : om.len ≤ om.array.length) :
    (om.set key v spare).len ≤ (om.set key v spare).array.length ∧
      (om.set key v spare).toOrderedMap = om.toOrderedMap.set key v := by
  unfold set
  dsimp only
  split
  case isTrue h => exact ⟨hl, by simp [toOrderedMap, OrderedMap.set, h]⟩
  case isFalse h =>
    have hk : (om.array.take om.len).length = om.len := length_take_of_le hl
    refine ⟨by simp [hk], ?_⟩
    simp [toOrderedMap, OrderedMap.set, h, take_append, hk]

-- The body of the loop of `Del`.
def delAt (key : κ) (om : Backed κ ν) (i : Nat) : Except GoPanic (Backed κ ν) :=
  if om.array[i]? = some key then
    if i < om.len then
      .ok { om with array := GoSlice.cut om.array om.len i, len := om.len - 1 }
    else
      .error .indexOutOfRange
  else
    .ok om

-- The loop goes on behind the deleted key, up to the length that the slice had at first.
def del (om : Backed κ ν) (key : κ) : Except GoPanic (Backed κ ν) :=
  (List.range om.len).foldlM (delAt key) { om with values := om.values.del key }

theorem delAt_of_ne {i : Nat} (h : om.array[i]? ≠ some key) :
    delAt key om i = .ok om :=
  if_neg h

-- A key that is listed once is deleted properly. The last key of the slice stays behind its end.
theorem del_append {l r spare : List κ} {values : GoMap κ ν} (hl : key ∉ l) (hr : key ∉ r) :
    (Backed.mk (l ++ key :: r ++ spare) (l.length + r.length + 1) values).del key =
      .ok ⟨l ++ r ++ ((key :: r).drop r.length ++ spare), l.length + r.length, values.del key⟩ := by
  rw [del, Loop.range_around, foldlM_append]
  -- The keys before it are skipped.
  have h₁ : (List.range l.length).foldlM (delAt key)
      ⟨l ++ key :: r ++ spare, l.length + r.length + 1, values.del key⟩ =
      .ok ⟨l ++ key :: r ++ spare, l.length + r.length + 1, values.del key⟩ := by
    refine Loop.foldlM_fixed fun i hi => delAt_of_ne ?_
    have hi := mem_range.mp hi
    rw [append_assoc, List.getElem?_append_left hi, List.getElem?_eq_getElem hi]
    exact fun he => hl (Option.some.inj he ▸ getElem_mem hi)
  have h₂ : delAt key (Backed.mk (l ++ key :: r ++ spare) (l.length + r.length + 1)
      (values.del key)) l.length =
      .ok ⟨l ++ r ++ ((key :: r).drop r.length ++ spare), l.length + r.length, values.del key⟩ := by
    have hk : (l ++ key :: r ++ spare)[l.length]? = some key := by simp
    have hn : l.length < l.length + r.length + 1 := by omega
    simp only [delAt, hk, hn, if_true, GoSlice.cut_append, Nat.add_sub_cancel]
  -- None of those behind it is equal to it.
  have h₃ : ((List.range r.length).map (l.length + 1 + ·)).foldlM (delAt key)
      ⟨l ++ r ++ ((key :: r).drop r.length ++ spare), l.length + r.length, values.del key⟩ =
      .ok ⟨l ++ r ++ ((key :: r).drop r.length ++ spare), l.length + r.length, values.del key⟩ := by
    refine Loop.foldlM_fixed fun i hi => delAt_of_ne fun he => ?_
    obtain ⟨j, hj, rfl⟩ := mem_map.mp hi
    have hj := mem_range.mp hj
    rw [append_assoc, Nat.add_assoc, List.getElem?_append_right (Nat.le_add_right ..),
      Nat.add_sub_cancel_left] at he
    have hne : r ≠ [] := ne_nil_of_length_pos (Nat.zero_lt_of_lt hj)
    exact hr <| GoSlice.mem_of_getElem?_stale hne (by omega) he
  rw [h₁, Loop.bind_of_eq_ok rfl, foldlM_cons, h₂, Loop.bind_of_eq_ok rfl, h₃]

theorem del_of_not_mem (h : key ∉ om.array.take om.len) :
    om.del key = .ok { om with values := om.values.del key } := by
  refine Loop.foldlM_fixed fun i hi => delAt_of_ne fun he => h ?_
  refine mem_iff_getElem?.mpr ⟨i, ?_⟩
  rw [List.getElem?_take, if_pos (mem_range.mp hi)]
  exact he

-- If no key is listed twice, then the deletion does not fail and removes the key.
theorem del_ok (om : Backed κ ν) (key : κ) (hl : om.len ≤ om.array.length)
    (hn : (om.array.take om.len).Nodup) : ∃ om', om.del key = .ok om' ∧
      om'.array.length = om.array.length ∧ om'.len ≤ om.len ∧
      om'.toOrderedMap = ⟨om.toOrderedMap.keys.erase key, om.values.del key⟩ := by
  by_cases hk : key ∈ om.array.take om.len
  case neg =>
    refine ⟨_, del_of_not_mem hk, rfl, Nat.le_refl _, ?_⟩
    simp only [toOrderedMap, erase_of_not_mem hk]
  case pos =>
    obtain ⟨l, r, he⟩ := mem_iff_append.mp hk
    obtain ⟨hx, hr, hd⟩ := nodup_append.mp (he ▸ hn)
    have hlen : om.len = l.length + r.length + 1 := by
      have := congrArg List.length he
      rw [length_take, Nat.min_eq_left hl] at this
      simpa [Nat.add_assoc] using this
    have ho : om = ⟨l ++ key :: r ++ om.array.drop om.len, l.length + r.length + 1, om.values⟩ := by
      rw [← he, take_append_drop, ← hlen]
    have hl' : key ∉ l := fun h => hd key h key mem_cons_self rfl
    refine ⟨_, ho ▸ del_append hl' (nodup_cons.mp hr).left, ?_, ?_, ?_⟩
    case refine_1 =>
      have hs : l.length + r.length + 1 ≤ om.array.length := hlen ▸ hl
      simp [hlen]
      omega
    case refine_2 => exact hlen ▸ Nat.le_succ _
    case refine_3 =>
      simp only [toOrderedMap, he]
      rw [← length_append, take_left, erase_append_right _ hl', erase_cons_head]

theorem del_mem_drop {om' : Backed κ ν} {n q : Nat} (hn : om.len ≤ n) (ha : n ≤ om.array.length)
    (h : om.del key = .ok om') :
    om'.len ≤ n ∧ n ≤ om'.array.length ∧
      ∀ x ∈ (om'.array.take n).drop q, x ∈ (om.array.take n).drop q := by
  unfold del at h
  refine Loop.foldlM_preserves (fun s : Backed κ ν => s.len ≤ n ∧ n ≤ s.array.length ∧
    ∀ x ∈ (s.array.take n).drop q, x ∈ (om.array.take n).drop q) ?_ ?_ h
  case refine_1 =>
    rintro i - s s' ⟨hl, ha, hx⟩ he
    simp only [delAt] at he
    split_ifs at he with hk hi
    case neg =>
      cases he
      exact ⟨hl, ha, hx⟩
    case pos =>
      cases he
      refine ⟨(Nat.sub_le _ _).trans hl, ?_, fun x h => hx x (GoSlice.mem_drop_cut hi hl ha h)⟩
      rwa [GoSlice.length_cut hi (hl.trans ha)]
  case refine_2 => exact ⟨hn, ha, fun _ hx => hx⟩

end Backed
end OrderedMap
