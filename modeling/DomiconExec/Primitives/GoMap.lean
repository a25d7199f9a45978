import Mathlib.Data.Finmap

-- A finite map with the operations of Go's built-in `map` type. Reading a missing key is modelled
-- by `none`, writing always succeeds and deleting a missing key does nothing.
def GoMap (K V : Type) :=
  Finmap fun _ : K => V

namespace GoMap

variable {K V : Type} [DecidableEq K] {m m₁ m₂ : GoMap K V} {k k' : K} {v : V}

instance : EmptyCollection (GoMap K V) where
  emptyCollection := (∅ : Finmap _)

instance : Inhabited (GoMap K V) where
  default := ∅

instance [DecidableEq V] : DecidableEq (GoMap K V) :=
  inferInstanceAs <| DecidableEq (Finmap fun _ : K => V)

def get (m : GoMap K V) (k : K) : Option V :=
  Finmap.lookup k m

def set (m : GoMap K V) (k : K) (v : V) : GoMap K V :=
  Finmap.insert k v m

def del (m : GoMap K V) (k : K) : GoMap K V :=
  Finmap.erase k m

omit [DecidableEq K] in
def keys (m : GoMap K V) : Finset K :=
  Finmap.keys m

def len (m : GoMap K V) : Nat :=
  m.keys.card

instance : Membership K (GoMap K V) where
  mem m k := k ∈ m.keys

instance : Decidable (k ∈ m) :=
  inferInstanceAs <| Decidable (k ∈ m.keys)

omit [DecidableEq K] in
@[simp, grind =]
theorem mem_keys : k ∈ m.keys ↔ k ∈ m :=
  Iff.rfl

theorem mem_iff : k ∈ m ↔ ∃ v, m.get k = some v :=
  Finmap.mem_iff

@[grind →]
theorem mem_of_get (h : m.get k = some v) : k ∈ m :=
  mem_iff.mpr ⟨_, h⟩

@[simp]
theorem get_eq_none : m.get k = none ↔ k ∉ m :=
  Finmap.lookup_eq_none

@[ext]
theorem ext (h : ∀ k, m₁.get k = m₂.get k) : m₁ = m₂ :=
  Finmap.ext_lookup h

@[simp, grind =]
theorem get_empty : (∅ : GoMap K V).get k = none :=
  Finmap.lookup_empty _

@[grind →]
theorem get_of_not_mem (h : k ∉ m) : m.get k = none :=
  get_eq_none.mpr h

@[grind →]
theorem not_mem_of_get (h : m.get k = none) : k ∉ m :=
  get_eq_none.mp h

@[simp]
theorem not_mem_empty : k ∉ (∅ : GoMap K V) := by
  simp [← get_eq_none]

@[grind =]
theorem get_set : (m.set k v).get k' = if k' = k then some v else m.get k' := by
  split
  case isTrue h  => subst h; exact Finmap.lookup_insert _
  case isFalse h => exact Finmap.lookup_insert_of_ne _ h

@[simp]
theorem get_set_self : (m.set k v).get k = some v := by
  simp [get_set]

theorem get_set_ne (h : k' ≠ k) : (m.set k v).get k' = m.get k' := by
  simp [get_set, h]

@[grind =]
theorem get_del : (m.del k).get k' = if k' = k then none else m.get k' := by
  split
  case isTrue h  => subst h; exact Finmap.lookup_erase ..
  case isFalse h => exact Finmap.lookup_erase_ne h

@[simp]
theorem get_del_self : (m.del k).get k = none := by
  simp [get_del]

theorem get_del_ne (h : k' ≠ k) : (m.del k).get k' = m.get k' := by
  simp [get_del, h]

@[simp, grind =]
theorem mem_set : k' ∈ m.set k v ↔ k' = k ∨ k' ∈ m :=
  Finmap.mem_insert

@[simp, grind =]
theorem mem_del : k' ∈ m.del k ↔ k' ≠ k ∧ k' ∈ m :=
  Finmap.mem_erase

theorem del_of_not_mem (h : k ∉ m) : m.del k = m := by
  ext1 k'
  rw [get_del]
  split
  case isTrue h'  => exact h' ▸ (get_eq_none.mpr h).symm
  case isFalse h' => rfl

theorem keys_set : (m.set k v).keys = insert k m.keys := by
  ext; simp

theorem len_eq_zero : m.len = 0 ↔ ∀ k, m.get k = none := by
  simp [len, Finset.eq_empty_iff_forall_notMem]

def values [DecidableEq V] (m : GoMap K V) : Finset V :=
  m.keys.biUnion fun k => (m.get k).toFinset

theorem mem_values [DecidableEq V] : v ∈ m.values ↔ ∃ k, m.get k = some v := by
  simp only [values, Finset.mem_biUnion, mem_keys, Option.mem_toFinset, Option.mem_def]
  exact ⟨fun ⟨k, _, h⟩ => ⟨k, h⟩, fun ⟨k, h⟩ => ⟨k, mem_of_get h, h⟩⟩

-- The number of keys with values that satisfy `p`.
def countP (p : V → Bool) (m : GoMap K V) : Nat :=
  (m.keys.filter fun k => (m.get k).any p).card

variable {p : V → Bool}

theorem countP_set (h : k ∉ m) : (m.set k v).countP p = m.countP p + if p v then 1 else 0 := by
  have hm : (m.keys.filter fun k' => ((m.set k v).get k').any p) =
      m.keys.filter fun k' => (m.get k').any p := by
    refine Finset.filter_congr fun k' hk => ?_
    have hn : k' ≠ k := fun he => h (he ▸ hk)
    rw [get_set_ne hn]
  rw [countP, keys_set, Finset.filter_insert, hm, get_set_self, Option.any_some]
  split
  case isTrue  => exact Finset.card_insert_of_notMem fun hk => h (Finset.mem_filter.mp hk).left
  case isFalse => rfl

theorem set_del (h : m.get k = some v) : (m.del k).set k v = m := by
  ext1 k'
  by_cases he : k' = k
  case pos => rw [he, get_set_self, h]
  case neg => rw [get_set_ne he, get_del_ne he]

theorem countP_del (h : m.get k = some v) :
    m.countP p = (m.del k).countP p + if p v then 1 else 0 := by
  have hd : k ∉ m.del k := not_mem_of_get get_del_self
  rw [← countP_set hd, set_del h]

end GoMap

-- The order in which one `range` loop visits the keys, which the language leaves open. So each loop
-- of the model takes an order as an argument.
structure IterOrder (K : Type) where
  list : Finset K → List K
  nodup : ∀ s, (list s).Nodup
  mem : ∀ s k, k ∈ list s ↔ k ∈ s

namespace IterOrder

variable {K : Type} [DecidableEq K]

attribute [simp, grind =] mem

-- The order that follows a given list wherever this list covers all keys.
noncomputable def along (l : List K) : IterOrder K where
  list s := if s ⊆ l.toFinset then l.dedup.filter (· ∈ s) else s.toList
  nodup s := by
    split
    case isTrue  => exact l.nodup_dedup.filter _
    case isFalse => exact s.nodup_toList
  mem s k := by
    split
    case isFalse  => exact Finset.mem_toList
    case isTrue h =>
      simp only [List.mem_filter, List.mem_dedup, decide_eq_true_eq, and_iff_right_iff_imp]
      exact fun hk => List.mem_toFinset.mp (h hk)

-- An order that visits a given key first.
noncomputable def leading (k : K) : IterOrder K where
  list s := if k ∈ s then k :: (s.erase k).toList else s.toList
  nodup s := by
    split
    case isTrue  => simp [Finset.nodup_toList]
    case isFalse => exact s.nodup_toList
  mem s k' := by
    split
    case isFalse  => exact Finset.mem_toList
    case isTrue h =>
      simp only [List.mem_cons, Finset.mem_toList, Finset.mem_erase]
      by_cases he : k' = k <;> simp [he, h]

theorem leading_list {k : K} {s : Finset K} (h : k ∈ s) : ∃ l, (leading k).list s = k :: l :=
  ⟨_, if_pos h⟩

end IterOrder
