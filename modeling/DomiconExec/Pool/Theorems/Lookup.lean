import DomiconExec.Pool.Step

open List

def DA.keys (da : DA) : List Hash :=
  (if da.txHash ≠ .zero then [da.txHash] else []) ++
    if da.commitIsEmpty then [] else [da.commitment.hash]

theorem DA.mem_keys {da : DA} {k : Hash} (h : k ∈ da.keys) :
    k = da.txHash ∨ k = da.commitment.hash := by
  unfold DA.keys at h
  grind

namespace FilePool

variable {heap : Heap} {limit : UInt64} {fd : Ref} {da : DA}

namespace Lookup

variable {t : Lookup} {k : Hash}

@[simp]
theorem add_slots : (t.add fd da).slots = t.slots + 1 := by
  unfold add
  split_ifs <;> rfl

theorem add_get : (t.add fd da).get k = if k ∈ da.keys then some fd else t.get k := by
  by_cases ht : da.txHash = .zero <;> by_cases hc : da.commitIsEmpty <;>
    simp [add, get, DA.keys, ht, hc, GoMap.get_set]
  grind

-- The data is turned away, whether it is valid or not: its key is taken, or all slots are.
def Blocks (heap : Heap) (limit : UInt64) (t : Lookup) (fd : Ref) : Prop :=
  (t.get (heap fd).key).isSome ∨ UInt64.ofInt (t.slots + 1) > limit

instance : Decidable (t.Blocks heap limit fd) :=
  inferInstanceAs <| Decidable (_ ∨ _)

-- What the index of a pool with `limit` slots does with new data.
def enter (heap : Heap) (limit : UInt64) (t : Lookup) (fd : Ref) : Lookup :=
  if t.Blocks heap limit fd then t else t.add fd (heap fd)

theorem enter_of_blocks (h : t.Blocks heap limit fd) : t.enter heap limit fd = t :=
  if_pos h

theorem enter_of_not_blocks (h : ¬t.Blocks heap limit fd) :
    t.enter heap limit fd = t.add fd (heap fd) :=
  if_neg h

-- Data that is known by its commitment becomes known by its transaction hash only.
theorem enter_get_of_ne (hk : k ≠ (heap fd).txHash)
    (hc : t.get (heap fd).commitment.hash = some fd) : (t.enter heap limit fd).get k = t.get k := by
  unfold enter
  split
  case isTrue  => rfl
  case isFalse =>
    rw [add_get]
    split
    case isFalse    => rfl
    case isTrue hm =>
      cases DA.mem_keys hm
      case inl he => exact absurd he hk
      case inr he => exact (he ▸ hc).symm

theorem enter_get_of_some {g : Ref} (h : t.get k = some g)
    (hc : t.get (heap fd).commitment.hash = some fd) : (t.enter heap limit fd).get k = some g := by
  by_cases hk : k = (heap fd).txHash
  case neg => rw [enter_get_of_ne hk hc, h]
  case pos =>
    have hb : (t.get (heap fd).key).isSome := by
      unfold DA.key
      split
      case isTrue  => simp [← hk, h]
      case isFalse => simp [hc]
    rw [enter_of_blocks (.inl hb), h]

-- The data that is not turned away at its turn.
def admitted (heap : Heap) (limit : UInt64) : Lookup → List Ref → List Ref
  | _, [] => []
  | t, fd :: fds =>
    let rest := admitted heap limit (t.enter heap limit fd) fds
    if t.Blocks heap limit fd then rest else fd :: rest

theorem mem_admitted {fds : List Ref} : fd ∈ admitted heap limit t fds ↔
    ∃ l r, fds = l ++ fd :: r ∧ ¬(l.foldl (enter heap limit) t).Blocks heap limit fd := by
  induction fds generalizing t
  case nil => simp [admitted]
  case cons g fds hi =>
    -- Either the data comes first, or an occurrence among the rest counts.
    have : (∃ l r, g :: fds = l ++ fd :: r ∧ ¬(l.foldl (enter heap limit) t).Blocks heap limit fd) ↔
        (g = fd ∧ ¬t.Blocks heap limit g) ∨ fd ∈ admitted heap limit (t.enter heap limit g) fds := by
      rw [hi]
      constructor
      case mp =>
        rintro ⟨l, r, h, hb⟩
        cases l <;> simp only [nil_append, cons_append, List.cons.injEq] at h
        case nil      => exact .inl ⟨h.left, h.left ▸ hb⟩
        case cons _ l => exact .inr ⟨l, r, h.right, h.left ▸ hb⟩
      case mpr =>
        rintro (⟨h, hb⟩ | ⟨l, r, h, hb⟩)
        case inl => exact ⟨[], fds, h ▸ rfl, h ▸ hb⟩
        case inr => exact ⟨g :: l, r, h ▸ rfl, hb⟩
    rw [this, admitted]
    split
    case isTrue h  => simp [h]
    case isFalse h => simp [h, eq_comm]

theorem foldl_enter_slots (t : Lookup) (fds : List Ref) :
    (fds.foldl (enter heap limit) t).slots = t.slots + (admitted heap limit t fds).length := by
  induction fds generalizing t
  case nil => simp [admitted]
  case cons g fds hi =>
    rw [foldl_cons, hi, admitted]
    by_cases h : t.Blocks heap limit g
    case pos => simp [h, enter_of_blocks]
    case neg =>
      simp only [enter_of_not_blocks h, add_slots, h, if_false, length_cons, Nat.cast_add,
        Nat.cast_one]
      omega

theorem get_foldl_enter {fds : List Ref} (h : (fds.foldl (enter heap limit) t).get k = some fd) :
    t.get k = some fd ∨ fd ∈ admitted heap limit t fds := by
  induction fds generalizing t
  case nil => exact .inl h
  case cons g fds hi =>
    rw [admitted]
    by_cases hb : t.Blocks heap limit g
    case pos => simpa [hb, enter_of_blocks] using hi h
    case neg =>
      simp only [hb, if_false, mem_cons]
      cases hi h
      case inr h => exact .inr <| .inr h
      case inl h =>
        rw [enter_of_not_blocks hb, add_get] at h
        split at h
        case isTrue  => exact .inr <| .inl (Option.some.inj h).symm
        case isFalse => exact .inl h

theorem enter_get_isSome (h : (t.get k).isSome) : ((t.enter heap limit fd).get k).isSome := by
  unfold enter
  split
  case isTrue  => exact h
  case isFalse =>
    rw [add_get]
    split <;> simp [h]

-- Data whose key was taken from the start can be left out.
def Unknown (heap : Heap) (t : Lookup) (fd : Ref) : Bool :=
  (t.get (heap fd).key).isNone

theorem filter_unknown {t₀ : Lookup} {fds : List Ref}
    (h : ∀ k, (t₀.get k).isSome → (t.get k).isSome) :
    (fds.filter (t₀.Unknown heap)).foldl (enter heap limit) t = fds.foldl (enter heap limit) t ∧
      admitted heap limit t (fds.filter (t₀.Unknown heap)) = admitted heap limit t fds := by
  induction fds generalizing t
  case nil => exact ⟨rfl, rfl⟩
  case cons g fds hi =>
    by_cases hu : t₀.Unknown heap g
    case pos =>
      have ⟨hf, ha⟩ := @hi (t.enter heap limit g) fun k hk => enter_get_isSome (h k hk)
      simp only [filter_cons_of_pos hu, foldl_cons, admitted, hf, ha, and_self]
    case neg =>
      have hb : t.Blocks heap limit g :=
        .inl <| h _ (by simpa [Unknown, Option.isSome_iff_ne_none] using hu)
      simpa only [filter_cons_of_neg hu, foldl_cons, admitted, enter_of_blocks hb, hb,
        if_true] using hi h

end Lookup
end FilePool
