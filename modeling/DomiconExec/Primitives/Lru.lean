import Mathlib.Data.List.Basic

-- A cache that drops the least recently used entry. The entries begin with the latest.
structure Lru (K V : Type) where
  cap : Nat
  items : List (K × V)

namespace Lru

variable {K V : Type} [DecidableEq K] {c : Lru K V} {k : K} {v : V} {e : K × V}

omit [DecidableEq K] in
def empty (capacity : Nat) : Lru K V where
  cap := max capacity 1
  items := []

-- Moves an entry to the front.
def touch (c : Lru K V) (k : K) (v : V) : Lru K V :=
  { c with items := (k, v) :: c.items.filter (·.fst ≠ k) }

def get (c : Lru K V) (k : K) : Option V × Lru K V :=
  match c.items.find? (·.fst = k) with
  | none   => (none, c)
  | some e => (some e.snd, c.touch k e.snd)

def add (c : Lru K V) (k : K) (v : V) : Lru K V :=
  if c.items.any (·.fst = k) then
    c.touch k v
  else if c.items.length ≥ c.cap then
    { c with items := (k, v) :: c.items.dropLast }
  else
    { c with items := (k, v) :: c.items }

theorem mem_touch (h : e ∈ (c.touch k v).items) : e = (k, v) ∨ e ∈ c.items := by
  cases List.mem_cons.mp h
  case inl h => exact .inl h
  case inr h => exact .inr (List.mem_of_mem_filter h)

theorem mem_of_find (h : c.items.find? (·.fst = k) = some e) : (k, e.snd) ∈ c.items := by
  have hk : e.fst = k := by simpa using List.find?_some h
  exact hk ▸ List.mem_of_find?_eq_some h

theorem mem_of_get (h : (c.get k).fst = some v) : (k, v) ∈ c.items := by
  unfold get at h
  split at h
  case h_1 => cases h
  case h_2 hf =>
    cases h
    exact mem_of_find hf

theorem mem_get (h : e ∈ (c.get k).snd.items) : e ∈ c.items := by
  unfold get at h
  split at h
  case h_1 => exact h
  case h_2 hf =>
    cases mem_touch h
    case inl h => exact h ▸ mem_of_find hf
    case inr h => exact h

theorem get_snd_of_none (h : (c.get k).fst = none) : (c.get k).snd = c := by
  unfold get at h ⊢
  split
  case h_1 => rfl
  case h_2 hf =>
    rw [hf] at h
    cases h

theorem mem_add (h : e ∈ (c.add k v).items) : e = (k, v) ∨ e ∈ c.items := by
  unfold add at h
  split at h
  case isTrue => exact mem_touch h
  case isFalse =>
    split at h
    case isTrue  => exact (List.mem_cons.mp h).imp_right (List.dropLast_subset _ ·)
    case isFalse => exact List.mem_cons.mp h

end Lru
