import DomiconExec.Primitives.Bytes
import DomiconExec.Primitives.GoMap
import DomiconExec.Primitives.Loop

namespace Sync

-- A slice of keys, together with the indices at which it was accessed so far.
structure KeySlice where
  arr : List Int64
  accessed : List Int

namespace KeySlice

def read (s : KeySlice) (i : Int) : Except GoPanic (Int64 × KeySlice) :=
  match if i < 0 then none else s.arr[i.toNat]? with
  | none   => .error .indexOutOfRange
  | some x => .ok (x, { s with accessed := i :: s.accessed })

def write (s : KeySlice) (i : Int) (x : Int64) : Except GoPanic KeySlice :=
  if 0 ≤ i ∧ i < s.arr.length then
    .ok { arr := s.arr.set i.toNat x, accessed := i :: s.accessed }
  else
    .error .indexOutOfRange

-- The assignment `arr[i], arr[j] = arr[j], arr[i]`.
def swap (s : KeySlice) (i j : Int) : Except GoPanic KeySlice := do
  let (x, s) ← s.read j
  let (y, s) ← s.read i
  let s ← s.write i x
  s.write j y

-- The body of the loop of `partition`, at the index `j = left + d`.
def partitionStep (pivot : Int64) (left : Int) : Int × KeySlice → Nat →
    Except GoPanic (Int × KeySlice)
  | (i, s), d => do
    let (x, s) ← s.read (left + d)
    if x < pivot then
      return (i + 1, ← s.swap (i + 1) (left + d))
    return (i, s)

def partition (s : KeySlice) (left right : Int) : Except GoPanic (Int × KeySlice) := do
  let (pivot, s) ← s.read right
  let (i, s) ← (List.range (right - left).toNat).foldlM (partitionStep pivot left) (left - 1, s)
  return (i + 1, ← s.swap (i + 1) right)

theorem partitionStep_fst {pivot : Int64} {left : Int} {d : Nat} {v v' : Int × KeySlice}
    (h : partitionStep pivot left v d = .ok v') : v'.fst = v.fst ∨ v'.fst = v.fst + 1 := by
  obtain ⟨i, s⟩ := v
  obtain ⟨⟨x, s₁⟩, _, h⟩ := Loop.bind_eq_ok h
  dsimp only at h
  split at h
  case isFalse =>
    cases h
    exact .inl rfl
  case isTrue =>
    obtain ⟨s₂, _, h⟩ := Loop.bind_eq_ok h
    cases h
    exact .inr rfl

theorem foldlM_partitionStep_fst {pivot : Int64} {left : Int} {l : List Nat}
    {v v' : Int × KeySlice} (h : l.foldlM (partitionStep pivot left) v = .ok v') :
    v.fst ≤ v'.fst ∧ v'.fst ≤ v.fst + l.length := by
  induction l generalizing v
  case nil =>
    cases h
    simp
  case cons d l hi =>
    obtain ⟨v₁, h₁, h⟩ := Loop.bind_eq_ok h
    have := partitionStep_fst h₁
    have := hi h
    rw [List.length_cons]
    omega

-- The pivot stays within the interval, which is what lets `quickSort` come to an end.
theorem partition_bounds {s s' : KeySlice} {left right p : Int} (hl : left < right)
    (h : partition s left right = .ok (p, s')) : left ≤ p ∧ p ≤ right := by
  obtain ⟨⟨pivot, s₁⟩, _, h⟩ := Loop.bind_eq_ok h
  obtain ⟨⟨i, s₂⟩, hf, h⟩ := Loop.bind_eq_ok h
  obtain ⟨s₃, _, h⟩ := Loop.bind_eq_ok h
  cases h
  have := foldlM_partitionStep_fst hf
  rw [List.length_range] at this
  omega

def quickSort (s : KeySlice) (left right : Int) : Except GoPanic KeySlice :=
  if _hl : left < right then
    match hp : partition s left right with
    | .error e         => .error e
    | .ok (pivot, s₁) => do
      let s₂ ← quickSort s₁ left (pivot - 1)
      quickSort s₂ (pivot + 1) right
  else
    .ok s
termination_by (right - left).toNat
decreasing_by
  all_goals
    have := partition_bounds _hl hp
    omega

end KeySlice

structure BtcSortCache (ν : Type) where
  keyList : List Int64
  cache : GoMap Int64 ν

namespace BtcSortCache

variable {ν : Type}

def newBtcSortCache : BtcSortCache ν where
  keyList := []
  cache := ∅

def set (b : BtcSortCache ν) (index : Int64) (val : ν) : BtcSortCache ν where
  keyList := if index ∈ b.cache then b.keyList else b.keyList ++ [index]
  cache := b.cache.set index val

def get (b : BtcSortCache ν) (index : Int64) : Option ν :=
  b.cache.get index

def sort (b : BtcSortCache ν) : Except GoPanic (BtcSortCache ν) := do
  let s ← KeySlice.quickSort ⟨b.keyList, []⟩ 0 (b.keyList.length - 1)
  return { b with keyList := s.arr }

end BtcSortCache
end Sync
