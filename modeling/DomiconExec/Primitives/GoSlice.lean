import Mathlib.Data.List.Basic
import Mathlib.Data.List.TakeDrop

-- Slices are views of an array that start at its beginning, so they are given by their lengths.
-- What is written through one of them is seen by all.
namespace GoSlice

open List

variable {α : Type} {a : List α} {n i j : Nat}

-- The array `a` after `s = append(s[:i], s[i+1:]...)` for its slice `s` of length `n`. What was the
-- last element is still there, behind the end of the slice.
def cut (a : List α) (n i : Nat) : List α :=
  a.take i ++ (a.take n).drop (i + 1) ++ a.drop (n - 1)

theorem cut_append {l r spare : List α} {x : α} :
    cut (l ++ x :: r ++ spare) (l.length + r.length + 1) l.length =
      l ++ r ++ ((x :: r).drop r.length ++ spare) := by
  have hn : l.length + r.length + 1 = (l ++ x :: r).length := by
    simp only [length_append, length_cons]
    omega
  have hl : (l ++ x :: r ++ spare).take l.length = l := by
    rw [append_assoc, take_left]
  have hr : ((l ++ x :: r ++ spare).take (l.length + r.length + 1)).drop (l.length + 1) = r := by
    rw [hn, take_left, ← drop_drop, drop_left]
    rfl
  have hs : (l ++ x :: r ++ spare).drop (l.length + r.length) = (x :: r).drop r.length ++ spare := by
    rw [append_assoc, ← drop_drop, drop_left,
      drop_append_of_le_length (Nat.le_succ _)]
  rw [cut, hl, hr, Nat.add_sub_cancel, hs]

-- Behind a deleted element `x`, only the elements that followed it are found, once more the last one.
theorem mem_of_getElem?_stale {r spare : List α} {x y : α} (hr : r ≠ []) (hj : j ≤ r.length)
    (h : (r ++ ((x :: r).drop r.length ++ spare))[j]? = some y) : y ∈ r := by
  have hp := length_pos_iff.mpr hr
  obtain hj | rfl := Nat.lt_or_eq_of_le hj
  case inl =>
    rw [List.getElem?_append_left hj] at h
    exact mem_of_getElem? h
  case inr =>
    obtain ⟨n, hn⟩ := Nat.exists_eq_succ_of_ne_zero (Nat.ne_of_gt hp)
    rw [List.getElem?_append_right (Nat.le_refl _), Nat.sub_self, hn, drop_succ_cons,
      List.getElem?_append_left (by rw [length_drop]; omega), List.getElem?_drop] at h
    exact mem_of_getElem? h

theorem length_cut (hi : i < n) (hn : n ≤ a.length) : (cut a n i).length = a.length := by
  simp only [cut, length_append, length_take, length_drop]
  omega

theorem getElem?_cut (hi : i < n) (hn : n ≤ a.length) :
    (cut a n i)[j]? = if i ≤ j ∧ j + 1 < n then a[j + 1]? else a[j]? := by
  unfold cut
  grind

theorem mem_drop_cut {q m : Nat} {x : α} (hi : i < n) (hn : n ≤ m) (hm : m ≤ a.length)
    (h : x ∈ ((cut a n i).take m).drop q) : x ∈ (a.take m).drop q := by
  obtain ⟨j, hj⟩ := mem_iff_getElem?.mp h
  rw [List.getElem?_drop, List.getElem?_take] at hj
  split at hj
  case isFalse => contradiction
  case isTrue hq =>
    rw [getElem?_cut hi (Nat.le_trans hn hm)] at hj
    split at hj
    case isTrue hs =>
      refine mem_iff_getElem?.mpr ⟨j + 1, ?_⟩
      rw [List.getElem?_drop, List.getElem?_take, if_pos (by omega)]
      exact hj
    case isFalse hs =>
      refine mem_iff_getElem?.mpr ⟨j, ?_⟩
      rw [List.getElem?_drop, List.getElem?_take, if_pos hq]
      exact hj

end GoSlice
