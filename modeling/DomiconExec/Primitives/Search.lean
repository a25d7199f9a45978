import Mathlib.Data.List.Basic

namespace Search

-- The loop looks for the first index between `i` and `j` at which `f` holds.
def loop (f : Nat → Bool) : Nat → Nat → Nat → Nat
  | 0, i, _        => i
  | fuel + 1, i, j =>
    if i < j then
      let h := (i + j) / 2
      if !f h then loop f fuel (h + 1) j else loop f fuel i h
    else
      i

end Search

def search (n : Nat) (f : Nat → Bool) : Nat :=
  Search.loop f n 0 n

namespace Search

variable {f : Nat → Bool} {fuel i j n : Nat}

def Monotone (n : Nat) (f : Nat → Bool) : Prop :=
  ∀ i j, i ≤ j → j < n → f i → f j

theorem iff_le (lower : ∀ k < i, f k = false) (upper : ∀ k, i ≤ k → k < n → f k) :
    ∀ k < n, f k ↔ i ≤ k := by
  refine fun k hk => ⟨fun h => ?_, fun h => upper k h hk⟩
  by_contra hlt
  rw [lower k (Nat.lt_of_not_le hlt)] at h
  contradiction

theorem loop_spec (hm : Monotone n f) (hf : j ≤ i + fuel) (hij : i ≤ j) (hj : j ≤ n)
    (lower : ∀ k < i, f k = false) (upper : ∀ k, j ≤ k → k < n → f k) :
    loop f fuel i j ≤ n ∧ ∀ k < n, f k ↔ loop f fuel i j ≤ k := by
  induction fuel generalizing i j
  case zero =>
    obtain rfl : i = j := by omega
    exact ⟨hj, iff_le lower upper⟩
  case succ fuel hi =>
    unfold loop
    split
    case isFalse hn =>
      obtain rfl : i = j := by omega
      exact ⟨hj, iff_le lower upper⟩
    case isTrue hlt =>
      dsimp only
      split
      case isTrue hh =>
        have hh : f ((i + j) / 2) = false := by simpa using hh
        refine hi (by omega) (by omega) hj (fun k hk => ?_) upper
        by_contra hfk
        have := hm k ((i + j) / 2) (by omega) (by omega) (by simpa using hfk)
        rw [hh] at this
        contradiction
      case isFalse hh =>
        have hh : f ((i + j) / 2) = true := by simpa using hh
        exact hi (by omega) (by omega) (by omega) lower fun k hk hkn => hm _ k hk hkn hh

-- The search finds the first index at which `f` holds, or `n`.
theorem search_spec (hm : Monotone n f) : search n f ≤ n ∧ ∀ k < n, f k ↔ search n f ≤ k :=
  loop_spec hm (by omega) (Nat.zero_le n) (Nat.le_refl n) (fun k hk => absurd hk (Nat.not_lt_zero k))
    fun k hk hkn => absurd hkn (Nat.not_lt_of_le hk)

end Search
