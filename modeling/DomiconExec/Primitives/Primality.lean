import Mathlib.FieldTheory.Finite.Basic
import Mathlib.NumberTheory.LucasPrimality

namespace Primality

variable {m a n k p d e : Nat}

-- The power `a ^ n` modulo `m`, by squaring. The exponent has at most `k` bits.
def powMod (m a : Nat) : Nat → Nat → Nat
  | 0, _     => 1 % m
  | k + 1, n =>
    let r := powMod m a k (n / 2)
    if n % 2 = 1 then r * r % m * a % m else r * r % m

theorem powMod_eq (m a : Nat) (h : n < 2 ^ k) : powMod m a k n = a ^ n % m := by
  induction k generalizing n
  case zero =>
    obtain rfl : n = 0 := by omega
    rfl
  case succ k hi =>
    have hr : powMod m a k (n / 2) * powMod m a k (n / 2) % m = a ^ (n / 2 * 2) % m := by
      rw [hi (by omega), ← Nat.mul_mod, pow_mul, pow_two]
    rw [powMod]
    split
    case isTrue ho =>
      rw [hr, Nat.mod_mul_mod, ← pow_succ]
      congr 2
      omega
    case isFalse he =>
      rw [hr]
      congr 2
      omega

theorem powMod_eq_one_iff (hm : 1 < m) (h : n < 2 ^ k) :
    powMod m a k n = 1 ↔ (a : ZMod m) ^ n = 1 := by
  have hc := ZMod.natCast_eq_natCast_iff (a ^ n) 1 m
  rw [Nat.cast_pow, Nat.cast_one, Nat.ModEq, Nat.mod_eq_of_lt hm] at hc
  rw [powMod_eq m a h, hc]

-- The order of `a` modulo `p` is `p - 1`, whose prime factors are given.
def isRoot (p a k : Nat) (factors : List Nat) : Bool :=
  1 < p ∧ p < 2 ^ k ∧ factors.prod = p - 1 ∧ powMod p a k (p - 1) = 1 ∧
    ∀ q ∈ factors, powMod p a k ((p - 1) / q) ≠ 1

theorem prime_of_isRoot (a k : Nat) (factors : List Nat) (hq : ∀ q ∈ factors, q.Prime)
    (h : isRoot p a k factors) : p.Prime := by
  obtain ⟨hp, hk, hf, h, hd⟩ := of_decide_eq_true h
  have hk' (q : Nat) : (p - 1) / q < 2 ^ k :=
    Nat.lt_of_le_of_lt (Nat.div_le_self _ _) (by omega)
  refine lucas_primality p a (powMod_eq_one_iff hp (by omega) |>.mp h) fun q hp' hq' => ?_
  rw [← hf] at hq'
  obtain ⟨r, hr, hqr⟩ := (Prime.dvd_prod_iff hp'.prime).mp hq'
  rw [(Nat.prime_dvd_prime_iff_eq hp' (hq r hr)).mp hqr]
  exact fun hc => hd r hr (powMod_eq_one_iff hp (hk' r) |>.mpr hc)

-- A number that is a power modulo `p` passes the test of Euler.
theorem ne_pow_of_powMod [Fact p.Prime] (k : Nat) (hd : p - 1 = d * e) (he : e < 2 ^ k)
    (h : powMod p a k e ≠ 1) (ha : (a : ZMod p) ≠ 0) (x : ZMod p) : x ^ d ≠ a := by
  intro hx
  have hp : p.Prime := Fact.out
  have h₀ : x ≠ 0 := by
    rintro rfl
    have : d ≠ 0 := by
      rintro rfl
      have := hp.two_le
      omega
    exact ha (hx.symm.trans (zero_pow this))
  refine h (powMod_eq_one_iff hp.one_lt he |>.mpr ?_)
  rw [← hx, ← pow_mul, ← hd]
  exact ZMod.pow_card_sub_one_eq_one h₀

end Primality
