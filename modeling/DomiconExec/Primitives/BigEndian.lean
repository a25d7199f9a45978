import Mathlib.Data.Nat.Digits.Lemmas
import Mathlib.Data.Nat.Size
import DomiconExec.Primitives.Bytes

namespace Bytes

open List

variable {n k : Nat} {a b : Bytes}

-- The shortest big-endian representation of a number. It is empty for zero.
def bigEndian (n : Nat) : Bytes :=
  (Nat.digits 256 n).reverse.map UInt8.ofNat

def toNat (b : Bytes) : Nat :=
  b.foldl (fun n x => n * 256 + x.toNat) 0

@[simp]
theorem bigEndian_zero : bigEndian 0 = [] := by
  simp [bigEndian]

theorem bigEndian_of_pos (h : 0 < n) :
    bigEndian n = bigEndian (n / 256) ++ [UInt8.ofNat (n % 256)] := by
  simp [bigEndian, Nat.digits_def' (b := 256) (by decide) h]

theorem bigEndian_of_lt (h : 0 < n) (hl : n < 256) : bigEndian n = [UInt8.ofNat n] := by
  rw [bigEndian_of_pos h, Nat.div_eq_of_lt hl, Nat.mod_eq_of_lt hl, bigEndian_zero, nil_append]

@[simp]
theorem toNat_nil : toNat [] = 0 :=
  rfl

@[simp]
theorem toNat_concat (b : Bytes) (x : UInt8) : toNat (b ++ [x]) = toNat b * 256 + x.toNat := by
  simp [toNat]

theorem toNat_append (a b : Bytes) : toNat (a ++ b) = toNat a * 256 ^ b.length + toNat b := by
  induction b using List.reverseRecOn
  case nil => simp
  case append_singleton b x hi =>
    rw [← append_assoc, toNat_concat, toNat_concat, hi, length_append, pow_add]
    simp
    ring

theorem toNat_cons (x : UInt8) (b : Bytes) : toNat (x :: b) = x.toNat * 256 ^ b.length + toNat b := by
  have h := toNat_append [x] b
  rwa [singleton_append, ← nil_append [x], toNat_concat, toNat_nil, Nat.zero_mul,
    Nat.zero_add] at h

@[simp]
theorem toNat_bigEndian (n : Nat) : toNat (bigEndian n) = n := by
  induction n using Nat.strongRecOn
  case ind n hi =>
    cases Nat.eq_zero_or_pos n
    case inl h => simp [h]
    case inr h =>
      have hd := hi (n / 256) (Nat.div_lt_self h (by decide))
      have hm : n % 256 < 256 := Nat.mod_lt n (by decide)
      rw [bigEndian_of_pos h, toNat_concat, hd, UInt8.toNat_ofNat_of_lt' hm]
      omega

theorem bigEndian_length_le : (bigEndian n).length ≤ k ↔ n < 256 ^ k := by
  simp [bigEndian, Nat.digits_length_le_iff]

theorem bigEndian_length_mono {m : Nat} (h : m ≤ n) : (bigEndian m).length ≤ (bigEndian n).length :=
  bigEndian_length_le.mpr (Nat.lt_of_le_of_lt h (bigEndian_length_le.mp (Nat.le_refl _)))

theorem bigEndian_length_pos (h : 0 < n) : 0 < (bigEndian n).length := by
  simp [bigEndian_of_pos h]

theorem bigEndian_head_ne_zero (h : 0 < n) : (bigEndian n).head? ≠ some 0 := by
  induction n using Nat.strongRecOn
  case ind n hi =>
    rw [bigEndian_of_pos h]
    cases Nat.eq_zero_or_pos (n / 256)
    case inl hz =>
      have hl : n < 256 := by omega
      simp only [hz, bigEndian_zero, nil_append, List.head?_cons, Nat.mod_eq_of_lt hl]
      intro hc
      have := congrArg UInt8.toNat (Option.some.inj hc)
      rw [UInt8.toNat_ofNat_of_lt' hl] at this
      exact absurd this (by simp; omega)
    case inr hp =>
      have hn := hi (n / 256) (Nat.div_lt_self h (by decide)) hp
      have hl := bigEndian_length_pos hp
      rwa [List.head?_append_of_ne_nil _ (length_pos_iff.mp hl)]

theorem bigEndian_head_ne (n : Nat) : (bigEndian n).head? ≠ some 0 := by
  cases Nat.eq_zero_or_pos n
  case inl h => simp [h]
  case inr h => exact bigEndian_head_ne_zero h

theorem bigEndian_length (n : Nat) : (bigEndian n).length = (n.size + 7) / 8 := by
  refine Nat.le_antisymm ?_ ?_
  case refine_1 =>
    rw [bigEndian_length_le, show 256 = 2 ^ 8 by rfl, ← pow_mul, ← Nat.size_le]
    omega
  case refine_2 =>
    have h : n < 256 ^ (bigEndian n).length := bigEndian_length_le.mp (Nat.le_refl _)
    rw [show 256 = 2 ^ 8 by rfl, ← pow_mul, ← Nat.size_le] at h
    omega

theorem toNat_inj (hl : a.length = b.length) (h : toNat a = toNat b) : a = b := by
  induction a using List.reverseRecOn generalizing b
  case nil => simpa [eq_comm] using hl
  case append_singleton a x hi =>
    cases b using List.reverseRecOn
    case nil => simp at hl
    case append_singleton b y _ =>
      have hx := x.toNat_lt
      have hy := y.toNat_lt
      simp only [toNat_concat, length_append, length_singleton] at h hl
      have hxy : x = y := UInt8.toNat_inj.mp (by omega)
      have hab : a = b := hi (by omega) (by omega)
      rw [hab, hxy]

theorem toNat_lt (b : Bytes) : toNat b < 256 ^ b.length := by
  induction b using List.reverseRecOn
  case nil => simp
  case append_singleton b x hi =>
    have hx := x.toNat_lt
    rw [toNat_concat, length_append, length_singleton, pow_succ]
    omega

theorem toNat_cons_zero (b : Bytes) : toNat (0 :: b) = toNat b :=
  rfl

theorem toNat_replicate_append (k : Nat) (b : Bytes) :
    toNat (List.replicate k 0 ++ b) = toNat b := by
  induction k
  case zero      => rfl
  case succ k hi => exact (toNat_cons_zero _).trans hi

theorem toNat_fit (h : b.length ≤ n) : toNat (fit n b) = toNat b := by
  rw [fit, Nat.sub_eq_zero_of_le h, drop_zero, toNat_replicate_append]

theorem bigEndian_toNat_length_le (b : Bytes) : (bigEndian (toNat b)).length ≤ b.length :=
  bigEndian_length_le.mpr (toNat_lt b)

theorem fit_bigEndian_toNat (b : Bytes) : (bigEndian (toNat b)).fit b.length = b := by
  refine toNat_inj (fit_length _) ?_
  rw [toNat_fit (bigEndian_toNat_length_le b), toNat_bigEndian]

-- The shortest representation of a number is shorter than another one with leading zeros.
theorem bigEndian_toNat_length_eq (h : b ≠ []) :
    (bigEndian (toNat b)).length = b.length ↔ b.head? ≠ some 0 := by
  obtain ⟨x, b, rfl⟩ := exists_cons_of_ne_nil h
  by_cases hx : x = 0
  case pos =>
    refine iff_of_false (fun hl => ?_) fun hh => hh (congrArg some hx)
    have := bigEndian_toNat_length_le b
    rw [hx, toNat_cons_zero, length_cons] at hl
    omega
  case neg =>
    refine iff_of_true ?_ fun hh => hx (Option.some.inj hh)
    refine Nat.le_antisymm (bigEndian_toNat_length_le _) (Nat.lt_of_not_le fun hl => ?_)
    have hn := bigEndian_length_le.mp hl
    rw [← singleton_append, toNat_append] at hn
    have h₁ : 0 < x.toNat := Nat.pos_of_ne_zero fun h => hx (UInt8.toNat_inj.mp h)
    have h₂ : toNat [x] = x.toNat := Nat.zero_add _
    have h₃ : 256 ^ b.length ≤ toNat [x] * 256 ^ b.length := Nat.le_mul_of_pos_left _ (h₂ ▸ h₁)
    omega

theorem bigEndian_toNat (h : b.head? ≠ some 0) : bigEndian (toNat b) = b := by
  by_cases hb : b = []
  case pos => simp [hb]
  case neg =>
    have hl := (bigEndian_toNat_length_eq hb).mpr h
    rw [← fit_eq_self hl, fit_bigEndian_toNat]
end Bytes
