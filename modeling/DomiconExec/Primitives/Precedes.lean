import Mathlib.Data.List.Lex

open List

-- The order of two lists is decided at a position that both of them have.
inductive Precedes {α : Type} [LT α] : List α → List α → Prop
  | head {x y : α} {xs ys : List α} (h : x < y) : Precedes (x :: xs) (y :: ys)
  | cons {x : α} {xs ys : List α} (h : Precedes xs ys) : Precedes (x :: xs) (x :: ys)

namespace Precedes

variable {α β : Type} {a b c : List α}

section LT

variable [LT α] [LT β]

theorem append (p : List α) (h : Precedes a b) : Precedes (p ++ a) (p ++ b) := by
  induction p
  case nil         => exact h
  case cons x p hi => exact .cons hi

theorem decompose (h : Precedes a b) :
    ∃ p x y r s, a = p ++ x :: r ∧ b = p ++ y :: s ∧ x < y := by
  induction h
  case head x y xs ys h => exact ⟨[], x, y, xs, ys, rfl, rfl, h⟩
  case cons x xs ys _ hi =>
    obtain ⟨p, y, z, r, s, rfl, rfl, hl⟩ := hi
    exact ⟨x :: p, y, z, r, s, rfl, rfl, hl⟩

-- A list that precedes another one is decided within its first part, or that part is a common one.
theorem of_append {p : List α} (h : Precedes (p ++ a) b) :
    Precedes p b ∨ ∃ c, b = p ++ c ∧ Precedes a c := by
  induction p generalizing b
  case nil => exact .inr ⟨b, rfl, h⟩
  case cons x p hi =>
    cases h
    case head y ys hl => exact .inl (.head hl)
    case cons ys h =>
      obtain h | ⟨c, rfl, hc⟩ := hi h
      case inl => exact .inl (.cons h)
      case inr => exact .inr ⟨c, rfl, hc⟩

theorem append_append (h : Precedes a b) (c d : List α) : Precedes (a ++ c) (b ++ d) := by
  induction h
  case head h  => exact .head h
  case cons hi => exact .cons hi

theorem flatMap {f : α → List β} (hf : ∀ x y, x < y → Precedes (f x) (f y)) (h : Precedes a b) :
    Precedes (a.flatMap f) (b.flatMap f) := by
  induction h
  case head h =>
    rw [flatMap_cons, flatMap_cons]
    exact (hf _ _ h).append_append _ _
  case cons hi =>
    rw [flatMap_cons, flatMap_cons]
    exact hi.append _

theorem lt (h : Precedes a b) : a < b := by
  induction h
  case head h => exact .rel h
  case cons hi => exact .cons hi

end LT

theorem unrelated [LT α] [i : @Std.Irrefl α (· < ·)] (h : Precedes a b) : ¬a <+: b ∧ ¬b <+: a := by
  induction h
  case head hl =>
    refine ⟨fun h => ?_, fun h => ?_⟩
    case refine_1 =>
      rw [(cons_prefix_cons.mp h).left] at hl
      exact i.irrefl _ hl
    case refine_2 =>
      rw [(cons_prefix_cons.mp h).left] at hl
      exact i.irrefl _ hl
  case cons hi =>
    exact ⟨fun h => hi.left (cons_prefix_cons.mp h).right,
      fun h => hi.right (cons_prefix_cons.mp h).right⟩

end Precedes
