import Mathlib.Data.Option.Basic
import Mathlib.Data.List.Basic

namespace Simulation

variable {α α' β β' γ ε : Type} {R : α → α' → Prop} {S : β → β' → Prop}

-- Two computations fail in the same way, or return related values.
inductive Related (R : α → α' → Prop) : Except ε α → Except ε α' → Prop
  | ok {a : α} {a' : α'} : R a a' → Related R (.ok a) (.ok a')
  | error (e : ε) : Related R (.error e) (.error e)

namespace Related

variable {x : Except ε α} {x' : Except ε α'}

theorem bind {f : α → Except ε β} {f' : α' → Except ε β'} (h : Related R x x')
    (hf : ∀ a a', R a a' → Related S (f a) (f' a')) : Related S (x >>= f) (x' >>= f') := by
  cases h
  case ok hr   => exact hf _ _ hr
  case error e => exact .error e

theorem refl (x : Except ε α) : Related Eq x x := by
  cases x
  case ok a    => exact .ok rfl
  case error e => exact .error e

theorem foldlM {f : α → γ → Except ε α} {f' : α' → γ → Except ε α'} {l : List γ} {a : α} {a' : α'}
    (hf : ∀ c ∈ l, ∀ a a', R a a' → Related R (f a c) (f' a' c)) (h : R a a') :
    Related R (l.foldlM f a) (l.foldlM f' a') := by
  induction l generalizing a a'
  case nil => exact .ok h
  case cons c l hi =>
    obtain ⟨hc, hl⟩ := List.forall_mem_cons.mp hf
    exact (hc a a' h).bind fun _ _ => hi hl

theorem of_ok {a' : α'} (h : Related R x x') (hx : x' = .ok a') : ∃ a, x = .ok a ∧ R a a' := by
  cases h
  case ok a b hr =>
    cases hx
    exact ⟨a, rfl, hr⟩
  case error => contradiction

end Related
end Simulation
