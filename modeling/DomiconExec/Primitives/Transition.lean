import Mathlib.Data.List.Basic
import Mathlib.Logic.Function.Iterate

namespace Transition

-- A state machine whose steps may fail. A failure ends the run, there is no state after it.
structure System (σ ε π : Type) where
  init : σ
  step : σ → ε → Except π σ

namespace System

variable {σ ε π : Type} {m : System σ ε π} {G : σ → ε → Prop} {s s' : σ} {e : ε}

-- The states that are reached if every step `e` taken in a state `s` satisfies the guard `G s e`.
inductive Reachable (m : System σ ε π) (G : σ → ε → Prop) : σ → Prop
  | init : Reachable m G m.init
  | step {s s' : σ} {e : ε} :
    Reachable m G s → G s e → m.step s e = .ok s' → Reachable m G s'

-- The guard that admits every step.
def anyStep : σ → ε → Prop :=
  fun _ _ => True

theorem Reachable.invariant {I : σ → Prop} (r : m.Reachable G s) (init : I m.init)
    (step : ∀ s e s', I s → G s e → m.step s e = .ok s' → I s') : I s := by
  induction r
  case init         => exact init
  case step hg h hi => exact step _ _ _ hi hg h

def run (m : System σ ε π) (s : σ) (es : List ε) : Except π σ :=
  es.foldlM m.step s

theorem Reachable.run {es : List ε} (r : m.Reachable G s) (hg : ∀ s, ∀ e ∈ es, G s e)
    (h : m.run s es = .ok s') : m.Reachable G s' := by
  induction es generalizing s
  case nil =>
    cases h
    exact r
  case cons e es hi =>
    simp only [System.run, List.foldlM_cons] at h
    have ⟨he, hes⟩ := forall_and.mp fun s => List.forall_mem_cons.mp (hg s)
    cases hs : m.step s e <;> simp only [hs, bind, Except.bind] at h
    case error => contradiction
    case ok s₁ => exact hi (r.step (he s) hs) hes h

-- If `P` is only left by steps that satisfy `Q`, then there has been such a step once it does not
-- hold.
theorem Reachable.exists_of_leave {P : σ → Prop} {Q : σ → σ → Prop} (r : m.Reachable G s)
    (init : P m.init) (step : ∀ s e s', P s → m.step s e = .ok s' → P s' ∨ Q s s') (h : ¬P s) :
    ∃ s₁ s₂, m.Reachable G s₁ ∧ Q s₁ s₂ ∧ Reachable { m with init := s₂ } G s := by
  induction r
  case init => exact absurd init h
  case step s s' e r hg hs hi =>
    by_cases hp : P s
    case pos => exact ⟨s, s', r, (step s e s' hp hs).resolve_left h, .init⟩
    case neg =>
      obtain ⟨s₁, s₂, r₁, hq, r₂⟩ := hi hp
      exact ⟨s₁, s₂, r₁, hq, r₂.step hg hs⟩

-- There is no run without an end.
def Terminates (m : System σ ε π) : Prop :=
  ¬∃ f : Nat → σ, f 0 = m.init ∧ ∀ n, ∃ e, m.step (f n) e = .ok (f (n + 1))

theorem terminates_of_reachable (μ : σ → Nat)
    (h : ∀ s e s', m.Reachable anyStep s → m.step s e = .ok s' → μ s' < μ s) : m.Terminates := by
  rintro ⟨f, h₀, hf⟩
  have hr (n : Nat) : m.Reachable anyStep (f n) := by
    induction n
    case zero      => exact h₀ ▸ .init
    case succ n hi => exact (hf n).elim fun _ he => hi.step trivial he
  have hd (n : Nat) : μ (f n) + n ≤ μ (f 0) := by
    induction n
    case zero => exact Nat.le_refl _
    case succ n hi =>
      obtain ⟨e, he⟩ := hf n
      have := h _ _ _ (hr n) he
      omega
  have := hd (μ (f 0) + 1)
  omega

theorem terminates_of_decreasing (μ : σ → Nat)
    (h : ∀ s e s', m.step s e = .ok s' → μ s' < μ s) : m.Terminates :=
  terminates_of_reachable μ fun s e s' _ => h s e s'

-- A run that cannot go on for ever comes to a state in which no step is possible.
theorem Terminates.exists_final (t : m.Terminates) :
    ∃ s, m.Reachable anyStep s ∧ ∀ e s', m.step s e ≠ .ok s' := by
  by_contra hn
  have next (s : { s // m.Reachable anyStep s }) :
      ∃ s' : { s // m.Reachable anyStep s }, ∃ e, m.step s e = .ok s'.val := by
    by_contra hs
    refine hn ⟨s, s.property, fun e s' he => hs ⟨⟨s', s.property.step trivial he⟩, e, he⟩⟩
  choose next hnext using next
  refine t ⟨fun n => (next^[n] ⟨m.init, .init⟩).val, rfl, fun n => ?_⟩
  dsimp only
  rw [Function.iterate_succ_apply']
  exact hnext _

end System
end Transition
