import DomiconExec.Primitives.Simulation

-- Rules to execute programs that have a state and may fail. The state is kept on failure.
namespace Program

variable {ε σ α β : Type} {p : EStateM ε σ α} {f : α → EStateM ε σ β} {s s' : σ} {a : α} {e : ε}

-- Turns a failure into a result.
def attempt (p : EStateM ε σ α) : EStateM ε σ (Except ε α) := fun s =>
  match p s with
  | .ok a s    => .ok (.ok a) s
  | .error e s => .ok (.error e) s

@[simp]
theorem pure_apply (a : α) (s : σ) : (pure a : EStateM ε σ α) s = .ok a s :=
  rfl

@[simp]
theorem throw_apply (e : ε) (s : σ) : (throw e : EStateM ε σ α) s = .error e s :=
  rfl

theorem throw_bind (e : ε) (g : α → EStateM ε σ β) (s : σ) :
    ((throw e : EStateM ε σ α) >>= g) s = .error e s :=
  rfl

@[simp]
theorem get_bind (g : σ → EStateM ε σ β) (s : σ) : (get >>= g) s = g s s :=
  rfl

@[simp]
theorem set_apply (s s' : σ) : (set s' : EStateM ε σ PUnit) s = .ok ⟨⟩ s' :=
  rfl

@[simp]
theorem modify_apply (g : σ → σ) (s : σ) : (modify g : EStateM ε σ PUnit) s = .ok ⟨⟩ (g s) :=
  rfl

theorem bind_ok (h : p s = .ok a s') : (p >>= f) s = f a s' := by
  simp only [bind, EStateM.bind, h]

theorem bind_error (h : p s = .error e s') : (p >>= f) s = .error e s' := by
  simp only [bind, EStateM.bind, h]

theorem of_bind_ok {b : β} {s'' : σ} (h : (p >>= f) s = .ok b s'') :
    ∃ a s', p s = .ok a s' ∧ f a s' = .ok b s'' := by
  simp only [bind, EStateM.bind] at h
  split at h
  case h_1 a s' hp => exact ⟨a, s', hp, h⟩
  case h_2         => contradiction

theorem of_bind_error {s'' : σ} (h : (p >>= f) s = .error e s'') :
    p s = .error e s'' ∨ ∃ a s', p s = .ok a s' ∧ f a s' = .error e s'' := by
  simp only [bind, EStateM.bind] at h
  split at h
  case h_1 a s' hp => exact .inr ⟨a, s', hp, h⟩
  case h_2 hp =>
    cases h
    exact .inl hp

@[simp]
theorem set_bind (s s' : σ) (g : PUnit → EStateM ε σ β) : (set s' >>= g) s = g ⟨⟩ s' :=
  rfl

@[simp]
theorem modify_bind (m : σ → σ) (s : σ) (g : PUnit → EStateM ε σ β) :
    (modify m >>= g) s = g ⟨⟩ (m s) :=
  rfl

theorem attempt_ok (h : p s = .ok a s') : attempt p s = .ok (.ok a) s' := by
  simp only [attempt, h]

theorem of_attempt_ok (h : attempt p s = .ok (.ok a) s') : p s = .ok a s' := by
  unfold attempt at h
  split at h
  case h_1 hp =>
    cases h
    exact hp
  case h_2 => cases h

theorem of_attempt_error (h : attempt p s = .ok (.error e) s') : p s = .error e s' := by
  unfold attempt at h
  split at h
  case h_1 => cases h
  case h_2 hp =>
    cases h
    exact hp

theorem attempt_error (h : p s = .error e s') : attempt p s = .ok (.error e) s' := by
  simp only [attempt, h]

section Errors

variable {ε' : Type}

theorem adaptExcept_ok (g : ε → ε') (h : p s = .ok a s') : p.adaptExcept g s = .ok a s' := by
  simp only [EStateM.adaptExcept, h]

theorem of_adaptExcept_ok {g : ε → ε'} (h : p.adaptExcept g s = .ok a s') : p s = .ok a s' := by
  unfold EStateM.adaptExcept at h
  split at h
  case h_1 => cases h
  case h_2 hp =>
    cases h
    exact hp

theorem of_adaptExcept_error {g : ε → ε'} {e' : ε'} (h : p.adaptExcept g s = .error e' s') :
    ∃ e, p s = .error e s' ∧ g e = e' := by
  unfold EStateM.adaptExcept at h
  split at h
  case h_1 e _ hp =>
    cases h
    exact ⟨e, hp, rfl⟩
  case h_2 => cases h

theorem adaptExcept_error (g : ε → ε') (h : p s = .error e s') :
    p.adaptExcept g s = .error (g e) s' := by
  simp only [EStateM.adaptExcept, h]

end Errors

section Alike

variable {γ : Type} {R : α → β → Prop} {q : EStateM ε σ β}

-- Two runs end in the same state, in the same failure or with related results.
inductive Similar (R : α → β → Prop) : EStateM.Result ε σ α → EStateM.Result ε σ β → Prop
  | ok {a : α} {b : β} (s : σ) : R a b → Similar R (.ok a s) (.ok b s)
  | error (e : ε) (s : σ) : Similar R (.error e s) (.error e s)

def Alike (R : α → β → Prop) (p : EStateM ε σ α) (q : EStateM ε σ β) : Prop :=
  ∀ s, Similar R (p s) (q s)

namespace Alike

theorem pure {b : β} (h : R a b) :
    Alike R (Pure.pure a : EStateM ε σ α) (Pure.pure b : EStateM ε σ β) :=
  fun s => .ok s h

theorem throw (e : ε) : Alike R (throwThe ε e : EStateM ε σ α) (throwThe ε e : EStateM ε σ β) :=
  fun s => .error e s

theorem refl (p : EStateM ε σ α) : Alike Eq p p := by
  intro s
  cases p s
  case ok a s    => exact .ok s rfl
  case error e s => exact .error e s

theorem of_eq {p p' : EStateM ε σ α} (h : p = p') : Alike Eq p p' :=
  h ▸ refl p

theorem eq {p p' : EStateM ε σ α} (h : Alike Eq p p') : p = p' := by
  funext s
  have hs := h s
  generalize p s = x, p' s = x' at hs
  cases hs
  case ok s h    => rw [h]
  case error e s => rfl

theorem bind {δ : Type} {S : γ → δ → Prop} {f : α → EStateM ε σ γ} {g : β → EStateM ε σ δ}
    (h : Alike R p q) (hf : ∀ a b, R a b → Alike S (f a) (g b)) :
    Alike S (p >>= f) (q >>= g) := by
  intro s
  have hs := h s
  simp only [Bind.bind, EStateM.bind]
  generalize p s = x, q s = y at hs
  cases hs
  case ok s h    => exact hf _ _ h s
  case error e s => exact .error e s

theorem attempt (h : Alike R p q) :
    Alike (Simulation.Related R) (attempt p) (Program.attempt q) := by
  intro s
  have hs := h s
  simp only [Program.attempt]
  generalize p s = x, q s = y at hs
  cases hs
  case ok s h    => exact .ok s (.ok h)
  case error e s => exact .ok s (.error e)

end Alike
end Alike

section Leads

variable {R : σ → σ → Prop}

def final : EStateM.Result ε σ α → σ
  | .ok _ s    => s
  | .error _ s => s

-- The state after a run is related to the state before, whether the run fails or not.
def Leads (R : σ → σ → Prop) (p : EStateM ε σ α) : Prop :=
  ∀ s, R s (final (p s))

namespace Leads

theorem of_ok (h : Leads R p) (hp : p s = .ok a s') : R s s' := by
  have hs := h s
  rwa [hp] at hs

theorem of_error (h : Leads R p) (hp : p s = .error e s') : R s s' := by
  have hs := h s
  rwa [hp] at hs

theorem adaptExcept {ε' : Type} (h : Leads R p) (g : ε → ε') : Leads R (p.adaptExcept g) := by
  intro s
  have hs := h s
  unfold EStateM.adaptExcept
  generalize p s = x at hs
  cases x <;> exact hs

theorem attempt (h : Leads R p) : Leads R (attempt p) := by
  intro s
  have hs := h s
  unfold Program.attempt
  generalize p s = x at hs
  cases x <;> exact hs

theorem pure [Std.Refl R] (a : α) : Leads R (Pure.pure a : EStateM ε σ α) :=
  fun s => Std.Refl.refl s

theorem get [Std.Refl R] : Leads R (MonadState.get : EStateM ε σ σ) :=
  fun s => Std.Refl.refl s

theorem throw [Std.Refl R] (e : ε) : Leads R (throwThe ε e : EStateM ε σ α) :=
  fun s => Std.Refl.refl s

theorem ite {c : Prop} [Decidable c] {q : EStateM ε σ α} (hp : Leads R p) (hq : Leads R q) :
    Leads R (if c then p else q) := by
  split
  case isTrue  => exact hp
  case isFalse => exact hq

theorem bind [IsTrans σ R] (hp : Leads R p) (hf : ∀ a, Leads R (f a)) : Leads R (p >>= f) := by
  intro s
  have hs := hp s
  simp only [Bind.bind, EStateM.bind]
  generalize p s = x at hs
  cases x
  case ok a s₁    => exact Trans.trans hs (hf a s₁)
  case error e s₁ => exact hs

end Leads
end Leads

end Program
