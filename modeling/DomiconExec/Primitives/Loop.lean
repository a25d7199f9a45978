import Mathlib.Data.List.Forall2

namespace Loop

open List

variable {α β ε : Type} {l : List α} {b : β}

section Bind

variable {x : Except ε α} {f : α → Except ε β}

-- A computation that may fail succeeds if both of its parts do.
theorem bind_eq_ok (h : (x >>= f) = .ok b) :
    ∃ a, x = .ok a ∧ f a = .ok b := by
  cases x
  case error => contradiction
  case ok a  => exact ⟨a, rfl, h⟩

theorem bind_of_eq_ok {a : α} (h : x = .ok a) :
    (x >>= f) = f a := by
  rw [h]
  rfl

theorem bind_ok_iff (hf : ∀ a, ∃ b, f a = .ok b) :
    (∃ b, (x >>= f) = .ok b) ↔ ∃ a, x = .ok a where
  mp := by
    rintro ⟨b, h⟩
    obtain ⟨a, ha, _⟩ := bind_eq_ok h
    exact ⟨a, ha⟩
  mpr := by
    rintro ⟨a, rfl⟩
    exact hf a

theorem map_eq_ok {g : α → β} (h : g <$> x = .ok b) : ∃ a, x = .ok a ∧ g a = b := by
  cases x
  case error => contradiction
  case ok a  => exact ⟨a, rfl, Except.ok.inj h⟩

theorem map_ok_iff {g : α → β} : (∃ b, g <$> x = .ok b) ↔ ∃ a, x = .ok a where
  mp := by
    rintro ⟨b, h⟩
    obtain ⟨a, ha, _⟩ := map_eq_ok h
    exact ⟨a, ha⟩
  mpr := by
    rintro ⟨a, rfl⟩
    exact ⟨g a, rfl⟩

theorem exists_of_isOk (h : x.isOk) : ∃ a, x = .ok a := by
  cases x
  case error => contradiction
  case ok a  => exact ⟨a, rfl⟩

end Bind

section Fold

variable {f : β → α → Except ε β} {b' : β}

-- The rule for a loop whose body may fail: the invariant, which has the elements still to be
-- visited, has to exclude the failure.
theorem foldlM_rule (I : List α → β → Prop)
    (body : ∀ a l b, I (a :: l) b → ∃ b', f b a = .ok b' ∧ I l b') (h : I l b) :
    ∃ b', l.foldlM f b = .ok b' ∧ I [] b' := by
  induction l generalizing b
  case nil => exact ⟨b, rfl, h⟩
  case cons a l ih =>
    have ⟨b₁, hb, h₁⟩ := body a l b h
    have ⟨b₂, hl, h₂⟩ := ih h₁
    refine ⟨b₂, ?_, h₂⟩
    simp only [foldlM_cons, hb]
    exact hl

theorem foldlM_rule_or {e : ε} (I : List α → β → Prop)
    (body : ∀ a l b, I (a :: l) b → (∃ b', f b a = .ok b' ∧ I l b') ∨ f b a = .error e)
    (h : I l b) : (∃ b', l.foldlM f b = .ok b' ∧ I [] b') ∨ l.foldlM f b = .error e := by
  induction l generalizing b
  case nil => exact .inl ⟨b, rfl, h⟩
  case cons a l hi =>
    simp only [foldlM_cons]
    obtain ⟨b₁, hb, h₁⟩ | hb := body a l b h
    case inl =>
      rw [hb]
      exact hi h₁
    case inr =>
      rw [hb]
      exact .inr rfl

theorem foldlM_eq_ok {g : β → α → β} (body : ∀ a ∈ l, ∀ b, f b a = .ok (g b a)) :
    l.foldlM f b = .ok (l.foldl g b) := by
  induction l generalizing b
  case nil => rfl
  case cons a l hi =>
    obtain ⟨ha, hl⟩ := forall_mem_cons.mp body
    rw [foldlM_cons, ha]
    exact hi hl

theorem foldlM_congr {f g : β → α → Except ε β} (body : ∀ a ∈ l, ∀ b, f b a = g b a) :
    l.foldlM f b = l.foldlM g b := by
  induction l generalizing b
  case nil => rfl
  case cons a l hi =>
    obtain ⟨ha, hl⟩ := forall_mem_cons.mp body
    rw [foldlM_cons, foldlM_cons, ha]
    exact bind_congr fun b => hi hl

theorem foldlM_fixed (body : ∀ a ∈ l, f b a = .ok b) :
    l.foldlM f b = .ok b := by
  induction l
  case nil => rfl
  case cons a l hi =>
    obtain ⟨ha, hl⟩ := forall_mem_cons.mp body
    rw [foldlM_cons, ha]
    exact hi hl

-- What each iteration preserves holds after a loop that did not fail.
theorem foldlM_preserves (I : β → Prop) (body : ∀ a ∈ l, ∀ b b', I b → f b a = .ok b' → I b')
    (h : I b) (hl : l.foldlM f b = .ok b') :
    I b' := by
  induction l generalizing b
  case nil =>
    cases hl
    exact h
  case cons a l hi =>
    have ⟨ha, hb⟩ := forall_mem_cons.mp body
    have ⟨b₁, h₁, hl⟩ := bind_eq_ok hl
    exact hi hb (ha b b₁ h h₁) hl

-- No iteration of a loop that did not fail has failed.
theorem foldlM_ok_mem {a : α} (h : l.foldlM f b = .ok b') (ha : a ∈ l) :
    ∃ c c', f c a = .ok c' := by
  induction l generalizing b
  case nil => contradiction
  case cons x l hi =>
    obtain ⟨b₁, h₁, h⟩ := bind_eq_ok h
    cases mem_cons.mp ha
    case inl he => exact ⟨b, b₁, he ▸ h₁⟩
    case inr hm => exact hi h hm

theorem eq_foldl_of_foldlM {g : β → α → β} (body : ∀ a ∈ l, ∀ b b', f b a = .ok b' → b' = g b a)
    (h : l.foldlM f b = .ok b') :
    b' = l.foldl g b := by
  induction l generalizing b
  case nil => exact (Except.ok.inj h).symm
  case cons a l hi =>
    obtain ⟨ha, hl⟩ := forall_mem_cons.mp body
    obtain ⟨b₁, h₁, h⟩ := bind_eq_ok h
    rw [hi hl h, ha b b₁ h₁, foldl_cons]

theorem foldlM_ok_iff {P : α → Prop} (body : ∀ a b, (∃ b', f b a = .ok b') ↔ P a) :
    (∃ b', l.foldlM f b = .ok b') ↔ ∀ a ∈ l, P a := by
  induction l generalizing b
  case nil => exact ⟨fun _ _ h => absurd h not_mem_nil, fun _ => ⟨b, rfl⟩⟩
  case cons a l hi =>
    rw [forall_mem_cons, ← body a b]
    constructor
    case mp =>
      rintro ⟨b', h⟩
      obtain ⟨b₁, h₁, h⟩ := bind_eq_ok h
      exact ⟨⟨b₁, h₁⟩, hi.mp ⟨b', h⟩⟩
    case mpr =>
      rintro ⟨⟨b₁, h₁⟩, hl⟩
      rw [foldlM_cons, h₁]
      exact hi.mpr hl

end Fold

-- A loop whose body appends an element to a list.
theorem foldlM_concat {f : List β → α → Except ε (List β)} {g : α → β} {acc r : List β}
    (body : ∀ a ∈ l, ∀ acc acc', f acc a = .ok acc' → acc' = acc ++ [g a])
    (h : l.foldlM f acc = .ok r) : r = acc ++ l.map g := by
  rw [eq_foldl_of_foldlM body h, foldl_append_eq_append, ← flatMap_def,
    ← map_eq_flatMap]

theorem foldlM_flatMap {γ : Type} {f : α → List γ} {g : β → γ → Except ε β} :
    (l.flatMap f).foldlM g b = l.foldlM (fun b a => (f a).foldlM g b) b := by
  induction l generalizing b
  case nil => rfl
  case cons a l hi =>
    rw [flatMap_cons, foldlM_append, foldlM_cons]
    exact bind_congr fun b => hi

theorem range_around (n m : Nat) :
    List.range (n + m + 1) = List.range n ++ n :: (List.range m).map (n + 1 + ·) := by
  rw [Nat.add_assoc, range_add, range_succ_eq_map, map_cons, map_map]
  congr 2
  exact map_congr_left fun i _ => (Nat.add_assoc n 1 i).symm ▸ congrArg _ (Nat.add_comm i 1)

section Forall₂

variable {R : α → β → Prop}

theorem forall₂_getElem? {l' : List β} {i : Nat} {a : α} (h : List.Forall₂ R l l')
    (ha : l[i]? = some a) : ∃ b, l'[i]? = some b ∧ R a b := by
  induction h generalizing i
  case nil => contradiction
  case cons hr _ hi =>
    cases i
    case zero =>
      cases ha
      exact ⟨_, rfl, hr⟩
    case succ i => exact hi ha

theorem forall₂_mem {l' : List β} {a : α} (h : List.Forall₂ R l l') (ha : a ∈ l) :
    ∃ b ∈ l', R a b := by
  obtain ⟨i, hi⟩ := mem_iff_getElem?.mp ha
  obtain ⟨b, hb, hr⟩ := forall₂_getElem? h hi
  exact ⟨b, mem_of_getElem? hb, hr⟩

theorem mapM_eq_ok_iff {f : α → Except ε β} {l' : List β} :
    l.mapM f = .ok l' ↔ List.Forall₂ (fun a b => f a = .ok b) l l' := by
  induction l generalizing l'
  case nil =>
    rw [forall₂_nil_left_iff, mapM_nil]
    exact ⟨fun h => (Except.ok.inj h).symm, fun h => h ▸ rfl⟩
  case cons a l hi =>
    rw [mapM_cons, forall₂_cons_left_iff]
    constructor
    case mp =>
      intro h
      obtain ⟨b, hb, h⟩ := bind_eq_ok h
      obtain ⟨bs, hl, h⟩ := bind_eq_ok h
      exact ⟨b, bs, hb, hi.mp hl, (Except.ok.inj h).symm⟩
    case mpr =>
      rintro ⟨b, bs, hb, hl, rfl⟩
      rw [hb, hi.mpr hl]
      rfl

theorem exists_forall₂ (h : ∀ a ∈ l, ∃ b, R a b) :
    ∃ l', List.Forall₂ R l l' := by
  induction l
  case nil => exact ⟨[], .nil⟩
  case cons a l hi =>
    obtain ⟨⟨b, hb⟩, hl⟩ := forall_mem_cons.mp h
    obtain ⟨l', hl'⟩ := hi hl
    exact ⟨b :: l', .cons hb hl'⟩

theorem mapM_ok_iff {f : α → Except ε β} :
    (∃ l', l.mapM f = .ok l') ↔ ∀ a ∈ l, ∃ b, f a = .ok b := by
  simp only [mapM_eq_ok_iff]
  refine ⟨?_, exists_forall₂⟩
  rintro ⟨l', h⟩ a ha
  obtain ⟨b, _, hb⟩ := forall₂_mem h ha
  exact ⟨b, hb⟩

end Forall₂

end Loop
