import DomiconExec.Fetcher.Theorems.Intake
import DomiconExec.Pool.Theorems.Coherence

namespace FilePool

open List Lookup

variable {env : Env} {fp : FilePool} {fds : List Ref} {fd : Ref} {isLocal : Bool} {i : Nat}

section Slots

variable {tail : List (Option GoError)}

-- The slot of an item stays free exactly if nothing blocks the item at its turn.
theorem fill_getElem? {t : Lookup} (ht : ∀ k, (t.get k).isSome → (fp.all.get k).isSome)
    (hf : fds[i]? = some fd) :
    (fill (fds.map (slot env.heap t) ++ tail)
      (fp.addFdsLocked env (fds.filter (t.Unknown env.heap))).snd)[i]? = some none ↔
    ¬((fds.take i).foldl (enter env.heap fp.config.globalSlots) fp.all).Blocks
      env.heap fp.config.globalSlots fd := by
  induction fds generalizing fp i
  case nil => contradiction
  case cons g fds hi =>
    by_cases hu : t.Unknown env.heap g
    case neg =>
      have hb : fp.all.Blocks env.heap fp.config.globalSlots g :=
        .inl <| ht _ <| by simpa [Unknown, Option.isSome_iff_ne_none] using hu
      rw [filter_cons_of_neg hu]
      cases i
      case zero =>
        cases hf
        simp [slot, hu, fill, hb]
      case succ i => simpa [slot, hu, fill, enter_of_blocks hb] using hi ht hf
    case pos =>
      rw [filter_cons_of_pos hu]
      by_cases hb : fp.all.Blocks env.heap fp.config.globalSlots g
      case pos =>
        obtain ⟨err, he⟩ := addFd_of_blocks hb
        cases i
        case zero =>
          cases hf
          simp [slot, hu, fill, addFdsLocked, he, hb]
        case succ i =>
          simpa [slot, hu, fill, addFdsLocked, he, enter_of_blocks hb] using hi ht hf
      case neg =>
        obtain ⟨fp', he, ha, hc, _⟩ := addFd_of_not_blocks hb
        cases i
        case zero =>
          cases hf
          simp [slot, hu, fill, addFdsLocked, he, hb]
        case succ i =>
          have ht' (k : Hash) (hk : (t.get k).isSome) : (fp'.all.get k).isSome := by
            rw [ha, ← enter_of_not_blocks hb]
            exact enter_get_isSome (ht k hk)
          have hr := hi ht' hf
          rw [ha, hc, ← enter_of_not_blocks hb] at hr
          simpa [slot, hu, fill, addFdsLocked, he] using hr

theorem add_errs_getElem? {r : Added} (h : fp.add env fds isLocal = .ok r)
    (hf : fds[i]? = some fd) :
    r.errs[i]? = some none ↔
      ¬((fds.take i).foldl (enter env.heap fp.config.globalSlots) fp.all).Blocks
        env.heap fp.config.globalSlots fd := by
  obtain ⟨cache, tail, he⟩ := add_errs h
  rw [he]
  exact @fill_getElem? env { fp with diskCache := cache } fds fd i tail fp.all (fun _ h => h) hf

end Slots

-- Once the items before it were added, the key of `fd` is free, and then it resolves to `fd`.
def Inserts (env : Env) (fp : FilePool) (fds : List Ref) (isLocal : Bool) (i : Nat) (fd : Ref) :
    Prop :=
  ∃ before after, fp.add env (fds.take i) isLocal = .ok before ∧
    fp.add env (fds.take (i + 1)) isLocal = .ok after ∧
    before.pool.all.get (env.heap fd).key = none ∧
    after.pool.all.get (env.heap fd).key = some fd

theorem key_mem_keys {da : DA} : da.key ∈ da.keys ↔ da.keys ≠ [] := by
  unfold DA.key DA.keys
  grind

theorem inserts_iff (hf : fds[i]? = some fd) : Inserts env fp fds isLocal i fd ↔
    ¬((fds.take i).foldl (enter env.heap fp.config.globalSlots) fp.all).Blocks
      env.heap fp.config.globalSlots fd ∧ (env.heap fd).keys ≠ [] := by
  obtain ⟨before, hb, hp, _⟩ := add_ok env fp (fds.take i) isLocal
  obtain ⟨after, ha, hq, _⟩ := add_ok env fp (fds.take (i + 1)) isLocal
  have hn : Inserts env fp fds isLocal i fd ↔ before.pool.all.get (env.heap fd).key = none ∧
      after.pool.all.get (env.heap fd).key = some fd := by
    simp only [Inserts, hb, ha, Except.ok.injEq, exists_and_left, exists_eq_left']
  rw [take_add_one, hf, foldl_append] at hq
  rw [hn, hp, hq, ← key_mem_keys]
  generalize (fds.take i).foldl _ _ = t
  by_cases hb : t.Blocks env.heap fp.config.globalSlots fd
  case pos =>
    simp only [Option.toList_some, foldl_cons, foldl_nil, enter_of_blocks hb, hb,
      not_true, false_and, iff_false]
    rintro ⟨h₁, h₂⟩
    exact Option.some_ne_none _ (h₂.symm.trans h₁)
  case neg =>
    have hk : t.get (env.heap fd).key = none := by
      simpa using (not_or.mp hb).left
    simp [enter_of_not_blocks hb, hb, add_get, hk]

-- The call returns an error for each item, which is nil exactly if the item was inserted and which
-- the fetcher assigns to the item.
structure Aligned (env : Env) (fp : FilePool) (fds : List Ref) (isLocal : Bool) (r : Added) :
    Prop where
  length : r.errs.length = fds.length
  errs : ∀ (i : Nat) fd, fds[i]? = some fd →
    (r.errs[i]? = some none ↔ Inserts env fp fds isLocal i fd)
  report : ∀ l, ∃ l', (List.range r.errs.length).foldlM (Fetcher.report env.heap fds) l = .ok l'

theorem add_errs_length_iff {r : Added} (h : fp.add env fds isLocal = .ok r) :
    r.errs.length = fds.length ↔ isLocal ∨ ∀ fd ∈ fds, Valid env (env.heap fd) := by
  have hc (a b : Nat) : a + b = a ↔ b = 0 := by omega
  rw [add_errs_length h, hc, List.countP_eq_zero]
  cases isLocal
  case true  => simp [validateFileDataSignature]
  case false => simp [← validateFileDataSignature_eq_none]

theorem aligned_of {r : Added} (h : fp.add env fds isLocal = .ok r)
    (hl : r.errs.length = fds.length)
    (hk : ∀ (i : Nat) fd, fds[i]? = some fd → (env.heap fd).keys = [] →
      ((fds.take i).foldl (enter env.heap fp.config.globalSlots) fp.all).Blocks
        env.heap fp.config.globalSlots fd) : Aligned env fp fds isLocal r where
  length := hl
  errs i fd hf := by
    rw [add_errs_getElem? h hf, inserts_iff hf]
    exact ⟨fun hb => ⟨hb, fun hn => hb (hk i fd hf hn)⟩, And.left⟩
  report l := by
    rw [Fetcher.foldlM_report, if_pos (Nat.le_of_eq hl)]
    exact ⟨_, rfl⟩

-- The call never fails. Its errors are aligned with the items exactly if no remote item is invalid,
-- and if each item without a key is turned away at its turn.
theorem aligned_iff (env : Env) (fp : FilePool) (fds : List Ref) (isLocal : Bool) :
    (∃ r, fp.add env fds isLocal = .ok r ∧ Aligned env fp fds isLocal r) ↔
      (isLocal ∨ ∀ fd ∈ fds, Valid env (env.heap fd)) ∧
      ∀ l fd rest, fds = l ++ fd :: rest → (env.heap fd).keys = [] →
        (l.foldl (enter env.heap fp.config.globalSlots) fp.all).Blocks
          env.heap fp.config.globalSlots fd := by
  obtain ⟨r, hr, _⟩ := add_ok env fp fds isLocal
  rw [← add_errs_length_iff hr]
  constructor
  case mp =>
    rintro ⟨r', hr', ha⟩
    cases hr.symm.trans hr'
    refine ⟨ha.length, fun l fd rest hl hk => ?_⟩
    have hf : fds[l.length]? = some fd := by
      simp [hl]
    -- Without a key the item is not inserted, and therefore its error is not nil.
    have hn : ¬Inserts env fp fds isLocal l.length fd := by
      rw [inserts_iff hf]
      exact fun h => h.right hk
    have hb := mt (ha.errs _ _ hf).mp hn
    rw [add_errs_getElem? hr hf, not_not, hl, take_left] at hb
    exact hb
  case mpr =>
    rintro ⟨hl, hk⟩
    refine ⟨r, hr, aligned_of hr hl fun i fd hf => ?_⟩
    obtain ⟨hi, he⟩ := List.getElem?_eq_some_iff.mp hf
    refine hk _ fd (fds.drop (i + 1)) ?_
    rw [← he, getElem_cons_drop, take_append_drop]

-- The error of an invalid item comes behind the errors of all items.
theorem not_aligned_mismatched :
    ¬∀ (env : Env) (fp : FilePool) (fds : List Ref) (isLocal : Bool),
      ∃ r, fp.add env fds isLocal = .ok r ∧ Aligned env fp fds isLocal r := by
  intro h
  obtain ⟨r, hr, ha⟩ := h mismatchedEnv (new DefaultConfig "fileData.rlp" "") [0] false
  have he : (fun r : Added => r.errs.length) <$>
    (new DefaultConfig "fileData.rlp" "").add mismatchedEnv [0] false = .ok 2 := by rfl
  rw [hr] at he
  exact absurd (ha.length.symm.trans (Except.ok.inj he)) (by decide)
end FilePool
