import DomiconExec.Fetcher.Intake
import DomiconExec.Pool.Theorems.Admission

namespace Fetcher

open List
open FilePool (Ref Heap Env Valid)

section Notify

variable {quit : Bool} {pool : FilePool} {peer : Peer} {sizes : List UInt32} {hashes : List Hash}

theorem unknown_ok_iff {hasFd : Hash → Bool} {i : Nat} :
    (∃ l, unknown hasFd sizes i hashes = .ok l) ↔
      ∀ j hash, hashes[j]? = some hash → hasFd hash ∨ i + j < sizes.length := by
  induction hashes generalizing i
  case nil => simp [unknown]
  case cons hash hashes hi =>
    have hs : (∀ j h, (hash :: hashes)[j]? = some h → hasFd h ∨ i + j < sizes.length) ↔
        (hasFd hash ∨ i < sizes.length) ∧
        ∀ j h, hashes[j]? = some h → hasFd h ∨ i + 1 + j < sizes.length := by
      constructor
      case mp =>
        refine fun h => ⟨h 0 hash rfl, fun j g hj => ?_⟩
        exact Nat.add_right_comm i 1 j ▸ h (j + 1) g hj
      case mpr =>
        rintro ⟨h₀, h⟩ (_ | j) g hg
        case zero => exact Option.some.inj hg ▸ h₀
        case succ => exact Nat.add_right_comm i 1 j ▸ h j g hg
    rw [hs, ← hi, unknown]
    split
    case isTrue hk  => simp [hk]
    case isFalse hk =>
      split
      case h_1 hn =>
        have : ¬i < sizes.length := Nat.not_lt.mpr (List.getElem?_eq_none_iff.mp hn)
        simp [hk, this]
      case h_2 size hn =>
        have : i < sizes.length := (List.getElem?_eq_some_iff.mp hn).fst
        simp only [this, or_true, true_and]
        exact Loop.bind_ok_iff fun _ => ⟨_, rfl⟩

theorem notify_ok_iff : (∃ r, notify quit pool peer sizes hashes = .ok r) ↔
    ∀ j hash, hashes[j]? = some hash → (pool.all.get hash).isSome ∨ j < sizes.length := by
  have h : (∃ r, notify quit pool peer sizes hashes = .ok r) ↔
      ∃ l, unknown (fun hash => (pool.all.get hash).isSome) sizes 0 hashes = .ok l :=
    Loop.bind_ok_iff fun l => by split <;> exact ⟨_, rfl⟩
  simpa only [Nat.zero_add] using h.trans unknown_ok_iff

end Notify

section Enqueue

variable {quit direct : Bool} {heap : Heap} {env : Nat → Env} {pool : FilePool} {peer : Peer}
variable {fds : List Ref} {l : List (Hash × FdMetadata)} {n i : Nat}

theorem foldlM_report {b : List Ref} : (List.range n).foldlM (report heap b) l =
    if n ≤ b.length then .ok (l ++ (b.take n).map (reported heap))
    else .error .indexOutOfRange := by
  induction n
  case zero => simp [pure, Except.pure]
  case succ n hi =>
    rw [range_succ, foldlM_append, hi]
    by_cases hn : n < b.length
    case pos =>
      simp only [hn.le, Nat.succ_le_of_lt hn, if_true, bind, Except.bind, foldlM_cons,
        foldlM_nil, report, List.getElem?_eq_getElem hn, pure, Except.pure]
      rw [take_add_one, List.getElem?_eq_getElem hn, map_append, append_assoc]
      rfl
    case neg =>
      have hs : ¬n + 1 ≤ b.length := by omega
      have he : b[n]? = none := List.getElem?_eq_none (by omega)
      rw [if_neg hs]
      split
      case isTrue  => simp [report, he, bind, Except.bind]
      case isFalse => rfl

-- All data of a batch is valid, as far as the surroundings of the batch are concerned.
def ValidBatch (heap : Heap) (env : Nat → Env) (fds : List Ref) (i : Nat) : Prop :=
  ∀ fd ∈ batch fds i, Valid (env i) (heap fd)

theorem errs_length_eq {r : FilePool.Added}
    (h : pool.add { env i with heap } (batch fds i) false = .ok r) :
    r.errs.length ≤ (batch fds i).length ↔ ValidBatch heap env fds i := by
  have hv (fd : Ref) : (FilePool.validateFileDataSignature { env i with heap } (heap fd) false).snd =
      none ↔ Valid (env i) (heap fd) :=
    @FilePool.validateFileDataSignature_eq_none (env i) (heap fd)
  have hc (a b : Nat) : a + b ≤ a ↔ b = 0 := by omega
  rw [FilePool.add_errs_length h, hc, List.countP_eq_zero]
  refine forall₂_congr fun fd _ => ?_
  rw [← hv, Option.isSome_iff_ne_none, not_not]

theorem enqueueBatch_of_valid (h : ValidBatch heap env fds i) : ∃ pool',
    enqueueBatch heap env fds (pool, l) i = .ok (pool', l ++ (batch fds i).map (reported heap)) := by
  obtain ⟨r, hr, _⟩ := FilePool.add_ok { env i with heap } pool (batch fds i) false
  have hn : r.errs.length = (batch fds i).length :=
    Nat.le_antisymm ((errs_length_eq hr).mpr h) (FilePool.add_errs_length hr ▸ Nat.le_add_right ..)
  refine ⟨r.pool, ?_⟩
  simp only [enqueueBatch, hr, bind, Except.bind, foldlM_report, hn, Nat.le_refl, if_true,
    take_length, pure, Except.pure]

theorem enqueueBatch_of_not_valid (h : ¬ValidBatch heap env fds i) :
    enqueueBatch heap env fds (pool, l) i = .error .indexOutOfRange := by
  obtain ⟨r, hr, _⟩ := FilePool.add_ok { env i with heap } pool (batch fds i) false
  have hn : ¬r.errs.length ≤ (batch fds i).length := mt (errs_length_eq hr).mp h
  simp only [enqueueBatch, hr, bind, Except.bind, foldlM_report, hn, if_false]

theorem take_batches : fds.take (batchSize * (n + 1)) =
    fds.take (batchSize * n) ++ batch fds n := by
  rw [Nat.mul_succ, take_add, batch]

theorem foldlM_enqueueBatch : (∃ pool', (∀ i < n, ValidBatch heap env fds i) ∧
      (List.range n).foldlM (enqueueBatch heap env fds) (pool, []) =
        .ok (pool', (fds.take (batchSize * n)).map (reported heap))) ∨
    (∃ i < n, ¬ValidBatch heap env fds i) ∧
      (List.range n).foldlM (enqueueBatch heap env fds) (pool, []) = .error .indexOutOfRange := by
  induction n
  case zero => exact .inl ⟨pool, by simp, by simp [pure, Except.pure]⟩
  case succ n hi =>
    rw [range_succ, foldlM_append]
    obtain ⟨pool₁, hv, h⟩ | ⟨⟨i, hn, hv⟩, h⟩ := hi
    case inr => exact .inr ⟨⟨i, Nat.lt_succ_of_lt hn, hv⟩, by rw [h]; rfl⟩
    case inl =>
      rw [h, take_batches, map_append]
      by_cases hb : ValidBatch heap env fds n
      case pos =>
        obtain ⟨pool₂, he⟩ := @enqueueBatch_of_valid heap env pool₁ fds
          ((fds.take (batchSize * n)).map (reported heap)) n hb
        refine .inl ⟨pool₂, fun i hi => ?_, by simp only [bind, Except.bind, foldlM_cons,
          he, foldlM_nil, pure, Except.pure]⟩
        obtain hi | rfl := Nat.lt_succ_iff_lt_or_eq.mp hi
        case inl => exact hv i hi
        case inr => exact hb
      case neg =>
        refine .inr ⟨⟨n, Nat.lt_succ_self n, hb⟩, ?_⟩
        simp [bind, Except.bind, enqueueBatch_of_not_valid hb]

theorem length_le_batches : fds.length ≤ batchSize * batches fds := by
  unfold batches batchSize
  omega

theorem validBatch_of_batches_le (h : batches fds ≤ i) : ValidBatch heap env fds i := by
  have : batch fds i = [] := by
    rw [batch, drop_eq_nil_of_le, take_nil]
    exact length_le_batches.trans (Nat.mul_le_mul_left _ h)
  simp [ValidBatch, this]

theorem enqueue_ok_iff : (∃ r, enqueue quit heap env pool peer fds direct = .ok r) ↔
    ∀ i, ValidBatch heap env fds i := by
  unfold enqueue
  obtain ⟨pool', hv, h⟩ | ⟨⟨i, _, hv⟩, h⟩ :=
    @foldlM_enqueueBatch heap env pool fds (batches fds)
  case inl =>
    rw [h]
    refine ⟨fun _ i => ?_, fun _ => ⟨_, rfl⟩⟩
    exact (Nat.lt_or_ge i (batches fds)).elim (hv i) validBatch_of_batches_le
  case inr =>
    rw [h]
    refine ⟨?_, fun h => absurd (h i) hv⟩
    rintro ⟨r, hr⟩
    contradiction

theorem enqueue_eq_ok {r : FilePool × Option Event × Option GoError}
    (h : enqueue quit heap env pool peer fds direct = .ok r) :
    r.snd = send quit (.cleanup (.of peer (fds.map (reported heap)) direct)) := by
  unfold enqueue at h
  obtain ⟨pool', _, he⟩ | ⟨_, he⟩ := @foldlM_enqueueBatch heap env pool fds (batches fds)
  case inl =>
    rw [he, take_of_length_le length_le_batches] at h
    cases h
    rfl
  case inr =>
    rw [he] at h
    contradiction

end Enqueue
end Fetcher
