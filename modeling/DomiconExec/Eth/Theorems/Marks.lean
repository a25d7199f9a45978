import Mathlib.Data.List.TakeWhile
import DomiconExec.Eth.Gossip

open List

def DA.IsLegal (da : DA) : Prop :=
  ¬(da.txHash = .zero ∧ da.commitIsEmpty)

def DA.hashes (da : DA) : List Hash :=
  (if da.commitIsEmpty then [] else [da.commitment.hash]) ++
    if da.txHash = .zero then [] else [da.txHash]

instance (da : DA) : Decidable da.IsLegal :=
  inferInstanceAs <| Decidable ¬_

theorem DA.isLegal_of_txHash {da : DA} (h : da.txHash ≠ .zero) : da.IsLegal :=
  fun hl => h hl.left

theorem DA.isLegal_of_commit {da : DA} (h : ¬da.commitIsEmpty) : da.IsLegal :=
  fun hl => h hl.right

theorem DA.mem_hashes {da : DA} {hash : Hash} : hash ∈ da.hashes ↔
    ¬da.commitIsEmpty ∧ hash = da.commitment.hash ∨ da.txHash ≠ .zero ∧ hash = da.txHash := by
  unfold hashes
  by_cases hc : da.commitIsEmpty <;> by_cases ht : da.txHash = .zero <;> simp [hc, ht]

namespace Eth

variable {fds : List DA} {da : DA} {hash : Hash}

def plain (fds : List DA) : List DA :=
  fds.takeWhile (!·.commitIsEmpty)

def sticky (fds : List DA) : List DA :=
  fds.dropWhile (!·.commitIsEmpty)

theorem plain_append_sticky (fds : List DA) : plain fds ++ sticky fds = fds :=
  List.takeWhile_append_dropWhile

theorem commit_of_mem_plain (h : da ∈ plain fds) : ¬da.commitIsEmpty := by
  simpa using mem_takeWhile_imp h

theorem mem_plain_or_sticky : da ∈ fds ↔ da ∈ plain fds ∨ da ∈ sticky fds := by
  rw [← mem_append, plain_append_sticky]

-- Once the flag is set only transaction hashes are marked.
theorem sendFileDatas_true :
    ((sendFileDatas true fds).snd = none ↔ ∀ da ∈ fds, da.txHash ≠ .zero) ∧
    ((sendFileDatas true fds).snd = none → (sendFileDatas true fds).fst = fds.map DA.txHash) := by
  induction fds
  case nil => simp [sendFileDatas]
  case cons da fds hi =>
    by_cases ht : da.txHash = .zero
    case pos => simp [sendFileDatas, ht]
    case neg =>
      simp only [sendFileDatas, Bool.true_or, ht, false_and, if_false, if_true,
        forall_mem_cons, ne_eq, not_false_eq_true, true_and, map_cons]
      exact ⟨hi.left, fun h => congrArg _ (hi.right h)⟩

theorem sendFileDatas_append {fds' : List DA} (h : ∀ da ∈ fds, ¬da.commitIsEmpty) :
    sendFileDatas false (fds ++ fds') =
      (fds.flatMap DA.hashes ++ (sendFileDatas false fds').fst, (sendFileDatas false fds').snd) := by
  induction fds
  case nil => rfl
  case cons da fds hi =>
    rw [forall_mem_cons] at h
    have hc : da.commitIsEmpty = false := by simpa using h.left
    have hi := hi h.right
    by_cases ht : da.txHash = .zero <;>
      simp [sendFileDatas, hc, ht, hi, DA.hashes]

theorem sendFileDatas_sticky :
    sendFileDatas false (sticky fds) = sendFileDatas true (sticky fds) := by
  have hc := List.head?_dropWhile_not (!·.commitIsEmpty) fds
  rw [← sticky] at hc
  cases hs : sticky fds
  case nil => rfl
  case cons da fds' =>
    have hc : da.commitIsEmpty = true := by simpa [hs] using hc
    simp only [sendFileDatas, hc, Bool.or_true]

theorem sendFileDatas_eq (fds : List DA) : sendFileDatas false fds =
    ((plain fds).flatMap DA.hashes ++ (sendFileDatas true (sticky fds)).fst,
      (sendFileDatas true (sticky fds)).snd) := by
  rw [← sendFileDatas_sticky, ← sendFileDatas_append fun _ => commit_of_mem_plain,
    plain_append_sticky]

theorem sendFileDatas_snd :
    (sendFileDatas false fds).snd = none ↔ ∀ da ∈ sticky fds, da.txHash ≠ .zero := by
  rw [sendFileDatas_eq]
  exact sendFileDatas_true.left

theorem mem_sendFileDatas (h : (sendFileDatas false fds).snd = none) :
    hash ∈ (sendFileDatas false fds).fst ↔
      (∃ da ∈ plain fds, hash ∈ da.hashes) ∨ ∃ da ∈ sticky fds, hash = da.txHash := by
  rw [sendFileDatas_eq] at h ⊢
  rw [mem_append, mem_flatMap, sendFileDatas_true.right h, mem_map]
  simp only [eq_comm]

theorem isLegal_of_sendFileDatas (h : (sendFileDatas false fds).snd = none) :
    ∀ da ∈ fds, da.IsLegal := by
  intro da hd
  obtain hd | hd := mem_plain_or_sticky.mp hd
  case inl => exact DA.isLegal_of_commit (commit_of_mem_plain hd)
  case inr => exact DA.isLegal_of_txHash (sendFileDatas_snd.mp h da hd)

theorem sendFileDatas_cons_ne_nil (h : da.IsLegal) : (sendFileDatas false (da :: fds)).fst ≠ [] := by
  unfold DA.IsLegal at h
  by_cases hc : da.commitIsEmpty <;> by_cases ht : da.txHash = .zero <;>
    simp [sendFileDatas, hc, ht] at h ⊢

theorem sendFileDatas_cons_of_not (h : ¬da.IsLegal) :
    sendFileDatas false (da :: fds) = ([], some errDADataIllegal) := by
  obtain ⟨ht, hc⟩ := not_not.mp h
  simp only [sendFileDatas, ht, hc, Bool.or_true, and_self, if_true]

end Eth
