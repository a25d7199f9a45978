import DomiconExec.Objects.DeriveSha
import DomiconExec.Rlp.Theorems.Raw
import DomiconExec.Trie.Theorems.StackTrie

open List Bytes Rlp

section Order

variable {a b : Bytes} {i j : Nat}

theorem Bytes.precedes_of_lt (hl : a.length = b.length) (h : toNat a < toNat b) : Precedes a b := by
  induction a generalizing b
  case nil =>
    rw [length_nil, eq_comm, length_eq_zero_iff] at hl
    subst hl
    exact absurd h (Nat.lt_irrefl _)
  case cons x a hi =>
    obtain ⟨y, b, rfl⟩ := exists_cons_of_length_eq_add_one hl.symm
    have he : a.length = b.length := Nat.succ.inj hl
    have hm := toNat_lt b
    rw [toNat_cons, toNat_cons, he] at h
    obtain hx | hx | hx := Nat.lt_trichotomy x.toNat y.toNat
    case inl => exact .head (UInt8.lt_iff_toNat_lt.mpr hx)
    case inr.inl =>
      rw [UInt8.toNat_inj.mp hx] at h ⊢
      exact .cons (hi he (Nat.lt_of_add_lt_add_left h))
    case inr.inr =>
      have hn := Nat.mul_le_mul_right (256 ^ b.length) (Nat.succ_le_of_lt hx)
      rw [Nat.succ_mul] at hn
      omega

namespace Rlp

def numberTag (i : Nat) : Nat :=
  if i = 0 then 0x80 else if i < 0x80 then i else 0x80 + (bigEndian i).length

theorem numberTag_small (hp : 0 < i) (h : i < 0x80) : numberTag i = i := by
  rw [numberTag, if_neg hp.ne', if_pos h]

theorem numberTag_large (h : 0x80 ≤ i) : numberTag i = 0x80 + (bigEndian i).length := by
  rw [numberTag, if_neg (by omega), if_neg (by omega)]

theorem encodeStr_numberTag (h : i < 2 ^ 64) :
    ∃ x r, Item.encodeStr (bigEndian i) = x :: r ∧ x.toNat = numberTag i ∧
      (0x80 ≤ i → r = bigEndian i) := by
  unfold numberTag
  split
  case isTrue hz =>
    subst hz
    exact ⟨0x80, [], by decide, rfl, fun h => absurd h (by decide)⟩
  case isFalse hz =>
    have hp : 0 < i := Nat.pos_of_ne_zero hz
    simp only [Item.encodeStr, single_bigEndian hp]
    split
    case isTrue hs =>
      have hb : i < 256 := by omega
      refine ⟨UInt8.ofNat i, [], bigEndian_of_lt hp hb, UInt8.toNat_ofNat_of_lt' hb, fun h => ?_⟩
      exact absurd hs (Nat.not_lt.mpr h)
    case isFalse hs =>
      have hl : (bigEndian i).length ≤ 8 := bigEndian_length_le.mpr h
      refine ⟨0x80 + UInt8.ofNat (bigEndian i).length, bigEndian i, ?_, ?_, fun _ => rfl⟩
      case refine_1 =>
        rw [header_of_lt (by omega)]
        rfl
      case refine_2 =>
        rw [UInt8.toNat_add, UInt8.toNat_ofNat_of_lt' (by omega : _ < 256)]
        simp
        omega

-- The encodings are ordered by their first bytes, or they are numbers of the same length.
theorem encodeStr_precedes (hi : i < 2 ^ 64) (hj : j < 2 ^ 64)
    (h : numberTag i < numberTag j ∨ 0x80 ≤ i ∧ i < j) :
    Precedes (Item.encodeStr (bigEndian i)) (Item.encodeStr (bigEndian j)) := by
  obtain ⟨x, r, hx, ht, hr⟩ := encodeStr_numberTag hi
  obtain ⟨y, s, hy, ht', hs⟩ := encodeStr_numberTag hj
  rw [hx, hy]
  obtain hl | hl := Nat.lt_or_ge (numberTag i) (numberTag j)
  case inl => exact .head (UInt8.lt_iff_toNat_lt.mpr (ht ▸ ht' ▸ hl))
  case inr =>
    obtain ⟨hp, hij⟩ := h.resolve_left (Nat.not_lt.mpr hl)
    have hq : 0x80 ≤ j := Nat.le_trans hp hij.le
    have hm := bigEndian_length_mono hij.le
    rw [numberTag_large hp, numberTag_large hq] at hl
    have hn : (bigEndian i).length = (bigEndian j).length := by omega
    have he : x = y := by
      rw [← UInt8.toNat_inj, ht, ht', numberTag_large hp, numberTag_large hq, hn]
    rw [he, hr hp, hs hq]
    refine .cons (precedes_of_lt hn ?_)
    rwa [toNat_bigEndian, toNat_bigEndian]

end Rlp

end Order

section Indices

variable {n : Nat}

def deriveIndices (n : Nat) : List Nat :=
  List.range' 1 (min n 0x80 - 1) ++ (if 0 < n then [0] else []) ++ List.range' 0x80 (n - 0x80)

theorem deriveIndices_perm (n : Nat) : (deriveIndices n).Perm (List.range n) := by
  unfold deriveIndices
  split
  case isFalse hn =>
    obtain rfl : n = 0 := Nat.eq_zero_of_not_pos hn
    exact .refl _
  case isTrue hn =>
    have hm : min n 0x80 - 1 + 1 = min n 0x80 := by omega
    have hz : 0 :: List.range' 1 (min n 0x80 - 1) = List.range (min n 0x80) := by
      rw [range_eq_range', ← hm, range'_succ, hm]
    have hr : List.range (min n 0x80) ++ List.range' 0x80 (n - 0x80) = List.range n := by
      obtain hl | hl := Nat.le_total n 0x80
      case inl => rw [Nat.min_eq_left hl, Nat.sub_eq_zero_of_le hl, range'_zero, append_nil]
      case inr =>
        rw [Nat.min_eq_right hl, range_eq_range', range_eq_range', range'_append_1,
          Nat.add_sub_cancel' hl]
    rw [← hr, ← hz]
    exact List.Perm.append_right _ List.perm_append_comm

theorem deriveIndices_pairwise (h : n < 2 ^ 62) :
    (deriveIndices n).Pairwise fun i j =>
      Precedes (Item.encodeStr (bigEndian i)) (Item.encodeStr (bigEndian j)) := by
  have hb {i : Nat} (hi : i ∈ deriveIndices n) : i < 2 ^ 64 := by
    have hm := mem_range.mp ((deriveIndices_perm n).mem_iff.mp hi)
    omega
  refine List.Pairwise.imp_of_mem (fun hi hj => encodeStr_precedes (hb hi) (hb hj)) ?_
  have hs {i : Nat} (hi : i ∈ List.range' 1 (min n 0x80 - 1)) : numberTag i = i ∧ i < 0x80 := by
    rw [mem_range'_1] at hi
    exact ⟨numberTag_small (by omega) (by omega), by omega⟩
  have hz {i : Nat} (hi : i ∈ if 0 < n then [0] else []) : numberTag i = 0x80 := by
    split at hi
    case isTrue  => rw [mem_singleton.mp hi]; rfl
    case isFalse => cases hi
  have hl {i : Nat} (hi : i ∈ List.range' 0x80 (n - 0x80)) : 0x80 ≤ i ∧ 0x80 < numberTag i := by
    have hi := (mem_range'_1.mp hi).left
    have hp := bigEndian_length_pos (Nat.lt_of_lt_of_le (by decide : 0 < 0x80) hi)
    rw [numberTag_large hi]
    omega
  rw [deriveIndices, append_assoc, pairwise_append, pairwise_append]
  refine ⟨?small, ⟨?zero, ?large, ?zeroLarge⟩, ?smallRest⟩
  case small =>
    refine List.Pairwise.imp_of_mem (fun hi hj h => .inl ?_) List.pairwise_lt_range'
    rwa [(hs hi).left, (hs hj).left]
  case zero =>
    split
    case isTrue  => exact pairwise_singleton _ _
    case isFalse => exact .nil
  case large =>
    exact List.Pairwise.imp_of_mem (fun hi _ h => .inr ⟨(hl hi).left, h⟩) List.pairwise_lt_range'
  case zeroLarge =>
    intro i hi j hj
    rw [hz hi]
    exact .inl (hl hj).right
  case smallRest =>
    intro i hi j hj
    have hi := hs hi
    obtain hj | hj := mem_append.mp hj
    case inl =>
      rw [hi.left, hz hj]
      exact .inl hi.right
    case inr =>
      rw [hi.left]
      exact .inl (hi.right.trans (hl hj).right)

end Indices

section Derive

variable {σ : Type} {hasher : TrieHasher σ} {list : DerivableList}

def deriveUpdates (list : DerivableList) : List (Bytes × Bytes) :=
  (deriveIndices list.len).map fun i => (Item.encodeStr (bigEndian i), list.encodeIndex i)

theorem deriveIndex_eq (s : σ) {i : Nat} (h : i < 2 ^ 64) :
    deriveIndex hasher list s i =
      hasher.update s (Item.encodeStr (bigEndian i)) (list.encodeIndex i) := by
  rw [deriveIndex, Raw.appendUint64, nil_append, Raw.uint64Bytes_eq, UInt64.toNat_ofNat_of_lt' h]

theorem deriveSha_eq (h : list.len < 2 ^ 62) (s : σ) :
    deriveSha hasher list s =
      ((deriveUpdates list).foldlM (fun s u => hasher.update s u.fst u.snd) (hasher.reset s) >>=
        hasher.hash) := by
  have hi : (deriveUpdates list).foldlM (fun s u => hasher.update s u.fst u.snd) (hasher.reset s) =
      (deriveIndices list.len).foldlM (deriveIndex hasher list) (hasher.reset s) := by
    rw [deriveUpdates, foldlM_map]
    refine Loop.foldlM_congr fun i hi s => ?_
    have hm := mem_range.mp ((deriveIndices_perm list.len).mem_iff.mp hi)
    exact (deriveIndex_eq s (by omega)).symm
  rw [hi, deriveIndices, foldlM_append, foldlM_append, deriveSha]
  dsimp only
  split
  case isTrue  => simp
  case isFalse => simp

end Derive

-- The keys come in order, each one once and with its own value. The trie does not crash on them.
theorem deriveSha_ordered (list : DerivableList) (h : list.len < 2 ^ 62) :
    ∃ ups : List (Bytes × Bytes),
      (∀ (σ : Type) (hasher : TrieHasher σ) (s : σ), deriveSha hasher list s =
        (ups.foldlM (fun s u => hasher.update s u.fst u.snd) (hasher.reset s) >>= hasher.hash)) ∧
      (ups.map Prod.fst).Pairwise (· < ·) ∧
      (∀ k ∈ ups.map Prod.fst, ∀ k' ∈ ups.map Prod.fst, k <+: k' → k = k') ∧
      ups.Perm ((List.range list.len).map fun i =>
        (Item.encodeStr (bigEndian i), list.encodeIndex i)) ∧
      ((∀ i < list.len, list.encodeIndex i ≠ []) → ∀ (keccak256 : Bytes → Hash) (t : Trie.StackTrie),
        ∃ r, deriveSha (Trie.StackTrie.hasher keccak256) list t = .ok r) := by
  have hk : ((deriveUpdates list).map Prod.fst).Pairwise Precedes := by
    rw [deriveUpdates, map_map, pairwise_map]
    exact deriveIndices_pairwise h
  refine ⟨deriveUpdates list, fun σ hasher s => deriveSha_eq h s, ?order, ?unrelated, ?values, ?trie⟩
  case order => exact hk.imp Precedes.lt
  case unrelated =>
    intro k hk₁ k' hk₂
    refine List.Pairwise.forall_of_forall_of_flip (R := fun k k' => k <+: k' → k = k')
      (fun _ _ _ => rfl) ?_ ?_ hk₁ hk₂
    case refine_1 => exact hk.imp fun hp h => absurd h hp.unrelated.left
    case refine_2 => exact hk.imp fun hp h => absurd h hp.unrelated.right
  case values => exact (deriveIndices_perm _).map _
  case trie =>
    intro hv keccak256 t
    have hn : ∀ u ∈ deriveUpdates list, u.snd ≠ [] := by
      intro u hu
      obtain ⟨i, hi, rfl⟩ := mem_map.mp hu
      exact hv i (mem_range.mp ((deriveIndices_perm list.len).mem_iff.mp hi))
    obtain ⟨t', ht, hs⟩ := @Trie.StackTrie.foldlM_update_ok keccak256 _ hk hn t
    rw [deriveSha_eq h]
    exact (Loop.bind_of_eq_ok ht).symm ▸ Trie.StackTrie.hash_ok hs

theorem deriveSha_ordered_sample :
    ∃ r, deriveSha (Trie.StackTrie.hasher fun _ => Hash.zero) ⟨200, fun _ => [0x01]⟩
      ⟨.hashedNode []⟩ = .ok r := by
  obtain ⟨_, _, _, _, _, ht⟩ := deriveSha_ordered ⟨200, fun _ => [0x01]⟩ (by decide)
  exact ht (fun _ _ => cons_ne_nil _ _) _ _
