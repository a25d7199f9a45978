import DomiconExec.Rlp.Raw
import DomiconExec.Rlp.Theorems.Decode
import DomiconExec.Rlp.Theorems.Encode

namespace Rlp.Raw

open List Bytes

variable {n : Nat} {b c rest : Bytes}

theorem listSize_eq (h : n < 2 ^ 64) : listSize n = (header 0xC0 0xF7 n).length + n := by
  have hc : UInt64.ofNat n < 56 ↔ n < 56 := by
    simp [UInt64.lt_iff_toNat_lt, UInt64.toNat_ofNat_of_lt' h]
  simp only [listSize, headsize, header_length h, hc]

theorem bytesSize_eq (h : b.length < 2 ^ 64) : bytesSize b = (Item.encodeStr b).length := by
  have hc : UInt64.ofNat b.length < 56 ↔ b.length < 56 := by
    simp [UInt64.lt_iff_toNat_lt, UInt64.toNat_ofNat_of_lt' h]
  unfold bytesSize Item.encodeStr
  split
  case h_1 => rfl
  case h_2 x =>
    simp only [EncBuffer.le_7F_iff, single, decide_eq_true_eq]
    split <;> rfl
  case h_3 _ _ h₂ =>
    have hs : single b = false := single_eq_false fun hl => by
      obtain ⟨x, rfl⟩ := length_eq_one_iff.mp hl
      exact h₂ x rfl
    rw [hs, if_neg Bool.false_ne_true, length_append, header_length h]
    simp only [headsize, hc]

-- The sizes at which the header of a value becomes longer.
def thresholds : List Nat :=
  56 :: (List.range 7).map fun k => 256 ^ (k + 1)

theorem thresholds_ge (t : Nat) (h : t ∈ thresholds) : 56 ≤ t := by
  simp only [thresholds, mem_cons, mem_map] at h
  obtain rfl | ⟨k, -, rfl⟩ := h
  case inl => exact Nat.le_refl _
  case inr =>
    have := Nat.pow_le_pow_right (n := 256) (by decide) (Nat.le_add_left 1 k)
    omega

theorem mem_thresholds {k : Nat} (h : 0 < k) (h' : k < 8) : 256 ^ k ∈ thresholds := by
  refine mem_cons_of_mem _ (mem_map.mpr ⟨k - 1, mem_range.mpr (by omega), ?_⟩)
  rw [Nat.sub_add_cancel h]

theorem header_length_eq_iff {smalltag largetag : UInt8} {m : Nat} (hm : m ≤ n) (hn : n < 2 ^ 64) :
    (header smalltag largetag m).length = (header smalltag largetag n).length ↔
      ∀ t ∈ thresholds, t ≤ n → t ≤ m := by
  cases Nat.lt_or_ge n 56
  case inl hs =>
    have ht : ∀ t ∈ thresholds, ¬t ≤ n := by
      intro t ht
      have : 56 ≤ t := thresholds_ge t ht
      omega
    rw [header_of_lt hs, header_of_lt (Nat.lt_of_le_of_lt hm hs)]
    exact iff_of_true rfl fun t h htn => absurd htn (ht t h)
  case inr hs =>
    cases Nat.lt_or_ge m 56
    case inl hs' =>
      have hp := bigEndian_length_pos (Nat.lt_of_lt_of_le (by decide) hs)
      rw [header_of_lt hs', header_of_le hs, length_singleton, length_cons]
      refine iff_of_false (by omega) fun h => ?_
      exact absurd (h 56 mem_cons_self hs) (Nat.not_le.mpr hs')
    case inr hs' =>
      rw [header_of_le hs, header_of_le hs', length_cons, length_cons, Nat.add_right_cancel_iff]
      have hp := bigEndian_length_pos (Nat.lt_of_lt_of_le (by decide) hs')
      have hl : (bigEndian n).length ≤ 8 := bigEndian_length_le.mpr hn
      have hmn : (bigEndian m).length ≤ (bigEndian n).length :=
        bigEndian_length_le.mpr (Nat.lt_of_le_of_lt hm (bigEndian_length_le.mp (Nat.le_refl _)))
      constructor
      case mp =>
        intro h t ht htn
        simp only [thresholds, mem_cons, mem_map] at ht
        obtain rfl | ⟨k, -, rfl⟩ := ht
        case inl => exact hs'
        case inr =>
          refine Nat.not_lt.mp fun hlt => ?_
          exact absurd (bigEndian_length_le.mp (h ▸ bigEndian_length_le.mpr hlt)) (Nat.not_lt.mpr htn)
      case mpr =>
        intro h
        refine Nat.le_antisymm hmn (Nat.not_lt.mp fun hlt => ?_)
        -- The number of bytes of the smaller size is a threshold.
        have ht := h _ (mem_thresholds hp (by omega))
        have hn := Nat.not_lt.mp fun h => absurd (bigEndian_length_le.mpr h) (Nat.not_le.mpr hlt)
        exact absurd (bigEndian_length_le.mp (Nat.le_refl _)) (Nat.not_lt.mpr (ht hn))

theorem readSize_bigEndian (h : 56 ≤ n) (rest : Bytes) :
    readSize (bigEndian n ++ rest) (bigEndian n).length = .ok n := by
  have hp : bigEndian n ≠ [] := length_pos_iff.mp (bigEndian_length_pos (by omega))
  have hl : ¬(bigEndian n).length > (bigEndian n ++ rest).length := by
    rw [length_append]
    omega
  have hc : ¬(n < 56 ∨ (bigEndian n ++ rest).head? = some 0) := by
    rw [List.head?_append_of_ne_nil _ hp, not_or]
    exact ⟨Nat.not_lt.mpr h, bigEndian_head_ne n⟩
  unfold readSize
  rw [if_neg hl]
  dsimp only
  rw [take_left, toNat_bigEndian, if_neg hc]

theorem readTag_cons (x : UInt8) (buf : Bytes) : readTag (x :: buf) =
    match tagOf x with
    | .single    => .ok (.byte, 0, 1)
    | .short k n =>
      if k = .string ∧ n = 1 ∧ buf.head?.any (· < 128) then .error .canonSize else .ok (k, 1, n)
    | .long k n  => (readSize buf n).map (k, n + 1, ·) := by
  simp only [readTag, tagOf]
  split
  case isTrue => rfl
  split
  case isTrue => simp
  split
  case isTrue => rfl
  split <;> rfl

theorem readTag_header {k : Kind} (hk : k ≠ .byte) (hn : n < 2 ^ 64)
    (hc : ¬(k = .string ∧ n = 1 ∧ rest.head?.any (· < 128))) :
    readTag (header k.smalltag k.largetag n ++ rest) =
      .ok (k, (header k.smalltag k.largetag n).length, n) := by
  cases Nat.lt_or_ge n 56
  case inl hs =>
    simp only [header_of_lt hs, singleton_append, readTag_cons,
      (IsTag.short hk hs rfl).tagOf_eq, if_neg hc, length_singleton]
  case inr hs =>
    have ht := IsTag.long hk (bigEndian_length_pos (by omega)) (bigEndian_length_le.mpr hn) rfl
    simp only [header_of_le hs, cons_append, readTag_cons, ht.tagOf_eq,
      readSize_bigEndian hs, Except.map, length_cons]

theorem readTag_list (hn : n < 2 ^ 64) (rest : Bytes) :
    readTag (header 0xC0 0xF7 n ++ rest) = .ok (.list, (header 0xC0 0xF7 n).length, n) :=
  readTag_header (k := .list) (by decide) hn (by simp)

-- The size of a list can be told from its header.
theorem eq_of_header_append {m : Nat} (hn : n < 2 ^ 64) (hm : m < 2 ^ 64)
    (h : header 0xC0 0xF7 n ++ b = header 0xC0 0xF7 m ++ c) : n = m := by
  have ht := readTag_list hn b
  rw [h, readTag_list hm c] at ht
  simp only [Except.ok.injEq, Prod.mk.injEq] at ht
  exact ht.right.right.symm

theorem split_of_readTag {k : Kind} {tag : Bytes}
    (h : readTag (tag ++ (c ++ rest)) = .ok (k, tag.length, c.length)) :
    split (tag ++ (c ++ rest)) = .ok (k, c, rest) := by
  have hl : ¬c.length > (tag ++ (c ++ rest)).length - tag.length := by
    simp only [length_append]
    omega
  have hr : readKind (tag ++ (c ++ rest)) = .ok (k, tag.length, c.length) := by
    simp only [readKind, h, bind, Except.bind, if_neg hl]
    rfl
  simp only [split, hr, bind, Except.bind, pure, Except.pure, ← drop_drop, drop_left,
    take_left]

theorem split_list (h : c.length < 2 ^ 64) :
    split (header 0xC0 0xF7 c.length ++ (c ++ rest)) = .ok (.list, c, rest) :=
  split_of_readTag (readTag_list h _)

theorem splitList_list (h : c.length < 2 ^ 64) :
    splitList (header 0xC0 0xF7 c.length ++ c) = .ok (c, []) := by
  have hs := @split_list c [] h
  rw [append_nil] at hs
  simp only [splitList, hs, bind, Except.bind]
  rfl

theorem split_encodeStr (h : b.length < 2 ^ 64) (rest : Bytes) :
    ∃ k, split (Item.encodeStr b ++ rest) = .ok (k, b, rest) ∧ k ≠ .list := by
  unfold Item.encodeStr
  split
  case isTrue hs =>
    obtain ⟨x, rfl, hx⟩ := exists_of_single hs
    have ht : readTag ([] ++ ([x] ++ rest)) = .ok (.byte, ([] : Bytes).length, [x].length) := by
      simp only [readTag, nil_append, singleton_append, hx, if_true, length_nil,
        length_singleton]
    exact ⟨_, split_of_readTag ht, by decide⟩
  case isFalse hs =>
    have hc : ¬(b.length = 1 ∧ (b ++ rest).head?.any (· < 128)) := by
      rintro ⟨hl, hx⟩
      obtain ⟨x, rfl⟩ := length_eq_one_iff.mp hl
      exact hs (by simpa [single] using hx)
    rw [append_assoc]
    exact ⟨_, split_of_readTag (readTag_header (k := .string) (by decide) h fun h => hc h.right), by decide⟩

theorem eq_of_encodeStr_append {rest' : Bytes} (hb : b.length < 2 ^ 64) (hc : c.length < 2 ^ 64)
    (h : Item.encodeStr b ++ rest = Item.encodeStr c ++ rest') : b = c := by
  obtain ⟨k, hs, -⟩ := split_encodeStr hb rest
  obtain ⟨k', hs', -⟩ := split_encodeStr hc rest'
  rw [h, hs'] at hs
  simp only [Except.ok.injEq, Prod.mk.injEq] at hs
  exact hs.right.left.symm

theorem uint64Bytes_of_le (x : UInt64) (hz : x ≠ 0) (h : ¬x < 128) :
    uint64Bytes x = (0x80 + UInt8.ofNat (putint x).length) :: putint x := by
  unfold uint64Bytes putint
  rw [if_neg hz, if_neg h]
  repeat' split
  all_goals rfl

theorem uint64Bytes_eq (x : UInt64) : uint64Bytes x = Item.encodeStr (bigEndian x.toNat) := by
  have hw : (EncBuffer.empty.writeUint64 x).str = uint64Bytes x := by
    unfold EncBuffer.writeUint64
    split
    case isTrue hz =>
      rw [hz]
      rfl
    case isFalse hz =>
      split
      case isTrue hs =>
        rw [uint64Bytes, if_neg hz, if_pos hs]
        rfl
      case isFalse hs =>
        rw [uint64Bytes_of_le x hz hs]
        rfl
  rw [← hw, EncBuffer.writeUint64_eq, ← EncBuffer.append_eq_put]
  rfl

theorem intSize_eq (x : UInt64) : intSize x = (Item.encodeStr (bigEndian x.toNat)).length := by
  have hc : x < 0x80 ↔ x.toNat < 128 := by simp [UInt64.lt_iff_toNat_lt]
  have hl : (bigEndian x.toNat).length ≤ 8 := bigEndian_length_le.mpr x.toNat_lt
  unfold intSize
  cases Nat.eq_zero_or_pos x.toNat
  case inl hz => simp [hc, hz, Item.encodeStr, single, header]
  case inr hp =>
    simp only [Item.encodeStr, single_bigEndian hp, hc, intsize_eq hp]
    split
    case isTrue hs => rw [bigEndian_of_lt hp (Nat.lt_trans hs (by decide)), length_singleton]
    case isFalse => rw [header_of_lt (by omega), length_append, length_singleton]

theorem head_list {items : List Item} (h : (Item.encodeAll items).length < 2 ^ 64) :
    (Item.list items).encode.head?.any (· > 0x7F) := by
  have hg {x : UInt8} (hx : tagOf x ≠ .single) : x > 0x7F :=
    UInt8.not_le.mp fun hl => hx (IsTag.single ((EncBuffer.le_7F_iff x).mp hl)).tagOf_eq
  rw [Item.encode, List.head?_append_of_ne_nil _ (ne_nil_of_length_pos header_length_pos)]
  cases Nat.lt_or_ge (Item.encodeAll items).length 56
  case inl hs =>
    rw [header_of_lt hs]
    have ht := (IsTag.short (k := .list) (by decide) hs rfl).tagOf_eq
    exact decide_eq_true (hg (ht.trans_ne Tag.noConfusion))
  case inr hs =>
    rw [header_of_le hs]
    have ht := (IsTag.long (k := .list) (by decide) (bigEndian_length_pos (by omega))
      (bigEndian_length_le.mpr h) rfl).tagOf_eq
    exact decide_eq_true (hg (ht.trans_ne Tag.noConfusion))

end Rlp.Raw
