import Mathlib.Data.List.GetD
import DomiconExec.Rlp.Encode

namespace Rlp

open List Bytes

section Integers

variable {i : UInt64} {n : Nat}

theorem toUInt8_shift (i k : UInt64) (hk : k.toNat < 64) :
    (i >>> k).toUInt8 = UInt8.ofNat (i.toNat / 2 ^ k.toNat % 256) := by
  apply UInt8.toNat_inj.mp
  simp [UInt64.toNat_shiftRight, Nat.shiftRight_eq_div_pow, Nat.mod_eq_of_lt hk]

-- Splits the last byte off the number to the left of the `k`-th bit.
theorem bigEndian_shift (i k : UInt64) (hk : k.toNat < 64) (h : 2 ^ k.toNat ≤ i.toNat) :
    bigEndian (i.toNat / 2 ^ k.toNat) =
      bigEndian (i.toNat / 2 ^ (k.toNat + 8)) ++ [(i >>> k).toUInt8] := by
  have hp : 0 < i.toNat / 2 ^ k.toNat := Nat.div_pos h (by positivity)
  rw [bigEndian_of_pos hp, toUInt8_shift i k hk, Nat.div_div_eq_div_mul, pow_add]
  rfl

theorem putint_eq (h : 0 < i.toNat) : putint i = bigEndian i.toNat := by
  have hi := i.toNat_lt
  have h0 : bigEndian i.toNat = bigEndian (i.toNat / 2 ^ 8) ++ [i.toUInt8] := by
    simpa using bigEndian_shift i 0 (by decide) h
  have h8 := bigEndian_shift i 8 (by decide)
  have h16 := bigEndian_shift i 16 (by decide)
  have h24 := bigEndian_shift i 24 (by decide)
  have h32 := bigEndian_shift i 32 (by decide)
  have h40 := bigEndian_shift i 40 (by decide)
  have h48 := bigEndian_shift i 48 (by decide)
  have h56 := bigEndian_shift i 56 (by decide)
  simp only [UInt64.toNat_ofNat, Nat.reducePow, Nat.reduceMod, Nat.reduceAdd] at *
  unfold putint
  -- Each branch splits off as many bytes as it writes, nothing is left after that.
  repeat' split
  all_goals simp_all [Nat.div_eq_of_lt]

theorem intsize_go (size : Nat) (h : 0 < i.toNat) (hn : (bigEndian i.toNat).length ≤ n) :
    intsize.go n i (size + 1) = size + (bigEndian i.toNat).length := by
  induction n generalizing i size
  case zero =>
    have := bigEndian_length_pos h
    omega
  case succ n hi =>
    have he : bigEndian i.toNat = bigEndian (i >>> 8).toNat ++ [i.toUInt8] := by
      simpa [Nat.shiftRight_eq_div_pow] using bigEndian_shift i 0 (by decide) h
    simp only [he, length_append, length_singleton] at hn ⊢
    unfold intsize.go
    dsimp only
    split
    case isTrue hz => simp [hz]
    case isFalse hz =>
      have hp : 0 < (i >>> 8).toNat := Nat.pos_of_ne_zero fun h => hz <| UInt64.toNat_inj.mp h
      rw [hi (size + 1) hp (by omega)]
      omega

theorem intsize_eq (h : 0 < i.toNat) : intsize i = (bigEndian i.toNat).length := by
  have hl : (bigEndian i.toNat).length ≤ 8 := bigEndian_length_le.mpr i.toNat_lt
  simpa [intsize] using intsize_go 0 h hl

theorem puthead_eq {smalltag largetag : UInt8} (h : n < 2 ^ 64) :
    puthead smalltag largetag (UInt64.ofNat n) = header smalltag largetag n := by
  have hn := UInt64.toNat_ofNat_of_lt' h
  have hc : UInt64.ofNat n < 56 ↔ n < 56 := by simp [UInt64.lt_iff_toNat_lt, hn]
  unfold puthead header
  simp only [hc]
  split
  case isTrue  => simp
  case isFalse => simp [putint_eq (i := UInt64.ofNat n) (by omega), hn]

theorem header_length {smalltag largetag : UInt8} (h : n < 2 ^ 64) :
    (header smalltag largetag n).length = if n < 56 then 1 else 1 + intsize (UInt64.ofNat n) := by
  have hn := UInt64.toNat_ofNat_of_lt' h
  unfold header
  split
  case isTrue  => simp
  case isFalse => simp [intsize_eq (i := UInt64.ofNat n) (by omega), hn, Nat.add_comm]

end Integers

-- The output of an encoder: data that is written as it is, and lists, each with the rest of the
-- output.
inductive Layout
  | nil
  | raw (b : Bytes) (rest : Layout)
  | list (content rest : Layout)

namespace Layout

def bytes : Layout → Bytes
  | nil               => []
  | raw b rest        => b ++ rest.bytes
  | list content rest => header 0xC0 0xF7 content.bytes.length ++ content.bytes ++ rest.bytes

def str : Layout → Bytes
  | nil               => []
  | raw b rest        => b ++ rest.str
  | list content rest => content.str ++ rest.str

def lheads : Layout → Nat → List ListHead
  | nil, _                    => []
  | raw b rest, offset        => rest.lheads (offset + b.length)
  | list content rest, offset =>
    ⟨offset, content.bytes.length⟩ :: content.lheads offset ++
      rest.lheads (offset + content.str.length)

def lhsize : Layout → Nat
  | nil               => 0
  | raw _ rest        => rest.lhsize
  | list content rest =>
    (header 0xC0 0xF7 content.bytes.length).length + content.lhsize + rest.lhsize

def append : Layout → Layout → Layout
  | nil, o               => o
  | raw b rest, o        => raw b (rest.append o)
  | list content rest, o => list content (rest.append o)

variable {o : Layout} {p : Nat}

@[simp]
theorem bytes_append (o o' : Layout) : (o.append o').bytes = o.bytes ++ o'.bytes := by
  induction o <;> simp_all [append, bytes]

@[simp]
theorem str_append (o o' : Layout) : (o.append o').str = o.str ++ o'.str := by
  induction o <;> simp_all [append, Layout.str]

@[simp]
theorem lheads_append (o o' : Layout) (offset : Nat) :
    (o.append o').lheads offset = o.lheads offset ++ o'.lheads (offset + o.str.length) := by
  induction o generalizing offset <;> simp_all [append, Layout.str, lheads, Nat.add_assoc]

@[simp]
theorem lhsize_append (o o' : Layout) : (o.append o').lhsize = o.lhsize + o'.lhsize := by
  induction o <;> simp_all [append, lhsize, Nat.add_assoc]

theorem bytes_length (o : Layout) : o.bytes.length = o.str.length + o.lhsize := by
  induction o <;> simp_all [bytes, Layout.str, lhsize]
  case raw  => omega
  case list => omega

theorem le_offset (h : ListHead) (hm : h ∈ o.lheads p) : p ≤ h.offset := by
  induction o generalizing p <;> simp_all [lheads]
  case raw b rest hi => exact Nat.le_of_add_right_le (hi hm)
  case list content rest hc hr =>
    obtain rfl | hm | hm := hm
    case inl     => exact Nat.le_refl _
    case inr.inl => exact hc hm
    case inr.inr => exact Nat.le_of_add_right_le (hr hm)

end Layout

namespace EncBuffer

variable {w : EncBuffer} {o : Layout} {hs : List ListHead} {p n : Nat} {str : Bytes}

def put (w : EncBuffer) (o : Layout) : EncBuffer where
  str := w.str ++ o.str
  lheads := w.lheads ++ o.lheads w.str.length
  lhsize := w.lhsize + o.lhsize

@[simp]
theorem put_nil (w : EncBuffer) : w.put .nil = w := by
  simp [put, Layout.str, Layout.lheads, Layout.lhsize]

@[simp]
theorem put_put (w : EncBuffer) (o o' : Layout) : (w.put o).put o' = w.put (o.append o') := by
  simp [put, Nat.add_assoc]

theorem append_eq_put (w : EncBuffer) (b : Bytes) : w.append b = w.put (.raw b .nil) := by
  simp [append, put, Layout.str, Layout.lheads, Layout.lhsize]

theorem drop_of_eq_append {a b : Bytes} (h : str.drop p = a ++ b) : str.drop (p + a.length) = b := by
  rw [← drop_drop, h, drop_left]

theorem copyTo_skip {b : Bytes} (hd : str.drop p = b ++ str.drop (p + b.length))
    (hh : ∀ h ∈ hs, p + b.length ≤ h.offset) :
    copyTo str hs p = b ++ copyTo str hs (p + b.length) := by
  cases hs
  case nil => rw [copyTo, copyTo, ← hd]
  case cons h hs =>
    have ho := hh h List.mem_cons_self
    have hl : h.offset - p = b.length + (h.offset - (p + b.length)) := by omega
    rw [copyTo, copyTo, drop_take, drop_take, hd, hl, take_length_add_append]
    simp

theorem copyTo_lheads (hl : o.bytes.length < 2 ^ 64)
    (hd : str.drop p = o.str ++ str.drop (p + o.str.length))
    (hh : ∀ h ∈ hs, p + o.str.length ≤ h.offset) :
    copyTo str (o.lheads p ++ hs) p = o.bytes ++ copyTo str hs (p + o.str.length) := by
  induction o generalizing p hs
  case nil => simp [Layout.lheads, Layout.bytes, Layout.str]
  case raw b rest hi =>
    simp only [Layout.lheads, Layout.bytes, Layout.str, append_assoc, length_append,
      ← Nat.add_assoc] at *
    have hd' := drop_of_eq_append hd
    rw [copyTo_skip (hd' ▸ hd) ?_, hi (by omega) hd' hh]
    intro h hm
    cases mem_append.mp hm
    case inl hm => exact Layout.le_offset h hm
    case inr hm => exact Nat.le_of_add_right_le (hh h hm)
  case list content rest hc hr =>
    simp only [Layout.lheads, Layout.bytes, Layout.str, append_assoc, length_append,
      cons_append, ← Nat.add_assoc] at *
    have hd' := drop_of_eq_append hd
    have hn : content.bytes.length < 2 ^ 64 := by omega
    rw [copyTo, drop_take, Nat.sub_self, take_zero, nil_append, ListHead.encode,
      puthead_eq hn, hc hn (hd' ▸ hd) ?_, hr (by omega) hd' hh]
    intro h hm
    cases mem_append.mp hm
    case inl hm => exact Layout.le_offset h hm
    case inr hm => exact Nat.le_of_add_right_le (hh h hm)

theorem size_put (o : Layout) : (empty.put o).size = o.bytes.length := by
  simp [size, put, empty, Layout.bytes_length]

theorem copyTo_put (hl : o.bytes.length < 2 ^ 64) :
    copyTo (empty.put o).str (empty.put o).lheads 0 = o.bytes := by
  have hc : copyTo o.str (o.lheads 0 ++ []) 0 = o.bytes ++ copyTo o.str [] (0 + o.str.length) :=
    copyTo_lheads hl (by simp) (by simp)
  simpa [put, empty, copyTo] using hc

theorem makeBytes_put (hl : o.bytes.length < 2 ^ 64) : (empty.put o).makeBytes = o.bytes := by
  rw [makeBytes, size_put, copyTo_put hl, takeD_eq_take _ (Nat.le_refl _), take_length]

theorem listEnd_put (hl : o.bytes.length < 2 ^ 64) :
    (w.list.fst.put o).listEnd w.list.snd = w.put (.list o .nil) := by
  have hs : w.str.length + o.str.length + (w.lhsize + o.lhsize) - w.str.length - w.lhsize =
      o.bytes.length := by
    rw [Layout.bytes_length]
    omega
  simp only [list, put, listEnd, size, append_assoc, singleton_append,
    getD_append_right _ _ _ _ (Nat.le_refl _), Nat.sub_self, getD_cons_zero,
    set_append_right _ _ (Nat.le_refl _), set_cons_zero, length_append, hs]
  simp [Layout.str, Layout.lheads, Layout.lhsize, header_length hl]
  split <;> omega

theorem encodeStringHeader_eq (h : n < 2 ^ 64) :
    w.encodeStringHeader n = w.append (header 0x80 0xB7 n) := by
  rw [← puthead_eq h]
  have hc : UInt64.ofNat n < 56 ↔ n < 56 := by
    simp [UInt64.lt_iff_toNat_lt, UInt64.toNat_ofNat_of_lt' h]
  unfold encodeStringHeader puthead
  simp only [hc]
  split <;> simp

theorem le_7F_iff (x : UInt8) : x ≤ 0x7F ↔ x < 0x80 := by
  simp only [UInt8.le_iff_toNat_le, UInt8.lt_iff_toNat_lt]
  exact Nat.lt_succ_iff.symm

@[simp]
theorem append_append (w : EncBuffer) (a b : Bytes) : (w.append a).append b = w.append (a ++ b) := by
  simp [append]

theorem writeBytes_eq {b : Bytes} (h : b.length < 2 ^ 64) :
    w.writeBytes b = w.put (.raw (Item.encodeStr b) .nil) := by
  have hb := encodeStringHeader_eq (w := w) h
  rw [← append_eq_put]
  match b with
  | []          => simp_all [writeBytes, Item.encodeStr, single]
  | _ :: _ :: _ => simp_all [writeBytes, Item.encodeStr, single]
  | [x]         =>
    simp only [writeBytes, Item.encodeStr, single, le_7F_iff, decide_eq_true_eq]
    split <;> simp_all

theorem writeUint64_eq (i : UInt64) :
    w.writeUint64 i = w.put (.raw (Item.encodeStr (bigEndian i.toNat)) .nil) := by
  rw [← append_eq_put]
  unfold writeUint64
  split
  case isTrue hz => simp [hz, Item.encodeStr, single, header]
  case isFalse hz =>
    have hp : 0 < i.toNat := Nat.pos_of_ne_zero fun h => hz <| UInt64.toNat_inj.mp h
    have hl : (bigEndian i.toNat).length ≤ 8 := bigEndian_length_le.mpr i.toNat_lt
    have hc : i < 128 ↔ i.toNat < 128 := by simp [UInt64.lt_iff_toNat_lt]
    simp only [Item.encodeStr, single_bigEndian hp, hc]
    split
    case isTrue hi =>
      rw [bigEndian_of_lt hp (Nat.lt_trans hi (by decide))]
      simp
    case isFalse hi =>
      rw [header, if_pos (by omega), putint_eq hp]
      rfl

-- The value of some bytes of a number, of those of a word, and then of a sequence of words.
theorem toNat_bytes (d n : Nat) :
    toNat ((List.range n).map fun j => UInt8.ofNat (d / 256 ^ j)).reverse = d % 256 ^ n := by
  induction n
  case zero => rw [Nat.pow_zero, Nat.mod_one]; rfl
  case succ n hi =>
    have hx : toNat [UInt8.ofNat (d / 256 ^ n)] = d / 256 ^ n % 256 := by simp [Bytes.toNat]
    rw [range_succ, map_append, reverse_append, toNat_append, hi, map_singleton,
      reverse_singleton, hx, Nat.mod_pow_succ, length_reverse, length_map,
      length_range, Nat.mul_comm, Nat.add_comm]

theorem toNat_wordBytes (d : Nat) (h : d < 2 ^ 64) : toNat (wordBytes d).reverse = d :=
  (toNat_bytes d 8).trans (Nat.mod_eq_of_lt h)

theorem toNat_words (l : List Nat) (h : ∀ d ∈ l, d < 2 ^ 64) :
    toNat (l.flatMap wordBytes).reverse = Nat.ofDigits (2 ^ 64) l := by
  induction l
  case nil => simp
  case cons d l hi =>
    have hd := toNat_wordBytes d (h d mem_cons_self)
    rw [flatMap_cons, reverse_append, toNat_append, hd, Nat.ofDigits_cons,
      hi fun d hm => h d (mem_cons_of_mem _ hm)]
    simp [wordBytes]
    ring

theorem le_length_words (i : Nat) :
    (bigEndian i).length ≤ ((Nat.digits (2 ^ 64) i).flatMap wordBytes).length := by
  have hl : ((Nat.digits (2 ^ 64) i).flatMap wordBytes).length =
      8 * (Nat.digits (2 ^ 64) i).length := by
    simp [length_flatMap, wordBytes, Nat.mul_comm]
  have hi : i < (2 ^ 64) ^ (Nat.digits (2 ^ 64) i).length :=
    Nat.lt_base_pow_length_digits (by decide)
  rw [hl, bigEndian_length_le, pow_mul]
  exact hi

theorem ofDigits_word (z : BitVec 256) :
    Nat.ofDigits (2 ^ 64) [word z 0, word z 1, word z 2, word z 3] = z.toNat := by
  have hz := z.isLt
  simp only [Nat.ofDigits_cons, Nat.ofDigits_nil, word]
  omega

theorem putWords_eq (z : BitVec 256) :
    ([3, 2, 1, 0].flatMap fun i => (wordBytes (word z i)).reverse) = (bigEndian z.toNat).fit 32 := by
  have hw : ([3, 2, 1, 0].flatMap fun i => (wordBytes (word z i)).reverse) =
      ([word z 0, word z 1, word z 2, word z 3].flatMap wordBytes).reverse := by
    simp only [flatMap_cons, flatMap_nil, reverse_append, append_nil,
      append_assoc]
  have hv : ∀ d ∈ [word z 0, word z 1, word z 2, word z 3], d < 2 ^ 64 := by
    simp only [forall_mem_cons, not_mem_nil, false_imp_iff, implies_true, and_true]
    exact ⟨Nat.mod_lt _ (by decide), Nat.mod_lt _ (by decide), Nat.mod_lt _ (by decide),
      Nat.mod_lt _ (by decide)⟩
  have hl : (bigEndian z.toNat).length ≤ 32 := bigEndian_length_le.mpr z.isLt
  rw [hw]
  refine toNat_inj ?_ ?_
  case refine_1 => rw [fit_length]; rfl
  case refine_2 => rw [toNat_words _ hv, ofDigits_word, toNat_fit hl, toNat_bigEndian]

theorem words_eq (i : Nat) :
    (((Nat.digits (2 ^ 64) i).flatMap wordBytes).takeD (bigEndian i).length 0).reverse =
      bigEndian i := by
  have hv := toNat_words (Nat.digits (2 ^ 64) i) fun d hd => Nat.digits_lt_base (by decide) hd
  have hl := le_length_words i
  generalize (Nat.digits (2 ^ 64) i).flatMap wordBytes = l at hv hl ⊢
  rw [Nat.ofDigits_digits] at hv
  rw [takeD_eq_take _ hl]
  apply toNat_inj
  case hl => simp [hl]
  case h =>
    -- The bytes that are not taken are zero, since the number fits into the ones that are.
    rw [← take_append_drop (bigEndian i).length l, reverse_append, toNat_append,
      length_reverse, length_take_of_le hl] at hv
    have hi : i < 256 ^ (bigEndian i).length := bigEndian_length_le.mp (Nat.le_refl _)
    cases Nat.eq_zero_or_pos (toNat (l.drop (bigEndian i).length).reverse)
    case inl hz => simpa [hz] using hv
    case inr hp =>
      have := Nat.le_mul_of_pos_left (256 ^ (bigEndian i).length) hp
      omega

theorem writeBigInt_eq (i : Nat) (h : (bigEndian i).length < 2 ^ 64) :
    w.writeBigInt i = w.put (.raw (Item.encodeStr (bigEndian i)) .nil) := by
  unfold writeBigInt
  dsimp only
  split
  case isTrue hs =>
    rw [writeUint64_eq, UInt64.toNat_ofNat_of_lt' (Nat.size_le.mp hs)]
  case isFalse hs =>
    have hi : ¬i < 2 ^ 64 := fun h => hs (Nat.size_le.mpr h)
    have hn : ¬single (bigEndian i) := by
      rw [single_bigEndian (by omega)]
      omega
    rw [← bigEndian_length, words_eq, encodeStringHeader_eq h, ← append_eq_put, Item.encodeStr,
      if_neg hn, append_append]

-- The tag replaces the last of the leading zeros.
theorem set_drop_fit {b : Bytes} {m : Nat} (x : UInt8) (h : b.length ≤ m) :
    ((0 :: b.fit m).set (m - b.length) x).drop (m - b.length) = x :: b := by
  rw [fit, Nat.sub_eq_zero_of_le h, drop_zero, ← cons_append, ← replicate_succ,
    replicate_succ', append_assoc, set_append_right _ _ (by simp), drop_append]
  simp

theorem writeUint256_eq (z : BitVec 256) :
    w.writeUint256 z = w.put (.raw (Item.encodeStr (bigEndian z.toNat)) .nil) := by
  have hl : (bigEndian z.toNat).length ≤ 32 := bigEndian_length_le.mpr z.isLt
  unfold writeUint256
  dsimp only
  split
  case isTrue hs => rw [writeUint64_eq, UInt64.toNat_ofNat_of_lt' (Nat.size_le.mp hs)]
  case isFalse hs =>
    have hi : ¬z.toNat < 2 ^ 64 := fun h => hs (Nat.size_le.mpr h)
    have hn : ¬single (bigEndian z.toNat) := by
      rw [single_bigEndian (by omega)]
      omega
    rw [← bigEndian_length, putWords_eq, set_drop_fit _ hl, ← append_eq_put, Item.encodeStr,
      if_neg hn, header_of_lt (by omega)]
    rfl

theorem writeBool_eq (b : Bool) :
    w.writeBool b = w.put (.raw (Item.encodeStr (bigEndian b.toNat)) .nil) := by
  rw [← append_eq_put]
  cases b
  case false => simp [writeBool, Item.encodeStr, single, header]
  case true  => simp [writeBool, bigEndian_of_lt, Item.encodeStr, single]

end EncBuffer
end Rlp
