import DomiconExec.Rlp.Theorems.Raw
import DomiconExec.Rlp.Theorems.Strict

namespace Rlp

open List Bytes

-- The representation of a number: its shortest big-endian byte sequence as a string.
def numeral (n : Nat) : Bytes :=
  Item.encodeStr (bigEndian n)

variable {α : Type} {p : Reader α} {value : α → Nat} {range : α → Prop} {w : EncBuffer} {n : Nat}

theorem bigEndian_length_le_of_toNat {b : Bytes} (h : b.toNat = n) :
    (bigEndian n).length ≤ b.length :=
  bigEndian_length_le.mpr (h ▸ toNat_lt b)

theorem writeUint64_numeral (x : UInt64) : w.writeUint64 x = w.append (numeral x.toNat) := by
  rw [EncBuffer.writeUint64_eq, ← EncBuffer.append_eq_put, numeral]

theorem writeBigInt_numeral (h : (numeral n).length < 2 ^ 64) :
    w.writeBigInt n = w.append (numeral n) := by
  have hl := Nat.lt_of_le_of_lt Item.length_le_encodeStr h
  rw [EncBuffer.writeBigInt_eq n hl, ← EncBuffer.append_eq_put, numeral]

theorem writeUint256_numeral (z : BitVec 256) : w.writeUint256 z = w.append (numeral z.toNat) := by
  rw [EncBuffer.writeUint256_eq, ← EncBuffer.append_eq_put, numeral]

theorem numeral_length_lt (h : n < 2 ^ 256) : (numeral n).length < 2 ^ 64 := by
  have hl : (bigEndian n).length ≤ 32 := bigEndian_length_le.mpr h
  unfold numeral Item.encodeStr
  split
  case isTrue  => omega
  case isFalse =>
    rw [header_of_lt (by omega), length_append, length_singleton]
    omega

-- The reader accepts the representations of numbers and nothing else, such as leading zeros.
structure ReadsNumerals (p : Reader α) (value : α → Nat) (range : α → Prop) : Prop where
  consumes : ∀ a, range a → Consumes p (numeral (value a)) a
  accepts : Accepts p fun a b => range a ∧ b = numeral (value a)
  rejects : ∀ s a s' b, s.Bounded → s.kind = none → Item.encodeStr (0 :: b) <+: s.r → p s ≠ .ok a s'

theorem ReadsNumerals.of (hc : ∀ a, range a → Consumes p (numeral (value a)) a)
    (ha : Accepts p fun a b => range a ∧ b = numeral (value a)) : ReadsNumerals p value range where
  consumes := hc
  accepts := ha
  rejects := by
    intro s a s' b hs hk hp h
    obtain ⟨_, ⟨-, rfl⟩, ht, -⟩ := ha s a s' hs hk h
    have hn := ht.length_lt hs
    obtain ⟨rest, hr⟩ := hp
    have hl := congrArg List.length hr
    rw [length_append] at hl
    have hs := hs.short
    have hb := @Item.length_le_encodeStr (0 :: b)
    have hv := @Item.length_le_encodeStr (bigEndian (value a))
    have he : 0 :: b = bigEndian (value a) :=
      Raw.eq_of_encodeStr_append (by omega) (by rw [numeral] at hn; omega) (hr.trans ht.r)
    exact bigEndian_head_ne (value a) (by rw [← he, List.head?_cons])

theorem uint64_readsNumerals : ReadsNumerals (Stream.uint 64) id (· < 2 ^ 64) :=
  .of (fun _ h => Stream.uint_consumes h (bigEndian_length_le.mpr h))
    (Stream.uint_accepts 64 (by decide))

theorem readUint256_readsNumerals :
    ReadsNumerals Stream.readUint256 BitVec.toNat fun _ => True :=
  .of (fun z _ => Stream.readUint256_consumes z)
    (Stream.readUint256_accepts.mono fun _ _ h => ⟨trivial, h⟩)

theorem decodeBigInt_readsNumerals :
    ReadsNumerals Stream.decodeBigInt id fun n => (numeral n).length < 2 ^ 64 := by
  refine .of (fun n h => ?_) fun s n s' hs hk h => ?_
  case refine_1 =>
    exact Stream.decodeBigInt_consumes (Nat.lt_of_le_of_lt Item.length_le_encodeStr h)
  case refine_2 =>
    obtain ⟨_, rfl, ht, hk'⟩ := Stream.decodeBigInt_accepts s n s' hs hk h
    exact ⟨_, ⟨Nat.lt_trans (ht.length_lt hs) (by decide), rfl⟩, ht, hk'⟩

-- All encoders of integers write the same bytes, and all decoders accept only these.
theorem integer_codecs_agree (b : Bytes) (w : EncBuffer) :
    (∀ x : UInt64,
      Raw.appendUint64 b x = b ++ numeral x.toNat ∧
      w.writeUint64 x = w.append (numeral x.toNat) ∧
      w.writeBigInt x.toNat = w.append (numeral x.toNat) ∧
      w.writeUint256 (.ofNat 256 x.toNat) = w.append (numeral x.toNat) ∧
      Raw.intSize x = (numeral x.toNat).length) ∧
    (∀ z : BitVec 256, w.writeBigInt z.toNat = w.writeUint256 z) ∧
    (∀ n, (numeral n).length < 2 ^ 64 → w.writeBigInt n = w.append (numeral n)) ∧
    (∀ n, (bigEndian n).toNat = n ∧
      ∀ c : Bytes, c.toNat = n → (bigEndian n).length ≤ c.length ∧
        (c.length = (bigEndian n).length → c = bigEndian n)) ∧
    ReadsNumerals (Stream.uint 64) id (· < 2 ^ 64) ∧
    ReadsNumerals Stream.decodeBigInt id (fun n => (numeral n).length < 2 ^ 64) ∧
    ReadsNumerals Stream.readUint256 BitVec.toNat fun _ => True := by
  refine ⟨fun x => ?_, fun z => ?_, fun n h => writeBigInt_numeral h, fun n => ?_,
    uint64_readsNumerals, decodeBigInt_readsNumerals, readUint256_readsNumerals⟩
  case refine_1 =>
    have hx : x.toNat < 2 ^ 256 := Nat.lt_trans x.toNat_lt (by decide)
    refine ⟨congrArg (b ++ ·) (Raw.uint64Bytes_eq x), writeUint64_numeral x,
      writeBigInt_numeral (numeral_length_lt hx), ?_, Raw.intSize_eq x⟩
    rw [writeUint256_numeral, BitVec.toNat_ofNat, Nat.mod_eq_of_lt hx]
  case refine_2 => rw [writeBigInt_numeral (numeral_length_lt z.isLt), writeUint256_numeral]
  case refine_3 =>
    refine ⟨toNat_bigEndian n, fun c h => ⟨bigEndian_length_le_of_toNat h, fun hl => ?_⟩⟩
    exact toNat_inj hl (h.trans (toNat_bigEndian n).symm)

-- The number 1024 takes three bytes, and is not read from four.
theorem integer_codecs_agree_1024 :
    EncBuffer.empty.writeBigInt 1024 = EncBuffer.empty.append [0x82, 0x04, 0x00] ∧
    (∃ s, Stream.uint 64 (.reset [0x82, 0x04, 0x00] 3) = .ok 1024 s ∧ s.r = []) ∧
    ∀ n s, Stream.uint 64 (.reset [0x83, 0x00, 0x04, 0x00] 4) ≠ .ok n s := by
  have hn : numeral 1024 = [0x82, 0x04, 0x00] := by decide +kernel
  obtain ⟨-, -, hw, -, ⟨hc, -, hr⟩, -⟩ := integer_codecs_agree [] .empty
  refine ⟨hn ▸ hw 1024 (by decide +kernel), ?_, fun n s => ?_⟩
  case refine_1 =>
    have hs := hc 1024 (by decide) (.reset [0x82, 0x04, 0x00] 3) rfl
    rw [id, hn] at hs
    obtain ⟨s, hs, -, hm⟩ := hs (prefix_refl _) ⟨by simp [Stream.reset], fun _ => Nat.le_refl _⟩
    exact ⟨s, hs, hm.r⟩
  case refine_2 =>
    exact hr (.reset [0x83, 0x00, 0x04, 0x00] 4) n s [0x04, 0x00]
      ⟨by decide, fun _ h => absurd h not_mem_nil⟩ rfl (prefix_refl _)

end Rlp
