import Mathlib.Tactic.NormNum.Prime
import DomiconExec.Primitives.Primality
import DomiconExec.Objects.Curve

open List Bytes Primality

namespace Element

variable {a b : Element} {n : Nat}

-- The factors of the modulus minus one, of its greatest factors minus one, and so on.
theorem isRoot_factors :
    isRoot 405928799 22 29 [2, 11, 3691, 4999] ∧
    isRoot 11465965001 3 34 [2, 2, 2, 5, 5, 5, 5, 7, 327599] ∧
    isRoot 173171039 13 28 [2, 73, 89, 13327] ∧
    isRoot 1263766531 10 31 [2, 3, 5, 13, 911, 3557] ∧
    isRoot 35385462869 2 36 [1263766531, 2, 2, 7] ∧
    isRoot 2480874801745591 6 52 [35385462869, 2, 3, 3, 5, 19, 41] ∧
    isRoot 13427688667394608761327070753331941386769 17 134
      [2480874801745591, 173171039, 2, 2, 2, 2, 3, 7, 11, 1853641, 4562087] ∧
    isRoot modulus 3 254 [13427688667394608761327070753331941386769, 11465965001, 405928799,
      2, 3, 3, 13, 29, 67, 229, 311, 983, 11003] := by
  decide +kernel

theorem prime_modulus : modulus.Prime := by
  obtain ⟨h₁, h₂, h₃, h₄, h₅, h₆, h₇, h₈⟩ := isRoot_factors
  have p₁ := prime_of_isRoot _ _ _ (by norm_num) h₁
  have p₂ := prime_of_isRoot _ _ _ (by norm_num) h₂
  have p₃ := prime_of_isRoot _ _ _ (by norm_num) h₃
  have p₄ := prime_of_isRoot _ _ _ (by norm_num) h₄
  have p₅ := prime_of_isRoot _ _ _ (forall_mem_cons.mpr ⟨p₄, by norm_num⟩) h₅
  have p₆ := prime_of_isRoot _ _ _ (forall_mem_cons.mpr ⟨p₅, by norm_num⟩) h₆
  refine prime_of_isRoot _ _ _ ?_ h₈
  refine forall_mem_cons.mpr ⟨prime_of_isRoot _ _ _ ?_ h₇, ?_⟩
  case refine_1 =>
    exact forall_mem_cons.mpr ⟨p₆, forall_mem_cons.mpr ⟨p₃, by norm_num⟩⟩
  case refine_2 =>
    exact forall_mem_cons.mpr ⟨p₂, forall_mem_cons.mpr ⟨p₁, by norm_num⟩⟩

instance : Fact modulus.Prime :=
  ⟨prime_modulus⟩

theorem words_inj {l l' : List UInt64} (hl : l.length = l'.length)
    (h : l.foldr (fun w n => n * 2 ^ 64 + w.toNat) 0 =
      l'.foldr (fun w n => n * 2 ^ 64 + w.toNat) 0) : l = l' := by
  induction l generalizing l'
  case nil => exact (length_eq_zero_iff.mp hl.symm).symm
  case cons w l hi =>
    obtain ⟨w', l', rfl⟩ := exists_cons_of_length_eq_add_one hl.symm
    have hw := w.toNat_lt
    have hw' := w'.toNat_lt
    rw [foldr_cons, foldr_cons] at h
    have h₁ : w = w' := UInt64.toNat_inj.mp (by omega)
    have h₂ : l = l' := hi (Nat.succ.inj hl) (by omega)
    rw [h₁, h₂]

theorem words_ofWords (h : n < 2 ^ 256) : (ofWords n).words = n := by
  simp only [words, ofWords, foldr_cons, foldr_nil, UInt64.toNat_ofNat']
  omega

theorem montgomery_mul : montgomeryInverse * 2 ^ 256 ≡ 1 [MOD modulus] :=
  rfl

theorem words_modEq (z : Element) : z.words ≡ z.toNat * 2 ^ 256 [MOD modulus] := by
  have h := (Nat.mod_modEq (z.words * montgomeryInverse) modulus).mul_right (2 ^ 256)
  have hm := montgomery_mul.mul_left z.words
  rw [← mul_assoc, mul_one] at hm
  exact (h.trans hm).symm

theorem toNat_inj (ha : a.words < modulus) (hb : b.words < modulus) (h : a.toNat = b.toNat) :
    a = b := by
  have hw := words_modEq b
  rw [← h] at hw
  have hl : a.val.length = b.val.length := a.property.trans b.property.symm
  exact Subtype.ext <| words_inj hl <| ((words_modEq a).trans hw.symm).eq_of_lt_of_lt ha hb

theorem toNat_lt (z : Element) : z.toNat < modulus :=
  Nat.mod_lt _ (by decide)

theorem ofNat_words (n : Nat) : (ofNat n).words = n * 2 ^ 256 % modulus :=
  have h : n * 2 ^ 256 % modulus < modulus := Nat.mod_lt _ (by decide)
  words_ofWords (h.trans (by decide))

theorem ofNat_words_lt (n : Nat) : (ofNat n).words < modulus :=
  ofNat_words n ▸ Nat.mod_lt _ (by decide)

theorem toNat_ofNat (n : Nat) : (ofNat n).toNat ≡ n [MOD modulus] := by
  have h := (Nat.mod_modEq (n * 2 ^ 256) modulus).mul_right montgomeryInverse
  have hm := montgomery_mul.mul_left n
  rw [mul_comm montgomeryInverse, ← mul_assoc, mul_one] at hm
  rw [toNat, ofNat_words]
  exact (Nat.mod_modEq _ _).trans (h.trans hm)

theorem toNat_bytes (z : Element) : z.bytes.val.toNat = z.toNat := by
  have hl : (bigEndian z.toNat).length ≤ 32 :=
    bigEndian_length_le.mpr (z.toNat_lt.trans (by decide))
  exact (toNat_fit hl).trans (toNat_bigEndian _)

theorem bytes_eq_iff : a.bytes = b.bytes ↔ a.toNat = b.toNat := by
  constructor
  case mp =>
    exact fun h => (toNat_bytes a).symm.trans ((congrArg (·.val.toNat) h).trans (toNat_bytes b))
  case mpr => exact fun h => congrArg (fun n => ByteArr.setBytes (bigEndian n)) h
end Element

namespace Digest

open Element

variable {d e : Digest}

theorem hash_eq_iff : d.hash = e.hash ↔ d.y.toNat = e.y.toNat := by
  have h (d : Digest) : d.hash = d.y.bytes := ByteArr.setBytes_append _ _
  rw [h, h, bytes_eq_iff]

def cubeRoot : Nat :=
  21888242871839275220042445260109153167277707414472061641714758635765020556616

theorem three_ne_square (y : ZMod modulus) : y ^ 2 ≠ 3 :=
  ne_pow_of_powMod (e := (modulus - 1) / 2) (a := 3) 254 (by decide) (by decide)
    (by decide +kernel) (mt (ZMod.natCast_eq_zero_iff _ _).mp (by decide)) y

theorem neg_three_ne_cube (x : ZMod modulus) : x ^ 3 ≠ -3 := by
  have h : ((modulus - 3 : Nat) : ZMod modulus) = -3 := by
    rw [Nat.cast_sub (by decide), ZMod.natCast_self, zero_sub, Nat.cast_ofNat]
  rw [← h]
  exact ne_pow_of_powMod (e := (modulus - 1) / 3) 254 (by decide) (by decide) (by decide +kernel)
    (mt (ZMod.natCast_eq_zero_iff _ _).mp (by decide)) x

theorem cubeRoot_ne_one : (cubeRoot : ZMod modulus) ≠ 1 := by
  rw [← Nat.cast_one, Ne, ZMod.natCast_eq_natCast_iff]
  decide

theorem isPoint_zero : zero.IsPoint :=
  ⟨by decide, by decide, .inl rfl⟩

namespace IsPoint

theorem equation_zmod (h : d.IsPoint) (hd : d ≠ zero) :
    (d.y.toNat : ZMod modulus) ^ 2 = (d.x.toNat : ZMod modulus) ^ 3 + 3 := by
  have he := (ZMod.natCast_eq_natCast_iff _ _ _).mpr (h.equation.resolve_left hd)
  push_cast at he
  exact he

theorem x_ne_zero (h : d.IsPoint) (hd : d ≠ zero) : (d.x.toNat : ZMod modulus) ≠ 0 := by
  intro hx
  have he := h.equation_zmod hd
  rw [hx, zero_pow (by decide), zero_add] at he
  exact three_ne_square _ he

theorem y_ne_zero (h : d.IsPoint) (hd : d ≠ zero) : (d.y.toNat : ZMod modulus) ≠ 0 := by
  intro hy
  have he := h.equation_zmod hd
  rw [hy, zero_pow (by decide)] at he
  exact neg_three_ne_cube _ (eq_neg_of_add_eq_zero_left he.symm)

-- The curve has an automorphism that changes the first coordinate only.
theorem exists_hash_eq (h : d.IsPoint) (hd : d ≠ zero) :
    ∃ e : Digest, e.IsPoint ∧ d.hash = e.hash ∧ d ≠ e := by
  have hx := toNat_ofNat (cubeRoot * d.x.toNat)
  refine ⟨⟨ofNat (cubeRoot * d.x.toNat), d.y⟩, ⟨ofNat_words_lt _, h.y, .inr ?_⟩, ?_, fun he => ?_⟩
  case refine_1 =>
    have hr : cubeRoot ^ 3 ≡ 1 [MOD modulus] := rfl
    have hr := hr.mul_right (d.x.toNat ^ 3)
    rw [← mul_pow, one_mul] at hr
    exact (h.equation.resolve_left hd).trans (((hx.pow 3).trans hr).add_right 3).symm
  case refine_2 => exact hash_eq_iff.mpr rfl
  case refine_3 =>
    have he : d.x = ofNat (cubeRoot * d.x.toNat) := congrArg Digest.x he
    rw [← he] at hx
    have hx := (ZMod.natCast_eq_natCast_iff _ _ _).mpr hx
    rw [Nat.cast_mul] at hx
    exact cubeRoot_ne_one (mul_eq_right₀ (h.x_ne_zero hd) |>.mp hx.symm)

theorem eq_zero_of_hash (h : d.IsPoint) (hh : zero.hash = d.hash) : zero = d := by
  by_contra hd
  have hy : d.y.toNat = 0 := (hash_eq_iff.mp hh).symm
  exact h.y_ne_zero (Ne.symm hd) (by rw [hy, Nat.cast_zero])

end IsPoint

-- The first byte of a coordinate leaves room for the flags.
theorem bytes_eq_cons (z : Element) : ∃ a l, z.bytes.val = a :: l ∧ a.toNat < 64 := by
  obtain ⟨a, l, h⟩ := exists_cons_of_length_eq_add_one z.bytes.property
  have hl : (a :: l).length = 32 := h ▸ z.bytes.property
  have hl : l.length = 31 := Nat.succ.inj hl
  have ht := toNat_append [a] l
  have ha : Bytes.toNat [a] = a.toNat := (toNat_concat [] a).trans (Nat.zero_add _)
  rw [singleton_append, ← h, toNat_bytes, hl, ha] at ht
  have hm : 64 * 256 ^ 31 > modulus := by decide
  have := z.toNat_lt
  exact ⟨a, l, h, by omega⟩

theorem flags_mem (d : Digest) : d.flags = 64 ∨ d.flags = 128 ∨ d.flags = 192 := by
  unfold flags
  split
  case isTrue  => exact .inl rfl
  case isFalse =>
    split
    case isTrue  => exact .inr (.inl rfl)
    case isFalse => exact .inr (.inr rfl)

theorem flags_eq_iff : d.flags = e.flags ↔ (d = zero ↔ e = zero) ∧
    (d ≠ zero → (d.y.toNat ≤ modulus / 2 ↔ e.y.toNat ≤ modulus / 2)) := by
  unfold flags
  by_cases hd : d = zero <;> by_cases he : e = zero <;>
    by_cases hd' : d.y.toNat ≤ modulus / 2 <;> by_cases he' : e.y.toNat ≤ modulus / 2 <;>
    simp [hd, he, hd', he']

theorem compressed_eq (h : d.compressed = e.compressed) :
    d.x.bytes = e.x.bytes ∧ d.flags = e.flags := by
  obtain ⟨a, l, ha, hl⟩ := bytes_eq_cons d.x
  obtain ⟨a', l', ha', hl'⟩ := bytes_eq_cons e.x
  rw [compressed, compressed, ha, ha'] at h
  obtain ⟨hh, rfl⟩ := List.cons.inj h
  have hn := congrArg UInt8.toNat hh
  rw [UInt8.toNat_add, UInt8.toNat_add] at hn
  have hf : d.flags = e.flags ∧ a.toNat = a'.toNat := by
    obtain hd | hd | hd := flags_mem d <;> obtain he | he | he := flags_mem e <;>
      rw [hd, he] at hn ⊢ <;> simp at hn ⊢ <;> omega
  refine ⟨ByteArr.ext ?_, hf.left⟩
  rw [ha, ha', UInt8.toNat_inj.mp hf.right]

namespace IsPoint

theorem eq_of_toNat (hd : d.IsPoint) (he : e.IsPoint) (hx : d.x.toNat = e.x.toNat)
    (hy : d.y.toNat = e.y.toNat) : d = e := by
  have hx := toNat_inj hd.x he.x hx
  have hy := toNat_inj hd.y he.y hy
  cases d
  cases e
  exact Digest.mk.injEq .. |>.mpr ⟨hx, hy⟩

-- A point is determined by its first coordinate and the flags.
theorem eq_of_flags (hd : d.IsPoint) (he : e.IsPoint) (hx : d.x.toNat = e.x.toNat)
    (hf : d.flags = e.flags) : d = e := by
  obtain ⟨hz, hl⟩ := flags_eq_iff.mp hf
  by_cases h : d = zero
  case pos => exact h.trans (hz.mp h).symm
  case neg =>
    have hs := hd.equation_zmod h
    rw [hx, ← he.equation_zmod (mt hz.mpr h)] at hs
    apply hd.eq_of_toNat he hx
    obtain hs | hs := sq_eq_sq_iff_eq_or_eq_neg.mp hs
    case inl =>
      exact ((ZMod.natCast_eq_natCast_iff _ _ _).mp hs).eq_of_lt_of_lt d.y.toNat_lt e.y.toNat_lt
    case inr =>
      -- The two second coordinates add up to the modulus, so that only one of them is small.
      have hs : ((d.y.toNat + e.y.toNat : Nat) : ZMod modulus) = 0 := by
        rw [Nat.cast_add, hs, neg_add_cancel]
      have hs := (ZMod.natCast_eq_zero_iff _ _).mp hs
      have hn : d.y.toNat ≠ 0 := fun hn => hd.y_ne_zero h (by rw [hn, Nat.cast_zero])
      have hs : d.y.toNat + e.y.toNat = modulus := by
        have hd := d.y.toNat_lt
        have he := e.y.toNat_lt
        exact Nat.eq_of_dvd_of_lt_two_mul (by omega) hs (by omega)
      have hm : modulus % 2 = 1 := rfl
      have hl := hl h
      omega

theorem compressed_injective (hd : d.IsPoint) (he : e.IsPoint)
    (h : d.compressed = e.compressed) : d = e := by
  obtain ⟨hx, hf⟩ := compressed_eq h
  exact hd.eq_of_flags he (bytes_eq_iff.mp hx) hf

theorem marshal_injective (hd : d.IsPoint) (he : e.IsPoint)
    (h : d.marshal = e.marshal) : d = e := by
  obtain ⟨hx, hy⟩ := append_inj h (d.x.bytes.property.trans e.x.bytes.property.symm)
  exact hd.eq_of_toNat he (bytes_eq_iff.mp (ByteArr.ext hx)) (bytes_eq_iff.mp (ByteArr.ext hy))

end IsPoint

theorem marshal_length (d : Digest) : d.marshal.length = 64 :=
  (length_append).trans (congrArg₂ _ d.x.bytes.property d.y.bytes.property)

theorem compressed_length (d : Digest) : d.compressed.length = 32 :=
  (length_modifyHead).trans d.x.bytes.property

-- No bytes stand for two points.
theorem exists_codec : ∃ setBytes, Codec setBytes := by
  classical
  let P (b : Bytes) (d : Digest) := d.IsPoint ∧ (b = d.marshal ∨ b = d.compressed)
  have hu {b : Bytes} {d e : Digest} (hd : P b d) (he : P b e) : d = e := by
    obtain ⟨hd, rfl | rfl⟩ := hd <;> obtain ⟨he, h | h⟩ := he
    case inl.inl => exact hd.marshal_injective he h
    case inr.inr => exact hd.compressed_injective he h
    all_goals
      have hl := congrArg List.length h
      simp only [marshal_length, compressed_length] at hl
      contradiction
  let setBytes (b : Bytes) : Digest × Option GoError :=
    if h : ∃ d, P b d then (h.choose, none) else (zero, some ⟨"invalid point"⟩)
  have hs {b : Bytes} {d : Digest} (hd : P b d) : setBytes b = (d, none) := by
    have h : ∃ d, P b d := ⟨d, hd⟩
    simp only [setBytes, dif_pos h, hu h.choose_spec hd]
  exact ⟨setBytes, fun d hd => hs ⟨hd, .inl rfl⟩, fun d hd => hs ⟨hd, .inr rfl⟩⟩

-- There are three points with the same second coordinate, except for the point at infinity.
theorem identified_iff_zero (d : Digest) (hd : d.IsPoint) :
    (∀ e : Digest, e.IsPoint → d.hash = e.hash → d = e) ↔ d = zero := by
  constructor
  case mp =>
    intro h
    by_contra hz
    obtain ⟨e, he, hh, hne⟩ := hd.exists_hash_eq hz
    exact hne (h e he hh)
  case mpr =>
    rintro rfl e he hh
    exact he.eq_zero_of_hash hh

theorem zero_identified :
    zero.IsPoint ∧ ∀ e : Digest, e.IsPoint → zero.hash = e.hash → zero = e :=
  ⟨isPoint_zero, (identified_iff_zero zero isPoint_zero).mpr rfl⟩

def generator : Digest where
  x := ofNat 1
  y := ofNat 2

theorem isPoint_generator : generator.IsPoint :=
  ⟨ofNat_words_lt 1, ofNat_words_lt 2, .inr (by decide +kernel)⟩

-- The generator and its image under the automorphism.
theorem not_identified_generator :
    ¬∀ d e : Digest, d.IsPoint → e.IsPoint → d.hash = e.hash → d = e := by
  intro h
  have hg' : IsPoint ⟨ofNat cubeRoot, ofNat 2⟩ :=
    ⟨ofNat_words_lt cubeRoot, ofNat_words_lt 2, .inr (by decide +kernel)⟩
  have he := h _ _ isPoint_generator hg' (hash_eq_iff.mpr rfl)
  exact absurd he (by decide +kernel)

end Digest
