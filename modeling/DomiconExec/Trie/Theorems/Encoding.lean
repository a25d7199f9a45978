import DomiconExec.Primitives.Loop
import DomiconExec.Trie.Encoding

namespace Trie.Encoding

open List

variable {a b : UInt8} {l nib t : Bytes} {i n : Nat}

theorem exists_nibble (h : a < 16) : ∃ i : Fin 16, a = UInt8.ofNat i :=
  ⟨⟨a.toNat, UInt8.lt_iff_toNat_lt.mp h⟩, (UInt8.ofNat_toNat).symm⟩

theorem pack_div (ha : a < 16) (hb : b < 16) : pack a b / 16 = a ∧ pack a b % 16 = b := by
  obtain ⟨i, rfl⟩ := exists_nibble ha
  obtain ⟨j, rfl⟩ := exists_nibble hb
  have table : ∀ i j : Fin 16, pack (.ofNat i) (.ofNat j) / 16 = .ofNat i ∧
      pack (.ofNat i) (.ofNat j) % 16 = .ofNat j := by
    decide +kernel
  exact table i j

theorem pack_div_mod (b : UInt8) : pack (b / 16) (b % 16) = b := by
  have table : ∀ i : Fin 256, pack (.ofNat i / 16) (.ofNat i % 16) = .ofNat i := by
    decide +kernel
  simpa using table ⟨b.toNat, b.toNat_lt⟩

def packed : Bytes → Bytes
  | a :: b :: l => pack a b :: packed l
  | _           => []

theorem even_rec {P : Bytes → Prop} (nil : P [])
    (cons : ∀ a b l, l.length % 2 = 0 → P l → P (a :: b :: l)) (h : l.length % 2 = 0) : P l := by
  induction l using packed.induct
  case case1 a b l hi =>
    have h : l.length % 2 = 0 := by grind
    exact cons a b l h (hi h)
  case case2 l hl =>
    cases l
    case nil => exact nil
    case cons a l =>
      cases l
      case nil      => cases h
      case cons b l => exact absurd rfl (hl a b l)

theorem length_packed (h : l.length % 2 = 0) : (packed l).length = l.length / 2 := by
  refine even_rec (P := fun l => (packed l).length = l.length / 2) rfl (fun a b l _ hi => ?_) h
  simp only [packed, length_cons, hi]
  omega

theorem getElem?_packed (ha : l[2 * i]? = some a) (hb : l[2 * i + 1]? = some b) :
    (packed l)[i]? = some (pack a b) := by
  induction l using packed.induct generalizing i
  case case1 x y l hi =>
    cases i
    case zero =>
      cases ha
      cases hb
      rfl
    case succ i => exact hi ha hb
  case case2 l hl =>
    cases l
    case nil => cases ha
    case cons x l =>
      cases l
      case nil      => simp at hb
      case cons y l => exact absurd rfl (hl x y l)

theorem decodeNibbles_ok (h : l.length % 2 = 0) (hn : n = l.length / 2) :
    decodeNibbles l (List.replicate n 0) = .ok (packed l) := by
  subst hn
  refine even_rec (P := fun l => decodeNibbles l (List.replicate (l.length / 2) 0) = .ok (packed l))
    rfl (fun a b l _ hi => ?_) h
  have hl : (a :: b :: l).length / 2 = l.length / 2 + 1 := by
    rw [length_cons, length_cons]
    omega
  rw [hl, replicate_succ, decodeNibbles, hi]
  rfl

theorem keybytesToHex_packed (h : l.length % 2 = 0) (hl : ∀ n ∈ l, n < 16) :
    keybytesToHex (packed l) = l ++ [16] := by
  refine even_rec (P := fun l => (∀ n ∈ l, n < 16) → keybytesToHex (packed l) = l ++ [16])
    (fun _ => rfl) (fun a b l _ hi hl => ?_) h hl
  simp only [forall_mem_cons] at hl
  obtain ⟨ha, hb, hl⟩ := hl
  have hi := hi hl
  simp only [keybytesToHex, packed, flatMap_cons, pack_div ha hb, cons_append,
    nil_append] at hi ⊢
  rw [hi]

theorem packed_keybytes (s : Bytes) :
    let l := s.flatMap fun b => [b / 16, b % 16]
    l.length % 2 = 0 ∧ packed l = s := by
  induction s
  case nil => exact ⟨rfl, rfl⟩
  case cons b s hi =>
    dsimp only at hi ⊢
    rw [flatMap_cons, cons_append, cons_append, nil_append, packed, hi.right,
      pack_div_mod]
    exact ⟨(Nat.add_mod_right _ 2).trans hi.left, rfl⟩

-- What the loop has packed is behind what it still has to read.
theorem foldlM_packAt (h : i + 2 * n ≤ nib.length) (hi : i ≤ 1) :
    ∃ buf, (List.range n).foldlM (packAt i) (nib ++ t) = .ok buf ∧
      buf.length = (nib ++ t).length ∧ ∀ j, buf[j]? =
        if 1 ≤ j ∧ j ≤ n then (packed (nib.drop i))[j - 1]? else (nib ++ t)[j]? := by
  induction n
  case zero => exact ⟨nib ++ t, rfl, rfl, fun j => (if_neg (by omega)).symm⟩
  case succ n ih =>
    obtain ⟨buf, hb, hl, hj⟩ := ih (by omega)
    obtain ⟨a, ha⟩ : ∃ a, nib[i + 2 * n]? = some a := ⟨_, List.getElem?_eq_getElem (by omega)⟩
    obtain ⟨b, hb'⟩ : ∃ b, nib[i + 2 * n + 1]? = some b := ⟨_, List.getElem?_eq_getElem (by omega)⟩
    have hp := @getElem?_packed a b (nib.drop i) n (by simpa using ha) (by simpa [Nat.add_assoc] using hb')
    have hs : packAt i buf n = .ok (buf.set (n + 1) (pack a b)) := by
      rw [packAt, hj, hj, if_neg (by omega), if_neg (by omega), List.getElem?_append_left (by omega),
        List.getElem?_append_left (by omega), ha, hb']
    refine ⟨buf.set (n + 1) (pack a b), ?_, by simpa using hl, fun j => ?_⟩
    case refine_1 =>
      rw [range_succ, foldlM_append, Loop.bind_of_eq_ok hb, foldlM_cons, hs]
      rfl
    case refine_2 =>
      rw [List.getElem?_set, hj, hl]
      have : n + 1 < (nib ++ t).length := by
        rw [length_append]
        omega
      grind

-- The first byte of a compact key, with the flag and the first one of an odd number of nibbles.
def lead (term : Bool) : Option UInt8 → UInt8
  | none   => if term then 0x20 else 0
  | some n => (if term then 0x20 else 0) ||| 0x10 ||| n

theorem lead_div (term : Bool) {o : Option UInt8} (h : ∀ n ∈ o.toList, n < 16) :
    lead term o / 16 = (if term then 2 else 0) + (if o.isSome then 1 else 0) ∧
      lead term o % 16 = o.getD 0 := by
  cases o
  case none => cases term <;> exact ⟨rfl, rfl⟩
  case some n =>
    obtain ⟨i, rfl⟩ := exists_nibble (h n (by simp))
    have table : ∀ term, ∀ i : Fin 16, lead term (some (.ofNat i)) / 16 =
        (if term then 2 else 0) + 1 ∧ lead term (some (.ofNat i)) % 16 = .ofNat i := by
      decide +kernel
    exact table term i

namespace Key

variable {k : Key}

theorem hasTerm_hex (k : Key) : hasTerm k.hex = k.term := by
  unfold hex hasTerm
  cases k.term
  case true => simp
  case false =>
    simp only [Bool.false_eq_true, if_false, append_nil, decide_eq_false_iff_not]
    exact fun h => absurd (k.lt 16 (mem_of_getLast? h)) (by decide)

theorem dropLast_hex (k : Key) : (if k.term then k.hex.dropLast else k.hex) = k.nibbles := by
  rw [hex]
  cases k.term <;> simp

-- The nibbles are an even number of them, possibly with another one in front.
theorem split (k : Key) : ∃ o l, k.nibbles = Option.toList o ++ l ∧ l.length % 2 = 0 := by
  obtain h | h := Nat.mod_two_eq_zero_or_one k.nibbles.length
  case inl => exact ⟨none, k.nibbles, rfl, h⟩
  case inr =>
    cases hn : k.nibbles
    case nil      => simp [hn] at h
    case cons n l => exact ⟨some n, l, rfl, by grind⟩

theorem hexToCompact_hex {o : Option UInt8} (h : k.nibbles = o.toList ++ l) (hl : l.length % 2 = 0) :
    hexToCompact k.hex = .ok (lead k.term o :: packed l) := by
  have hf : (if k.term then 1 else 0 : UInt8) <<< 5 = if k.term then 0x20 else 0 := by
    cases k.term <;> rfl
  simp only [hexToCompact, hasTerm_hex, dropLast_hex, hf, h]
  cases o
  case none =>
    rw [Option.toList_none, nil_append, if_neg (by omega), decodeNibbles_ok hl rfl]
    rfl
  case some n =>
    rw [Option.toList_some, singleton_append, if_pos (by grind), tail_cons,
      decodeNibbles_ok hl (by grind)]
    rfl

theorem hexToCompactInPlace_hex {o : Option UInt8} (h : k.nibbles = o.toList ++ l)
    (hl : l.length % 2 = 0) (hk : k.hex ≠ []) :
    hexToCompactInPlace k.hex = .ok (lead k.term o :: packed l) := by
  have hh : k.hex.length = k.nibbles.length + if k.term then 1 else 0 := by
    rw [hex]
    cases k.term <;> simp
  have hn : (if k.term then k.hex.length - 1 else k.hex.length) = k.nibbles.length := by
    rw [hh]
    cases k.term <;> simp
  have ho : k.nibbles.length % 2 = o.toList.length ∧ o.toList.length ≤ 1 := by
    cases o <;> simp [h] <;> omega
  obtain ⟨buf, hb, hlen, hj⟩ := @foldlM_packAt k.nibbles (if k.term then [16] else [])
    o.toList.length (k.nibbles.length / 2) (by omega) (by omega)
  have hd : k.nibbles.drop o.toList.length = l := by rw [h, drop_left]
  have hp : (packed l).length = k.nibbles.length / 2 := by
    rw [length_packed hl, h, length_append]
    omega
  rw [hd] at hj
  obtain ⟨x, buf, rfl⟩ := exists_cons_of_length_pos (l := buf) <|
    hlen ▸ length_pos_iff.mpr hk
  simp only [hexToCompactInPlace, hasTerm_hex, hn, ho]
  rw [hex, Loop.bind_of_eq_ok hb]
  dsimp only
  rw [take_succ_cons]
  congr 2
  case e_head => cases o <;> simp [lead, h]
  case e_tail =>
    refine ext_getElem? fun j => ?_
    have hj := hj (j + 1)
    rw [List.getElem?_cons_succ, Nat.add_sub_cancel] at hj
    rw [List.getElem?_take]
    split
    case isTrue hl  => exact hj.trans (if_pos (by omega))
    case isFalse hl => exact (List.getElem?_eq_none (by omega)).symm

theorem compactToHex_lead {o : Option UInt8} (h : k.nibbles = o.toList ++ l) (hl : l.length % 2 = 0) :
    compactToHex (lead k.term o :: packed l) = k.hex := by
  have hd := lead_div k.term (o := o) fun n hn => k.lt n (h ▸ mem_append_left l hn)
  have hp := keybytesToHex_packed hl fun n hn => k.lt n (h ▸ mem_append_right _ hn)
  have hb : keybytesToHex (lead k.term o :: packed l) =
      ((if k.term then 2 else 0) + if o.isSome then 1 else 0) :: o.getD 0 :: (l ++ [16]) := by
    rw [← hp, ← hd.left, ← hd.right]
    rfl
  have hc (a b : UInt8) : (a :: b :: (l ++ [16])).dropLast = a :: b :: l :=
    @dropLast_concat _ (a :: b :: l) 16
  simp only [compactToHex, hb, hex, h]
  cases o <;> cases k.term <;> simp [hc] <;> rfl

end Key

-- The compact encoding can be inverted, and computing it in place gives the same bytes.
theorem compact_codec :
    (∀ k : Key, ∃ c, hexToCompact k.hex = .ok c ∧ compactToHex c = k.hex ∧
      (k.hex ≠ [] → hexToCompactInPlace k.hex = .ok c)) ∧
    (∀ k k' : Key, hexToCompact k.hex = hexToCompact k'.hex → k.hex = k'.hex) ∧
    ∀ s : Bytes, hexToKeybytes (keybytesToHex s) = .ok s := by
  have ok (k : Key) : ∃ c, hexToCompact k.hex = .ok c ∧ compactToHex c = k.hex ∧
      (k.hex ≠ [] → hexToCompactInPlace k.hex = .ok c) := by
    obtain ⟨o, l, h, hl⟩ := k.split
    exact ⟨_, k.hexToCompact_hex h hl, k.compactToHex_lead h hl, k.hexToCompactInPlace_hex h hl⟩
  refine ⟨ok, fun k k' he => ?_, fun s => ?_⟩
  case refine_1 =>
    obtain ⟨c, h, hc, _⟩ := ok k
    obtain ⟨c', h', hc', _⟩ := ok k'
    cases h.symm.trans (he.trans h')
    exact hc.symm.trans hc'
  case refine_2 =>
    obtain ⟨hl, hp⟩ := packed_keybytes s
    have ht : hasTerm (keybytesToHex s) := by simp [hasTerm, keybytesToHex]
    rw [hexToKeybytes, if_pos ht, keybytesToHex, dropLast_concat]
    simp only [hl, ne_eq, not_true_eq_false, if_false, decodeNibbles_ok hl, hp]

theorem sampleNibbles_lt : ∀ n ∈ ([1, 2, 3] : List UInt8), n < 16 := by
  simp only [forall_mem_cons]
  exact ⟨by decide, by decide, by decide, forall_mem_nil _⟩

def sampleKey : Key where
  nibbles := [1, 2, 3]
  term := true
  lt := sampleNibbles_lt

theorem compact_codec_sample : ∃ c, hexToCompact sampleKey.hex = .ok c ∧
    hexToCompactInPlace sampleKey.hex = .ok c := by
  obtain ⟨c, h, _, hi⟩ := compact_codec.left sampleKey
  exact ⟨c, h, hi (by decide)⟩

end Trie.Encoding
