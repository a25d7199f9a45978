import DomiconExec.Primitives.BigEndian

namespace Rlp

open List

-- The values that can be represented: trees of byte strings.
inductive Item
  | str (b : Bytes)
  | list (items : List Item)

-- The tag of a value, followed by the size of its content if that does not fit into the tag.
def header (smalltag largetag : UInt8) (size : Nat) : Bytes :=
  if size < 56 then
    [smalltag + UInt8.ofNat size]
  else
    let be := Bytes.bigEndian size
    (largetag + UInt8.ofNat be.length) :: be

section Header

variable {smalltag largetag : UInt8} {size : Nat}

theorem header_of_lt (h : size < 56) :
    header smalltag largetag size = [smalltag + UInt8.ofNat size] :=
  if_pos h

theorem header_of_le (h : 56 ≤ size) : header smalltag largetag size =
    (largetag + UInt8.ofNat (Bytes.bigEndian size).length) :: Bytes.bigEndian size :=
  if_neg (Nat.not_lt.mpr h)

theorem header_length_pos : 0 < (header smalltag largetag size).length := by
  unfold header
  split <;> simp

theorem header_length_le : (header smalltag largetag size).length ≤ size + 1 := by
  have : (Bytes.bigEndian size).length ≤ size :=
    Bytes.bigEndian_length_le.mpr (Nat.lt_pow_self (by decide))
  unfold header
  split <;> simp [this]

end Header

def single : Bytes → Bool
  | [x] => x < 0x80
  | _   => false

theorem single_eq_false {b : Bytes} (h : b.length ≠ 1) : single b = false := by
  match b with
  | []          => rfl
  | [_]         => simp at h
  | _ :: _ :: _ => rfl

theorem exists_of_single {b : Bytes} (h : single b) : ∃ x, b = [x] ∧ x < 0x80 := by
  match b with
  | [x] => exact ⟨x, rfl, by simpa [single] using h⟩

theorem single_bigEndian {n : Nat} (h : 0 < n) : single (Bytes.bigEndian n) ↔ n < 128 := by
  by_cases hl : n < 256
  case pos =>
    rw [Bytes.bigEndian_of_lt h hl]
    simp [single, UInt8.lt_iff_toNat_lt, Nat.mod_eq_of_lt hl]
  case neg =>
    have hp : 0 < n / 256 := Nat.div_pos (Nat.le_of_not_lt hl) (by decide)
    have hs : (Bytes.bigEndian n).length ≠ 1 := by
      have := Bytes.bigEndian_length_pos hp
      rw [Bytes.bigEndian_of_pos h, length_append, length_singleton]
      omega
    rw [single_eq_false hs]
    simp
    omega

namespace Item

def encodeStr (b : Bytes) : Bytes :=
  if single b then b else header 0x80 0xB7 b.length ++ b

theorem length_le_encodeStr {b : Bytes} : b.length ≤ (encodeStr b).length := by
  unfold encodeStr
  split <;> simp

theorem encodeStr_length_le {b : Bytes} : (encodeStr b).length ≤ 2 * b.length + 1 := by
  have := @header_length_le 0x80 0xB7 b.length
  unfold encodeStr
  split
  case isTrue  => omega
  case isFalse =>
    rw [length_append]
    omega

mutual

def encode : Item → Bytes
  | str b      => encodeStr b
  | list items => header 0xC0 0xF7 (encodeAll items).length ++ encodeAll items

def encodeAll : List Item → Bytes
  | []            => []
  | item :: items => encode item ++ encodeAll items

end

variable {items : List Item}

theorem encodeStr_length_pos {b : Bytes} : 0 < (encodeStr b).length := by
  unfold encodeStr
  split
  case isTrue h => cases b <;> simp [single] at h ⊢
  case isFalse  => simp [header_length_pos]

theorem encode_length_pos (item : Item) : 0 < item.encode.length := by
  cases item
  case str  => simp [encode, encodeStr_length_pos]
  case list => simp [encode, header_length_pos]

theorem encodeAll_append {items' : List Item} :
    encodeAll (items ++ items') = encodeAll items ++ encodeAll items' := by
  induction items
  case nil           => rfl
  case cons _ _ hi => rw [cons_append, encodeAll, encodeAll, hi, append_assoc]

theorem encode_list_length_le :
    (list items).encode.length ≤ 2 * (encodeAll items).length + 1 := by
  have := @header_length_le 0xC0 0xF7 (encodeAll items).length
  rw [encode, length_append]
  omega

theorem encodeAll_length_le : (encodeAll items).length ≤ (list items).encode.length := by
  rw [encode, length_append]
  exact Nat.le_add_left ..

theorem length_le_encodeAll : items.length ≤ (encodeAll items).length := by
  induction items
  case nil => simp
  case cons item items hi =>
    have := encode_length_pos item
    rw [encodeAll, length_append, length_cons]
    omega

end Item
end Rlp
