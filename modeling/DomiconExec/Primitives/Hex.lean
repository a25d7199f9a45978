import DomiconExec.Primitives.Bytes

open List

namespace GoString

def ascii (s : String) : GoString :=
  s.toList.map fun c => UInt8.ofNat c.toNat

def comma : UInt8 :=
  44

-- The separator `JoinString` has a single character.
def join (l : List GoString) : GoString :=
  [comma].intercalate l

def split (s : GoString) : List GoString :=
  s.splitOn comma

def toLower (s : GoString) : GoString :=
  s.map fun c => if 65 ≤ c ∧ c ≤ 90 then c + 32 else c

end GoString

namespace Hex

def digit (n : UInt8) : UInt8 :=
  if n < 10 then 48 + n else 87 + n

def value (c : UInt8) : Option UInt8 :=
  if 48 ≤ c ∧ c ≤ 57 then
    some (c - 48)
  else if 97 ≤ c ∧ c ≤ 102 then
    some (c - 87)
  else if 65 ≤ c ∧ c ≤ 70 then
    some (c - 55)
  else
    none

def encodeToString (b : Bytes) : GoString :=
  b.flatMap fun x => [digit (x / 16), digit (x % 16)]

inductive Error
  | length
  | invalidByte (c : UInt8)
deriving DecidableEq

-- The bytes that precede an error are returned as well.
def decodeString : GoString → Bytes × Option Error
  | [] => ([], none)
  | [c] => ([], some (if (value c).isSome then .length else .invalidByte c))
  | p :: q :: s =>
    match value p, value q with
    | some a, some b =>
      let (bytes, err) := decodeString s
      ((16 * a + b) :: bytes, err)
    | none, _ => ([], some (.invalidByte p))
    | _, none => ([], some (.invalidByte q))

def bytes2Hex (b : Bytes) : GoString :=
  encodeToString b

def hex2Bytes (s : GoString) : Bytes :=
  (decodeString s).fst

-- Strips the leading "0x" or "0X", and completes the first byte.
def fromHex (s : GoString) : Bytes :=
  let s := match s with
    | 48 :: 120 :: s => s
    | 48 :: 88 :: s  => s
    | s              => s
  hex2Bytes (if s.length % 2 = 1 then 48 :: s else s)

@[simp]
theorem encodeToString_length (b : Bytes) : (encodeToString b).length = 2 * b.length := by
  simp [encodeToString, Nat.mul_comm]

theorem toNat_div_lt (x : UInt8) : (x / 16).toNat < 16 := by
  have := x.toNat_lt
  rw [UInt8.toNat_div]
  simp
  omega

theorem toNat_mod_lt (x : UInt8) : (x % 16).toNat < 16 := by
  rw [UInt8.toNat_mod]
  exact Nat.mod_lt _ (by decide)

theorem value_digit {n : UInt8} (h : n.toNat < 16) : value (digit n) = some n := by
  have hn (m : Fin 16) : value (digit (.ofNat m)) = some (.ofNat m) := by
    revert m
    decide
  simpa using hn ⟨n.toNat, h⟩

theorem decodeString_encodeToString (b : Bytes) : decodeString (encodeToString b) = (b, none) := by
  induction b
  case nil => rfl
  case cons x b hi =>
    have hx := x.toNat_lt
    have he : 16 * (x / 16) + x % 16 = x := by
      apply UInt8.toNat_inj.mp
      simp
      omega
    simp only [encodeToString, flatMap_cons, cons_append, nil_append] at hi ⊢
    simp only [decodeString, value_digit (toNat_div_lt x), value_digit (toNat_mod_lt x),
      hi, he]

theorem hex2Bytes_bytes2Hex (b : Bytes) : hex2Bytes (bytes2Hex b) = b := by
  rw [hex2Bytes, bytes2Hex, decodeString_encodeToString]

theorem bytes2Hex_injective {a b : Bytes} (h : bytes2Hex a = bytes2Hex b) : a = b := by
  rw [← hex2Bytes_bytes2Hex a, h, hex2Bytes_bytes2Hex]

theorem mem_encodeToString {b : Bytes} {c : UInt8} (h : c ∈ encodeToString b) :
    ∃ n : UInt8, n.toNat < 16 ∧ c = digit n := by
  obtain ⟨x, _, hc⟩ := mem_flatMap.mp h
  rcases mem_pair.mp hc with rfl | rfl
  case inl => exact ⟨x / 16, toNat_div_lt x, rfl⟩
  case inr => exact ⟨x % 16, toNat_mod_lt x, rfl⟩

-- A digit is in lower case, or one that was changed to upper case can be changed back.
theorem toLower_digit {n : UInt8} (h : n.toNat < 16) (p : Prop) [Decidable p] :
    GoString.toLower [if digit n > 57 ∧ p then digit n - 32 else digit n] = [digit n] := by
  have hn (m : Fin 16) : GoString.toLower [digit (.ofNat m)] = [digit (.ofNat m)] ∧
      (digit (.ofNat m) > 57 →
        GoString.toLower [digit (.ofNat m) - 32] = [digit (.ofNat m)]) := by
    revert m
    decide
  obtain ⟨hl, hu⟩ : GoString.toLower [digit n] = [digit n] ∧
    (digit n > 57 → GoString.toLower [digit n - 32] = [digit n]) := by simpa using hn ⟨n.toNat, h⟩
  split
  case isTrue hp => exact hu hp.left
  case isFalse   => exact hl

end Hex

namespace ByteArr

variable {n : Nat}

def hex (h : ByteArr n) : GoString :=
  .ascii "0x" ++ Hex.encodeToString h.val

theorem hex_injective {a b : ByteArr n} (h : a.hex = b.hex) : a = b := by
  have h := congrArg Hex.decodeString (append_cancel_left h)
  rw [Hex.decodeString_encodeToString, Hex.decodeString_encodeToString] at h
  exact ext (Prod.mk.inj h).left

-- The mixed case text of an address: a letter is in upper case if the half byte of the hash is at
-- least 8.
def checksumHex (keccak256 : Bytes → Hash) (a : Address) : GoString :=
  let text := Hex.encodeToString a.val
  let hash := Hex.encodeToString (keccak256 text).val
  .ascii "0x" ++ List.zipWith (fun c d => if c > 57 ∧ d > 55 then c - 32 else c) text hash

theorem hex_ne_nil (a : ByteArr n) : a.hex ≠ [] :=
  cons_ne_nil _ _

theorem toLower_checksum {text hash : GoString} (hl : text.length ≤ hash.length)
    (hd : ∀ c ∈ text, ∃ n : UInt8, n.toNat < 16 ∧ c = Hex.digit n) :
    GoString.toLower (List.zipWith (fun c d => if c > 57 ∧ d > 55 then c - 32 else c) text hash) =
      text := by
  induction text generalizing hash
  case nil => rfl
  case cons c text hi =>
    obtain ⟨⟨n, hn, rfl⟩, hds⟩ := forall_mem_cons.mp hd
    cases hash
    case nil => contradiction
    case cons x hash =>
      have hc := List.cons.inj (Hex.toLower_digit hn (x > 55)) |>.left
      have hr := hi (Nat.le_of_succ_le_succ hl) hds
      exact congrArg₂ List.cons hc hr

theorem checksumHex_injective {keccak256 : Bytes → Hash} {a b : Address}
    (h : a.checksumHex keccak256 = b.checksumHex keccak256) : a = b := by
  have lower (a : Address) : GoString.toLower (a.checksumHex keccak256) = a.hex := by
    have hl : (Hex.encodeToString a.val).length ≤
        (Hex.encodeToString (keccak256 (Hex.encodeToString a.val)).val).length := by
      rw [Hex.encodeToString_length, Hex.encodeToString_length, a.property, (keccak256 _).property]
      decide
    unfold checksumHex
    rw [GoString.toLower, map_append]
    exact congrArg _ <| toLower_checksum hl fun c => Hex.mem_encodeToString
  apply hex_injective
  rw [← lower a, h, lower b]

end ByteArr
