import DomiconExec.Rlp.Item
import DomiconExec.Rlp.Decode

namespace Rlp

open List Bytes Program

-- What the first byte of a value tells: the value itself, its size, or the length of the size.
inductive Tag
  | single
  | short (k : Kind) (n : Nat)
  | long (k : Kind) (n : Nat)
deriving DecidableEq

def Kind.smalltag : Kind → UInt8
  | .list => 0xC0
  | _     => 0x80

def Kind.largetag : Kind → UInt8
  | .list => 0xF7
  | _     => 0xB7

def tagOf (x : UInt8) : Tag :=
  if x < 0x80 then
    .single
  else if x < 0xB8 then
    .short .string (x - 0x80).toNat
  else if x < 0xC0 then
    .long .string (x - 0xB7).toNat
  else if x < 0xF8 then
    .short .list (x - 0xC0).toNat
  else
    .long .list (x - 0xF7).toNat

inductive IsTag (x : UInt8) : Tag → Prop
  | single : x < 0x80 → IsTag x .single
  | short {k : Kind} {n : Nat} (kind : k ≠ .byte) (size : n < 56)
    (tag : x = k.smalltag + .ofNat n) : IsTag x (.short k n)
  | long {k : Kind} {n : Nat} (kind : k ≠ .byte) (pos : 0 < n) (size : n ≤ 8)
    (tag : x = k.largetag + .ofNat n) : IsTag x (.long k n)

theorem IsTag.tagOf_eq {x : UInt8} {t : Tag} (h : IsTag x t) : tagOf x = t := by
  have hs : ∀ n < 56, tagOf (0x80 + .ofNat n) = .short .string n ∧
      tagOf (0xC0 + .ofNat n) = .short .list n := by decide
  have hl : ∀ n ≤ 8, 0 < n → tagOf (0xB7 + .ofNat n) = .long .string n ∧
      tagOf (0xF7 + .ofNat n) = .long .list n := by decide
  cases h
  case single h => exact if_pos h
  case short k n hk h hx =>
    subst hx
    cases k
    case byte   => contradiction
    case string => exact (hs n h).left
    case list   => exact (hs n h).right
  case long k n hk hp h hx =>
    subst hx
    cases k
    case byte   => contradiction
    case string => exact (hl n h hp).left
    case list   => exact (hl n h hp).right

theorem isTag (x : UInt8) : IsTag x (tagOf x) := by
  have add (t : UInt8) : x = t + .ofNat (x - t).toNat := by
    rw [UInt8.ofNat_toNat, UInt8.add_comm, UInt8.sub_add_cancel]
  have hx := x.toNat_lt
  unfold tagOf
  simp only [UInt8.lt_iff_toNat_lt, UInt8.reduceToNat]
  repeat' split
  case isTrue h => exact .single (UInt8.lt_iff_toNat_lt.mpr h)
  all_goals
    constructor
    case kind => decide
    case tag  => exact add _
  all_goals
    simp only [UInt8.toNat_sub, UInt8.reduceToNat]
    omega

namespace Stream

variable {s s₁ s₂ : Stream} {n m : Nat} {b : Bytes} {x : UInt8}

-- The limits of the stream allow to read `n` bytes.
structure Room (s : Stream) (n : Nat) : Prop where
  list : ∀ limit ∈ s.stack.head?, n ≤ limit ∧ limit < 2 ^ 64
  input : s.limited → n ≤ s.remaining

theorem Room.mono (hr : s.Room n) (h : m ≤ n) : s.Room m where
  list limit hl := ⟨Nat.le_trans h (hr.list limit hl).left, (hr.list limit hl).right⟩
  input hl := Nat.le_trans h (hr.input hl)

-- The input and the limits of a stream after `n` bytes were read.
structure Moved (s : Stream) (n : Nat) (s' : Stream) : Prop where
  r : s'.r = s.r.drop n
  limited : s'.limited = s.limited
  remaining : s'.remaining = if s.limited then s.remaining - n else s.remaining
  stack : s'.stack = s.stack.modifyHead (· - n)

namespace Moved

theorem refl : s.Moved 0 s where
  r := rfl
  limited := rfl
  remaining := by simp
  stack := by cases hs : s.stack <;> simp

theorem trans (h₁ : s.Moved n s₁) (h₂ : s₁.Moved m s₂) : s.Moved (n + m) s₂ where
  r := by rw [h₂.r, h₁.r, drop_drop]
  limited := h₂.limited.trans h₁.limited
  remaining := by
    rw [h₂.remaining, h₁.remaining, h₁.limited]
    split <;> omega
  stack := by
    rw [h₂.stack, h₁.stack]
    cases s.stack <;> simp [Nat.sub_sub]

theorem room (h : s.Moved n s₁) (hr : s.Room (n + m)) : s₁.Room m where
  list limit hl := by
    rw [h.stack] at hl
    have := hr.list
    cases hs : s.stack <;> simp_all
    omega
  input hl := by
    rw [h.limited] at hl
    have := hr.input hl
    rw [h.remaining, if_pos hl]
    omega

theorem listLimit (h : s.Moved n s₁) (hl : s.listLimit = some (n + m)) : s₁.listLimit = some m := by
  unfold Stream.listLimit at *
  rw [h.stack]
  cases hs : s.stack <;> simp_all

end Moved

def consume (s : Stream) (n : Nat) : Stream :=
  { s with
    kind := none
    stack := s.stack.modifyHead (· - n)
    remaining := if s.limited then s.remaining - n else s.remaining
  }

theorem consume_moved : s.Moved n { s.consume n with r := s.r.drop n } where
  r := rfl
  limited := rfl
  remaining := rfl
  stack := rfl

theorem willRead_eq (n : Nat) (s : Stream) : willRead n s =
    if ∀ limit ∈ s.stack.head?, n ≤ limit then
      if s.limited → n ≤ s.remaining then
        .ok () (s.consume n)
      else
        .error .valueTooLarge { s with kind := none, stack := s.stack.modifyHead (· - n) }
    else
      .error .elemTooLarge { s with kind := none } := by
  obtain ⟨r, remaining, size, kinderr, stack, kind, byteval, limited⟩ := s
  unfold willRead rearm consume
  by_cases hn : remaining < n <;> cases limited <;> cases stack
  case pos.false.nil | pos.true.nil | neg.false.nil | neg.true.nil =>
    simp [-not_lt, -Nat.not_lt, ← Nat.not_lt, hn, throw_bind]
  all_goals
    rename_i limit _
    by_cases hl : limit < n <;> simp [-not_lt, -Nat.not_lt, ← Nat.not_lt, hn, hl, throw_bind]

theorem willRead_ok (hr : s.Room n) : willRead n s = .ok () (s.consume n) := by
  rw [willRead_eq, if_pos fun limit hl => (hr.list limit hl).left, if_pos hr.input]

theorem readByte_ok (hr : s.Room 1) (h : [x] <+: s.r) :
    readByte s = .ok x { s.consume 1 with r := s.r.drop 1 } := by
  obtain ⟨r, hx⟩ := h
  unfold readByte
  rw [bind_ok (willRead_ok hr), get_bind, consume, ← hx]
  rfl

theorem readFull_ok (hr : s.Room b.length) (h : b <+: s.r) :
    readFull b.length s = .ok b { s.consume b.length with r := s.r.drop b.length } := by
  obtain ⟨r, hb⟩ := h
  unfold readFull
  rw [bind_ok (willRead_ok hr)]
  simp [consume, ← hb]

theorem readUint_ok (hn : 0 < n) (hr : s.Room (bigEndian n).length) (h : bigEndian n <+: s.r) :
    ∃ s', readUint (bigEndian n).length s = .ok n s' ∧ s'.kind = none ∧
      s.Moved (bigEndian n).length s' := by
  have hp := bigEndian_length_pos hn
  have hv := toNat_bigEndian n
  have hh := bigEndian_head_ne_zero hn
  generalize bigEndian n = b at *
  refine ⟨_, ?_, rfl, consume_moved⟩
  unfold readUint
  match b with
  | [x] =>
    simp only [length_singleton] at hr ⊢
    rw [bind_ok (readByte_ok hr h)]
    simpa [Bytes.toNat] using hv
  | x :: y :: l =>
    have := readFull_ok hr h
    simp only [length_cons] at this ⊢
    rw [bind_ok this]
    simp_all

theorem readSize_ok (hn : 56 ≤ n) (hr : s.Room (bigEndian n).length) (h : bigEndian n <+: s.r) :
    ∃ s', readSize (bigEndian n).length s = .ok (n, none) s' ∧ s.Moved (bigEndian n).length s' := by
  have ⟨s', hs, _, hm⟩ := readUint_ok (by omega) hr h
  refine ⟨s', ?_, hm⟩
  unfold readSize
  rw [bind_ok (attempt_ok hs)]
  simp [Nat.not_lt.mpr hn]

theorem readKind_eq (s : Stream) : readKind s =
    match readByte s with
    | .error e s' => .ok (.byte, 0, some (s'.adjustEOF e)) s'
    | .ok x s'    =>
      match tagOf x with
      | .single    => .ok (.byte, 0, none) { s' with byteval := x }
      | .short k n => .ok (k, n, none) { s' with byteval := 0 }
      | .long k n  => (do return (k, ← readSize n)) { s' with byteval := 0 } := by
  unfold readKind
  cases h : readByte s
  case error => rw [bind_ok (attempt_error h)]; rfl
  case ok x s' =>
    rw [bind_ok (attempt_ok h)]
    simp only [modify_bind, tagOf]
    split
    case isTrue => rfl
    split
    case isTrue => rfl
    split
    case isTrue => rfl
    split <;> rfl

-- A tag that is followed by the size of a long value.
theorem readTag_ok (hr : s.Room (x :: bigEndian n).length) (h : x :: bigEndian n <+: s.r)
    (hn : 56 ≤ n) : ∃ s₁ s', readByte s = .ok x s₁ ∧
      readSize (bigEndian n).length { s₁ with byteval := 0 } = .ok (n, none) s' ∧
      s.Moved (x :: bigEndian n).length s' := by
  have hc : (x :: bigEndian n).length = 1 + (bigEndian n).length := Nat.add_comm ..
  rw [hc] at hr ⊢
  obtain ⟨r, hx⟩ := h
  have hb := readByte_ok (hr.mono (Nat.le_add_right ..)) ⟨bigEndian n ++ r, hx⟩
  have hm : s.Moved 1 { s.consume 1 with r := s.r.drop 1, byteval := 0 } := { consume_moved with }
  have ⟨s', hs, hm'⟩ := readSize_ok hn (hm.room hr) ⟨r, by simp [← hx]⟩
  exact ⟨_, s', hb, hs, hm.trans hm'⟩

theorem readKind_header {k : Kind} (hk : k ≠ .byte) (hn : n < 2 ^ 64)
    (hr : s.Room (header k.smalltag k.largetag n).length)
    (h : header k.smalltag k.largetag n <+: s.r) : ∃ s', readKind s = .ok (k, n, none) s' ∧
      s.Moved (header k.smalltag k.largetag n).length s' := by
  rw [readKind_eq]
  cases Nat.lt_or_ge n 56
  case inl hs =>
    rw [header_of_lt hs] at hr h ⊢
    simp only [readByte_ok hr h, (IsTag.short hk hs rfl).tagOf_eq]
    exact ⟨_, rfl, { consume_moved with }⟩
  case inr hs =>
    rw [header_of_le hs] at hr h ⊢
    have ht := IsTag.long hk (bigEndian_length_pos (by omega)) (bigEndian_length_le.mpr hn) rfl
    obtain ⟨s₁, s', hb, hs', hm⟩ := readTag_ok hr h hs
    simp only [hb, ht.tagOf_eq, bind_ok hs']
    exact ⟨_, rfl, hm⟩

theorem readKind_byte (hx : x < 0x80) (hr : s.Room 1) (h : [x] <+: s.r) :
    ∃ s', readKind s = .ok (.byte, 0, none) s' ∧ s.Moved 1 s' ∧ s'.byteval = x := by
  rw [readKind_eq]
  simp only [readByte_ok hr h, (IsTag.single hx).tagOf_eq]
  exact ⟨_, rfl, { consume_moved with }, rfl⟩

-- If there is room for the tag and the value, the size passes the checks.
theorem checkSize_ok (hm : s.Moved n s₁) (hr : s.Room (n + m)) :
    s₁.checkSize s.listLimit m = none := by
  have hl : ¬s.listLimit.any (m > ·) := by
    rw [Option.any_eq_true]
    rintro ⟨limit, hs, hc⟩
    have := hr.list limit hs
    simp at hc
    omega
  have hi : ¬(s₁.limited ∧ m > s₁.remaining) := by
    rintro ⟨hl, hc⟩
    have := (hm.room hr).input hl
    omega
  rw [checkSize, if_neg hl, if_neg hi]

theorem getKind_ok {k : Kind} (hk : s.kind = none) (hr : s.Room (n + m)) (hn : 0 < n)
    (hs : readKind s = .ok (k, m, none) s₁) (hm : s.Moved n s₁) :
    ∃ s', getKind s = .ok (k, m) s' ∧ s.Moved n s' ∧ s'.byteval = s₁.byteval := by
  have hl : s.listLimit ≠ some 0 := by
    intro hl
    have := hr.list 0 hl
    omega
  unfold getKind
  simp only [get_bind, hk, hl, if_false]
  rw [bind_ok hs]
  simp only [get_bind, checkSize_ok hm hr, Option.or_none, set_bind, pure_apply]
  exact ⟨_, rfl, { hm with }, rfl⟩

theorem getKind_caches {k : Kind} (h : getKind s = .ok (k, n) s₁) :
    s₁.kind = some k ∧ s₁.kinderr = none ∧ s₁.size = n := by
  unfold getKind at h
  rw [get_bind] at h
  cases hk : s.kind
  case some k' =>
    simp only [hk] at h
    cases he : s.kinderr
    case some => simp [he] at h
    case none =>
      simp only [he, pure_apply] at h
      cases h
      exact ⟨hk, he, rfl⟩
  case none =>
    simp only [hk] at h
    split at h
    case isTrue =>
      rw [throw_bind] at h
      cases h
    case isFalse =>
      obtain ⟨⟨k', n', err⟩, s', -, h⟩ := of_bind_ok h
      simp only [get_bind, set_bind] at h
      cases he : err.or (s'.checkSize s.listLimit n')
      case some =>
        rw [he] at h
        cases h
      case none =>
        rw [he] at h
        cases h
        exact ⟨rfl, rfl, rfl⟩

theorem getKind_cached {k : Kind} (h : getKind s = .ok (k, n) s₁) : getKind s₁ = .ok (k, n) s₁ := by
  obtain ⟨hk, he, rfl⟩ := getKind_caches h
  unfold getKind
  simp only [get_bind, hk, he, pure_apply]

theorem getKind_eol (hk : s.kind = none) (hl : s.listLimit = some 0) :
    getKind s = .error .eol s := by
  unfold getKind
  simp only [get_bind, hk, hl, if_true]
  rfl

-- The stream is at the beginning of a value that no list and no limit encloses.
structure Toplevel (s : Stream) : Prop where
  kind : s.kind = none
  stack : s.stack = []
  limited : s.limited = false

theorem Toplevel.room (h : s.Toplevel) : s.Room n where
  list limit hl := by simp [h.stack] at hl
  input hl := by simp [h.limited] at hl

theorem Toplevel.moved (h : s.Toplevel) (hm : s.Moved n s₁) (hk : s₁.kind = none) : s₁.Toplevel where
  kind := hk
  stack := by simp [hm.stack, h.stack]
  limited := hm.limited.trans h.limited

theorem getKind_eof (h : s.Toplevel) (hr : s.r = []) : ∃ s', getKind s = .error .eof s' := by
  have hb : readByte s = .error .unexpectedEOF (s.consume 1) := by
    rw [readByte, bind_ok (willRead_ok h.room), get_bind]
    simp [consume, hr]
  have hl : s.listLimit ≠ some 0 := by simp [listLimit, h.stack]
  unfold getKind
  simp only [get_bind, h.kind, hl, if_false]
  have hk : readKind s = .ok (.byte, 0, some .eof) (s.consume 1) := by
    rw [readKind, bind_ok (attempt_error hb)]
    simp [adjustEOF, consume, h.stack]
  rw [bind_ok hk]
  simp

end Stream

-- The reader consumes exactly the input `b` and returns `a`.
def Consumes {α : Type} (p : Reader α) (b : Bytes) (a : α) : Prop :=
  ∀ s, s.kind = none → b <+: s.r → s.Room b.length →
    ∃ s', p s = .ok a s' ∧ s'.kind = none ∧ s.Moved b.length s'

namespace Stream

variable {s s₁ s₂ : Stream} {n m : Nat} {b : Bytes} {x : UInt8}

-- The two ways in which a string is represented.
theorem getKind_str (hb : b.length < 2 ^ 64) (hk : s.kind = none) (h : Item.encodeStr b <+: s.r)
    (hr : s.Room (Item.encodeStr b).length) :
    (∃ x s', b = [x] ∧ single b ∧ getKind s = .ok (.byte, 0) s' ∧ s'.byteval = x ∧
      s.Moved (Item.encodeStr b).length s') ∨
    (¬single b ∧ ∃ s', getKind s = .ok (.string, b.length) s' ∧ b <+: s'.r ∧ s'.Room b.length ∧
      ∀ s'', s'.Moved b.length s'' → s.Moved (Item.encodeStr b).length s'') := by
  unfold Item.encodeStr at *
  split at h
  case isTrue hs =>
    rw [if_pos hs] at hr ⊢
    match b with
    | [x] =>
      obtain ⟨s₁, hs₁, hm₁, hx⟩ := readKind_byte (by simpa [single] using hs) hr h
      obtain ⟨s', hs', hm, hx'⟩ := getKind_ok (m := 0) hk hr (by decide) hs₁ hm₁
      exact .inl ⟨x, s', rfl, hs, hs', hx'.trans hx, hm⟩
  case isFalse hs =>
    rw [if_neg hs, length_append] at hr ⊢
    obtain ⟨r, hb'⟩ := h
    obtain ⟨s₁, hs₁, hm₁⟩ := readKind_header (k := .string) (by decide) hb (hr.mono (Nat.le_add_right ..))
      ⟨b ++ r, (append_assoc ..).symm.trans hb'⟩
    obtain ⟨s', hs', hm, _⟩ := getKind_ok hk hr header_length_pos hs₁ hm₁
    refine .inr ⟨hs, s', hs', ⟨r, ?_⟩, hm.room hr, fun s'' hm' => hm.trans hm'⟩
    rw [hm.r, ← hb']
    simp

theorem checkCanonSize_ok (h : ¬single b) : checkCanonSize b s = .ok () s := by
  unfold checkCanonSize
  have hn : ¬(b.length = 1 ∧ b.all (· < 128)) := by
    rintro ⟨hl, hx⟩
    match b with
    | [x] => exact h (by simpa [single] using hx)
  rw [if_neg hn, pure_apply]

theorem bytes_consumes (h : b.length < 2 ^ 64) : Consumes bytes (Item.encodeStr b) b := by
  intro s hk hp hr
  unfold bytes
  obtain ⟨x, s', rfl, _, hs, hx, hm⟩ | ⟨hb, s', hs, hp', hr', hm⟩ := getKind_str h hk hp hr
  case inl =>
    rw [bind_ok hs]
    simp only [rearm, modify_bind, get_bind, pure_apply, hx]
    exact ⟨_, rfl, rfl, { hm with }⟩
  case inr =>
    rw [bind_ok hs]
    simp only [bind_ok (readFull_ok hr' hp'), bind_ok (checkCanonSize_ok hb), pure_apply]
    exact ⟨_, rfl, rfl, hm _ consume_moved⟩

theorem readBytes_consumes (h : b.length < 2 ^ 64) :
    Consumes (readBytes b.length) (Item.encodeStr b) b := by
  intro s hk hp hr
  unfold readBytes
  obtain ⟨x, s', rfl, _, hs, hx, hm⟩ | ⟨hb, s', hs, hp', hr', hm⟩ := getKind_str h hk hp hr
  case inl =>
    rw [bind_ok hs]
    exact ⟨{ s' with kind := none }, by rw [← hx]; rfl, rfl, { hm with }⟩
  case inr =>
    rw [bind_ok hs]
    simp only [ne_eq, not_true, if_false, bind_ok (readFull_ok hr' hp'),
      bind_ok (checkCanonSize_ok hb), pure_apply]
    exact ⟨_, rfl, rfl, hm _ consume_moved⟩

theorem eq_of_bigEndian_eq (h : bigEndian n = [x]) : x.toNat = n ∧ x ≠ 0 := by
  have hv : x.toNat = n := by simpa [h, Bytes.toNat] using toNat_bigEndian n
  refine ⟨hv, ?_⟩
  rintro rfl
  simp [← hv] at h

theorem uint_consumes {maxbits : Nat} (h : n < 2 ^ 64) (hl : (bigEndian n).length ≤ maxbits / 8) :
    Consumes (uint maxbits) (Item.encodeStr (bigEndian n)) n := by
  have hl' : (bigEndian n).length ≤ 8 := bigEndian_length_le.mpr h
  intro s hk hp hr
  unfold uint
  obtain ⟨x, s', hb, _, hs, hx, hm⟩ | ⟨hb, s', hs, hp', hr', hm⟩ := getKind_str (by omega) hk hp hr
  case inl =>
    have ⟨hv, hz⟩ := eq_of_bigEndian_eq hb
    rw [bind_ok hs]
    simp only [get_bind, hx, hz, if_false, rearm, modify_bind, pure_apply, hv]
    exact ⟨_, rfl, rfl, { hm with }⟩
  case inr =>
    have hc : ¬(bigEndian n).length > maxbits / 8 := Nat.not_lt.mpr hl
    rw [bind_ok hs]
    simp only [hc, if_false]
    cases Nat.eq_zero_or_pos n
    case inl hn =>
      subst hn
      exact ⟨{ s' with kind := none }, rfl, rfl, hm _ { Moved.refl with }⟩
    case inr hn =>
      have ⟨s'', hs'', hk', hm'⟩ := readUint_ok hn hr' hp'
      have hv : ¬((bigEndian n).length > 0 ∧ n < 128) := by
        rw [single_bigEndian hn] at hb
        omega
      rw [bind_ok (adaptExcept_ok _ hs'')]
      simp only [hv, if_false, pure_apply]
      exact ⟨s'', rfl, hk', hm _ hm'⟩

theorem bool_consumes (v : Bool) : Consumes bool (Item.encodeStr (bigEndian v.toNat)) v := by
  intro s hk hp hr
  have hl : (bigEndian v.toNat).length ≤ 8 / 8 := bigEndian_length_le.mpr (by cases v <;> decide)
  have hv : v.toNat < 2 ^ 64 := by cases v <;> decide
  obtain ⟨s', hs, hk', hm⟩ := uint_consumes hv hl s hk hp hr
  refine ⟨s', ?_, hk', hm⟩
  unfold bool
  rw [bind_ok hs]
  cases v <;> rfl

theorem bigIntBuffer_ok (hb : ¬single b) (hp : b <+: s.r) (hr : s.Room b.length) :
    ∃ s', bigIntBuffer .string b.length s = .ok b s' ∧ s'.kind = none ∧ s.Moved b.length s' := by
  match b with
  | []     => exact ⟨{ s with kind := none }, rfl, rfl, { Moved.refl with }⟩
  | x :: l =>
    refine ⟨_, ?_, rfl, consume_moved⟩
    simp only [length_cons, bigIntBuffer]
    rw [← length_cons, bind_ok (readFull_ok hr hp), bind_ok (checkCanonSize_ok hb), pure_apply]

-- The bytes of a number are obtained in three ways.
theorem getKind_number (h : (bigEndian n).length < 2 ^ 64) (hk : s.kind = none)
    (hp : Item.encodeStr (bigEndian n) <+: s.r)
    (hr : s.Room (Item.encodeStr (bigEndian n)).length) :
    ∃ k m s₁ s₂, getKind s = .ok (k, m) s₁ ∧ bigIntBuffer k m s₁ = .ok (bigEndian n) s₂ ∧
      m ≤ (bigEndian n).length ∧ s₂.kind = none ∧
      s.Moved (Item.encodeStr (bigEndian n)).length s₂ := by
  obtain ⟨x, s', hb, _, hs, hx, hm⟩ | ⟨hb, s', hs, hp', hr', hm⟩ := getKind_str h hk hp hr
  case inl =>
    refine ⟨.byte, 0, s', { s' with kind := none }, hs, ?_, Nat.zero_le _, rfl, { hm with }⟩
    simp only [bigIntBuffer, rearm, modify_bind, get_bind, pure_apply, hx, hb]
  case inr =>
    have ⟨s'', hs'', hk', hm'⟩ := bigIntBuffer_ok hb hp' hr'
    exact ⟨.string, _, s', s'', hs, hs'', Nat.le_refl _, hk', hm _ hm'⟩

theorem decodeBigInt_consumes (h : (bigEndian n).length < 2 ^ 64) :
    Consumes decodeBigInt (Item.encodeStr (bigEndian n)) n := by
  intro s hk hp hr
  obtain ⟨k, m, s₁, s₂, hs₁, hs₂, -, hk', hm⟩ := getKind_number h hk hp hr
  refine ⟨s₂, ?_, hk', hm⟩
  unfold decodeBigInt
  rw [bind_ok hs₁]
  dsimp only
  rw [bind_ok hs₂, if_neg (bigEndian_head_ne n), pure_apply, toNat_bigEndian]

theorem readUint256_consumes (z : BitVec 256) :
    Consumes readUint256 (Item.encodeStr (bigEndian z.toNat)) z := by
  have hl : (bigEndian z.toNat).length ≤ 32 := bigEndian_length_le.mpr z.isLt
  intro s hk hp hr
  obtain ⟨k, m, s₁, s₂, hs₁, hs₂, hn, hk', hm⟩ := getKind_number (by omega) hk hp hr
  have hc : ¬(k = .string ∧ m > 32) := by omega
  refine ⟨s₂, ?_, hk', hm⟩
  unfold readUint256
  rw [bind_ok hs₁]
  dsimp only
  rw [if_neg hc, bind_ok hs₂, if_neg (bigEndian_head_ne _), pure_apply, toNat_bigEndian,
    BitVec.ofNat_toNat, BitVec.setWidth_eq]

theorem wrappingSub_of_le (h : n ≤ m) (hm : m < 2 ^ 64) : wrappingSub m n = m - n := by
  unfold wrappingSub
  omega

-- If there is enough left of the innermost list, the subtraction does not wrap around.
theorem modifyHead_wrappingSub {l : List Nat} (h : ∀ limit ∈ l.head?, n ≤ limit ∧ limit < 2 ^ 64) :
    l.modifyHead (wrappingSub · n) = l.modifyHead (· - n) := by
  cases l
  case nil => rw [modifyHead_nil, modifyHead_nil]
  case cons limit l =>
    obtain ⟨hn, hl⟩ := h limit rfl
    rw [modifyHead_cons, modifyHead_cons, wrappingSub_of_le hn hl]

theorem list_ok (hb : b.length < 2 ^ 64) (hk : s.kind = none)
    (h : header 0xC0 0xF7 b.length ++ b <+: s.r)
    (hr : s.Room (header 0xC0 0xF7 b.length ++ b).length) :
    ∃ s₁, list s = .ok b.length s₁ ∧ s₁.kind = none ∧ b <+: s₁.r ∧ s₁.Room b.length ∧
      s₁.listLimit = some b.length ∧
      ∀ s₂, s₁.Moved b.length s₂ → ∃ s₃, listEnd s₂ = .ok () s₃ ∧ s₃.kind = none ∧
        s.Moved (header 0xC0 0xF7 b.length ++ b).length s₃ := by
  rw [length_append] at hr ⊢
  obtain ⟨r, hb'⟩ := h
  have ⟨s₁, hs₁, hm₁⟩ := readKind_header (k := .list) (by decide) hb (hr.mono (Nat.le_add_right ..))
    ⟨b ++ r, (append_assoc ..).symm.trans hb'⟩
  have ⟨s', hs', hm, _⟩ := getKind_ok hk hr header_length_pos hs₁ hm₁
  have hw := modifyHead_wrappingSub (hm.room hr).list
  unfold list
  rw [bind_ok hs']
  simp only [ne_eq, not_true, if_false, modify_bind, pure_apply]
  refine ⟨_, rfl, rfl, ?_, ?_, rfl, ?_⟩
  case refine_1 =>
    refine ⟨r, ?_⟩
    rw [hm.r, ← hb']
    simp
  case refine_2 => exact ⟨by simpa using hb, (hm.room hr).input⟩
  case refine_3 =>
    intro s₂ hm₂
    have hst : s₂.stack = 0 :: s'.stack.modifyHead (· - b.length) := by
      rw [hm₂.stack, hw, modifyHead_cons, Nat.sub_self]
    unfold listEnd
    simp only [get_bind, hst, gt_iff_lt, lt_self_iff_false, if_false, set_apply]
    exact ⟨_, rfl, rfl, hm.trans ⟨hm₂.r, hm₂.limited, hm₂.remaining, rfl⟩⟩

theorem getKind_list (hb : b.length < 2 ^ 64) (hk : s.kind = none)
    (h : header 0xC0 0xF7 b.length ++ b <+: s.r)
    (hr : s.Room (header 0xC0 0xF7 b.length ++ b).length) :
    ∃ s₁, getKind s = .ok (.list, b.length) s₁ := by
  obtain ⟨s₁, hs, -⟩ := list_ok hb hk h hr
  obtain ⟨⟨k, m⟩, s₂, hg, hs⟩ := of_bind_ok hs
  cases k
  case list =>
    cases hs
    exact ⟨s₂, hg⟩
  all_goals cases hs

end Stream
end Rlp
