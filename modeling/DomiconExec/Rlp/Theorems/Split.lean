import DomiconExec.Rlp.Theorems.Integers
import DomiconExec.Rlp.Theorems.Session

namespace Rlp

open List Bytes Program

namespace Raw

variable {b c rest : Bytes} {n ts cs : Nat} {k : Kind}

-- A size is only accepted in its shortest representation.
theorem of_readSize {slen : Nat} (hp : 0 < slen) (h : readSize b slen = .ok n) :
    56 ≤ n ∧ (bigEndian n).length = slen ∧ ∃ rest, b = bigEndian n ++ rest := by
  unfold readSize at h
  split at h
  case isTrue => cases h
  case isFalse hl =>
    dsimp only at h
    split at h
    case isTrue => cases h
    case isFalse hc =>
      cases h
      rw [not_or] at hc
      have hh : (b.take slen).head? ≠ some 0 := by
        rw [List.head?_take, if_neg (Nat.ne_of_gt hp)]
        exact hc.right
      rw [bigEndian_toNat hh]
      exact ⟨Nat.le_of_not_lt hc.left, length_take_of_le (Nat.le_of_not_lt hl), b.drop slen,
        (take_append_drop ..).symm⟩

-- What was read by `readTag`.
inductive Tagged : Kind → Nat → Nat → Bytes → Prop
  | byte {x : UInt8} {l : Bytes} : x < 0x80 → Tagged .byte 0 1 (x :: l)
  | string {m : Nat} {l : Bytes} : m < 2 ^ 64 → ¬(m = 1 ∧ l.head?.any (· < 128)) →
    Tagged .string (header 0x80 0xB7 m).length m (header 0x80 0xB7 m ++ l)
  | list {m : Nat} {l : Bytes} : m < 2 ^ 64 →
    Tagged .list (header 0xC0 0xF7 m).length m (header 0xC0 0xF7 m ++ l)

theorem Tagged.header {m : Nat} {l : Bytes} (hk : k ≠ .byte) (hm : m < 2 ^ 64)
    (hc : ¬(k = .string ∧ m = 1 ∧ l.head?.any (· < 128))) :
    Tagged k (header k.smalltag k.largetag m).length m (header k.smalltag k.largetag m ++ l) := by
  cases k
  case byte   => contradiction
  case string => exact .string hm fun h => hc ⟨rfl, h⟩
  case list   => exact .list hm

theorem of_readTag (h : readTag b = .ok (k, ts, cs)) : Tagged k ts cs b := by
  cases b
  case nil => cases h
  case cons x buf =>
    rw [readTag_cons] at h
    have ht := isTag x
    generalize tagOf x = t at h ht
    cases ht
    case single hx =>
      cases h
      exact .byte hx
    case short hk hl ht =>
      dsimp only at h
      split at h
      case isTrue => cases h
      case isFalse hc =>
        cases h
        have h := Tagged.header hk (Nat.lt_trans hl (by decide)) hc
        rwa [header_of_lt hl, ← ht] at h
    case long hk hp hl ht =>
      obtain ⟨m, hm, h⟩ := Loop.map_eq_ok h
      cases h
      obtain ⟨h56, hn, rest, rfl⟩ := of_readSize hp hm
      have hc : cs ≠ 1 := by omega
      have h := Tagged.header (l := rest) hk (bigEndian_length_le.mp (hn.trans_le hl))
        fun h => hc h.right.left
      rwa [header_of_le h56, length_cons, hn, ← ht] at h

theorem of_split (h : split b = .ok (k, c, rest)) : c.length < 2 ^ 64 ∧
    (k ≠ .list ∧ b = Item.encodeStr c ++ rest ∨
      k = .list ∧ b = header 0xC0 0xF7 c.length ++ (c ++ rest)) := by
  obtain ⟨⟨k', ts, cs⟩, hr, h⟩ := Loop.bind_eq_ok h
  cases h
  obtain ⟨⟨k', ts', cs'⟩, ht, h⟩ := Loop.bind_eq_ok hr
  dsimp only at h
  split at h
  case isTrue => cases h
  case isFalse hl =>
    cases h
    cases of_readTag ht
    case byte x l hx =>
      have he : x :: l = Item.encodeStr [x] ++ l := by
        rw [Stream.encodeStr_of_single hx, singleton_append]
      exact ⟨(by decide : 1 < 2 ^ 64), .inl ⟨by decide, he⟩⟩
    case string l hm hc =>
      rw [length_append, Nat.add_sub_cancel_left] at hl
      rw [← drop_drop, drop_left]
      have hlen : (l.take cs).length = cs := length_take_of_le (Nat.le_of_not_lt hl)
      have hs : ¬single (l.take cs) := by
        intro hs
        obtain ⟨x, hx, hlt⟩ := exists_of_single hs
        obtain rfl : 1 = cs := by rw [← hlen, hx, length_singleton]
        refine hc ⟨rfl, ?_⟩
        have hh : l.head? = some x := by
          rw [← take_append_drop 1 l, hx, singleton_append, List.head?_cons]
        simpa [hh] using hlt
      refine ⟨hlen.symm ▸ hm, .inl ⟨by decide, ?_⟩⟩
      rw [Stream.encodeStr_of_not_single hs, hlen, append_assoc, take_append_drop]
    case list l hm =>
      rw [length_append, Nat.add_sub_cancel_left] at hl
      rw [← drop_drop, drop_left]
      have hlen : (l.take cs).length = cs := length_take_of_le (Nat.le_of_not_lt hl)
      refine ⟨hlen.symm ▸ hm, .inr ⟨rfl, ?_⟩⟩
      rw [hlen, take_append_drop]

theorem splitString_eq_ok : splitString b = .ok (c, rest) ↔
    c.length < 2 ^ 64 ∧ b = Item.encodeStr c ++ rest := by
  constructor
  case mp =>
    intro h
    obtain ⟨⟨k, c', rest'⟩, hs, h⟩ := Loop.bind_eq_ok h
    dsimp only at h
    split at h
    case isTrue => cases h
    case isFalse hk =>
      cases h
      obtain ⟨hc, ⟨-, hb⟩ | ⟨hk', -⟩⟩ := of_split hs
      case inl => exact ⟨hc, hb⟩
      case inr => exact absurd hk' hk
  case mpr =>
    rintro ⟨hc, rfl⟩
    obtain ⟨k, hs, hk⟩ := split_encodeStr hc rest
    simp only [splitString, hs, bind, Except.bind, hk, if_false]
    rfl

theorem splitList_eq_ok : splitList b = .ok (c, rest) ↔
    c.length < 2 ^ 64 ∧ b = header 0xC0 0xF7 c.length ++ (c ++ rest) := by
  constructor
  case mp =>
    intro h
    obtain ⟨⟨k, c', rest'⟩, hs, h⟩ := Loop.bind_eq_ok h
    dsimp only at h
    split at h
    case isTrue => cases h
    case isFalse hk =>
      cases h
      obtain ⟨hc, ⟨hk', -⟩ | ⟨-, hb⟩⟩ := of_split hs
      case inl => exact absurd hk' hk
      case inr => exact ⟨hc, hb⟩
  case mpr =>
    rintro ⟨hc, rfl⟩
    simp only [splitList, split_list hc, bind, Except.bind]
    rfl

theorem two_le_length (h₁ : c = [] → False) (h₂ : ∀ x, c = [x] → False) : 2 ≤ c.length := by
  match c with
  | []          => exact (h₁ rfl).elim
  | [x]         => exact (h₂ x rfl).elim
  | _ :: _ :: _ => exact Nat.le_add_left ..

-- A number of several bytes is not below 56.
theorem readSize_eq_ok (hl : 2 ≤ c.length) :
    readSize c c.length = .ok n ↔ c = bigEndian n := by
  constructor
  case mp =>
    intro h
    obtain ⟨-, hn, rest, hc⟩ := of_readSize (by omega) h
    have hr := congrArg List.length hc
    rw [length_append, hn] at hr
    rw [eq_nil_of_length_eq_zero (Nat.left_eq_add.mp hr), append_nil] at hc
    exact hc
  case mpr =>
    rintro rfl
    have hn : 56 ≤ n := by
      refine Nat.le_of_not_lt fun hn => ?_
      have : (bigEndian n).length ≤ 1 := bigEndian_length_le.mpr (by omega)
      omega
    simpa using readSize_bigEndian hn []

theorem splitUint64_eq_ok : splitUint64 b = .ok (n, rest) ↔ n < 2 ^ 64 ∧ b = numeral n ++ rest := by
  constructor
  case mp =>
    intro h
    obtain ⟨⟨c, rest'⟩, hs, h⟩ := Loop.bind_eq_ok h
    obtain ⟨-, hb⟩ := splitString_eq_ok.mp hs
    rw [hb]
    dsimp only at h
    split at h
    case h_1 =>
      cases h
      exact ⟨by decide, rfl⟩
    case h_2 x =>
      split at h
      case isTrue => cases h
      case isFalse hx =>
        cases h
        have hp : 0 < x.toNat := Nat.pos_of_ne_zero fun h => hx (UInt8.toNat_inj.mp h)
        refine ⟨Nat.lt_trans x.toNat_lt (by decide), ?_⟩
        rw [numeral, bigEndian_of_lt hp x.toNat_lt, UInt8.ofNat_toNat]
    case h_3 h₁ h₂ =>
      split at h
      case isTrue => cases h
      case isFalse hl =>
        have hc := two_le_length h₁ h₂
        cases hx : readSize c c.length
        case error =>
          rw [hx] at h
          cases h
        case ok x =>
          rw [hx] at h
          cases h
          obtain rfl := (readSize_eq_ok hc).mp hx
          exact ⟨bigEndian_length_le.mp (Nat.le_of_not_lt hl), rfl⟩
  case mpr =>
    rintro ⟨hn, rfl⟩
    have hl : (bigEndian n).length ≤ 8 := bigEndian_length_le.mpr hn
    have hs : splitString (numeral n ++ rest) = .ok (bigEndian n, rest) :=
      splitString_eq_ok.mpr ⟨by omega, rfl⟩
    have hv := toNat_bigEndian n
    have hh := bigEndian_head_ne n
    have hr (h : 2 ≤ (bigEndian n).length) := (readSize_eq_ok h).mpr rfl
    unfold splitUint64
    rw [Loop.bind_of_eq_ok hs]
    dsimp only
    generalize bigEndian n = c at *
    split
    case h_1 => rw [← hv]; rfl
    case h_2 x =>
      have hx : x ≠ 0 := fun h => hh (by rw [h]; rfl)
      rw [if_neg hx, ← hv]
      simp [Bytes.toNat]
      rfl
    case h_3 h₁ h₂ =>
      rw [if_neg (Nat.not_lt.mpr hl), hr (two_le_length h₁ h₂)]
      rfl

end Raw

namespace Stream

variable {α : Type} {p : Reader α} {P : α → Bytes → Prop} {a : α} {b rest : Bytes} {n : Nat}

theorem ofBytes_room (h : n ≤ b.length) : (ofBytes b).Room n where
  list _ hl := by cases hl
  input _ := h

-- A reader that consumes what it accepts is described by that.
theorem ofBytes_ok_iff (hc : ∀ a c, P a c → Consumes p c a) (ha : Accepts p P)
    (hb : b.length < 2 ^ 63) :
    (∃ s, p (ofBytes b) = .ok a s ∧ s.r = rest) ↔ ∃ c, P a c ∧ b = c ++ rest := by
  constructor
  case mp =>
    rintro ⟨s, hs, rfl⟩
    obtain ⟨c, hp, ht, -⟩ := ha _ _ _ (ofBytes_bounded hb) rfl hs
    exact ⟨c, hp, ht.r⟩
  case mpr =>
    rintro ⟨c, hp, rfl⟩
    have hl : c.length ≤ (c ++ rest).length := by
      rw [length_append]
      exact Nat.le_add_right ..
    obtain ⟨s, hs, -, hm⟩ := hc a c hp _ rfl (prefix_append c rest) (ofBytes_room hl)
    exact ⟨s, hs, hm.r.trans drop_left⟩

theorem ofBytes_bytes {c : Bytes} (hb : b.length < 2 ^ 63) :
    (∃ s, bytes (ofBytes b) = .ok c s ∧ s.r = rest) ↔
      c.length < 2 ^ 64 ∧ b = Item.encodeStr c ++ rest := by
  have ha : Accepts bytes fun c e => c.length < 2 ^ 64 ∧ e = Item.encodeStr c := by
    intro s c s' hs hk h
    obtain ⟨ht, hk'⟩ := took_of_bytes hs hk h
    have hl := Nat.lt_of_le_of_lt Item.length_le_encodeStr (ht.length_lt hs)
    exact ⟨_, ⟨Nat.lt_trans hl (by decide), rfl⟩, ht, hk'⟩
  rw [ofBytes_ok_iff (fun c e h => h.right ▸ bytes_consumes h.left) ha hb]
  simp only [and_assoc, exists_and_left, exists_eq_left]

theorem ofBytes_uint (hb : b.length < 2 ^ 63) :
    (∃ s, uint 64 (ofBytes b) = .ok n s ∧ s.r = rest) ↔ n < 2 ^ 64 ∧ b = numeral n ++ rest := by
  rw [ofBytes_ok_iff (fun n c h => h.right ▸ uint64_readsNumerals.consumes n h.left)
    uint64_readsNumerals.accepts hb]
  simp only [id, and_assoc, exists_and_left, exists_eq_left]

theorem ofBytes_list (hb : b.length < 2 ^ 63) :
    (∃ s, list (ofBytes b) = .ok n s ∧ s.r = rest) ↔
      n ≤ rest.length ∧ b = header 0xC0 0xF7 n ++ rest := by
  have hr {n : Nat} {s : Stream} (h : list (ofBytes b) = .ok n s) : b = header 0xC0 0xF7 n ++ s.r := by
    obtain ⟨s₁, ht, -, hr, -⟩ := of_list_ok (ofBytes_bounded hb) rfl h
    rw [hr]
    exact ht.r
  constructor
  case mp =>
    rintro ⟨s, hs, rfl⟩
    refine ⟨?_, hr hs⟩
    obtain ⟨_, _, hl, -⟩ | ⟨m, s₁, hg, hl⟩ := list_outcome b (ofBytes b)
    case inl => cases hl.symm.trans hs
    case inr =>
      cases hl.symm.trans hs
      exact (le_of_getKind (Session.start_confined b).sync hg : n ≤ s₁.r.length)
  case mpr =>
    rintro ⟨hn, hb'⟩
    have hl : (rest.take n).length = n := length_take_of_le hn
    have hp : header 0xC0 0xF7 (rest.take n).length ++ rest.take n <+: (ofBytes b).r := by
      refine ⟨rest.drop n, ?_⟩
      rw [hl, append_assoc, take_append_drop]
      exact hb'.symm
    have hlt : (rest.take n).length < 2 ^ 64 := by
      have := congrArg List.length hb'
      rw [length_append] at this
      omega
    obtain ⟨s, hs, -⟩ := list_ok hlt rfl hp (ofBytes_room hp.length_le)
    rw [hl] at hs
    exact ⟨s, hs, append_cancel_left ((hr hs).symm.trans hb')⟩

end Stream

-- Both decoders accept the same values, and are left at the same place.
theorem split_iff_stream {b : Bytes} (hb : b.length < 2 ^ 63) :
    (∀ content rest, Raw.splitString b = .ok (content, rest) ↔
      ∃ s, Stream.bytes (.ofBytes b) = .ok content s ∧ s.r = rest) ∧
    (∀ n rest, Raw.splitUint64 b = .ok (n, rest) ↔
      ∃ s, Stream.uint 64 (.ofBytes b) = .ok n s ∧ s.r = rest) ∧
    (∀ size unread,
      (∃ content rest, Raw.splitList b = .ok (content, rest) ∧ content.length = size ∧
        content ++ rest = unread) ↔
      ∃ s, Stream.list (.ofBytes b) = .ok size s ∧ s.r = unread) := by
  refine ⟨fun c rest => ?_, fun n rest => ?_, fun n rest => ?_⟩
  case refine_1 => rw [Raw.splitString_eq_ok, Stream.ofBytes_bytes hb]
  case refine_2 => rw [Raw.splitUint64_eq_ok, Stream.ofBytes_uint hb]
  case refine_3 =>
    rw [Stream.ofBytes_list hb]
    constructor
    case mp =>
      rintro ⟨content, rest, h, rfl, rfl⟩
      rw [length_append]
      exact ⟨Nat.le_add_right .., (Raw.splitList_eq_ok.mp h).right⟩
    case mpr =>
      rintro ⟨hn, hb'⟩
      have hl : (rest.take n).length = n := length_take_of_le hn
      have hlt : n < 2 ^ 64 := by
        have := congrArg List.length hb'
        rw [length_append] at this
        omega
      refine ⟨rest.take n, rest.drop n, Raw.splitList_eq_ok.mpr ⟨hl.symm ▸ hlt, ?_⟩, hl,
        take_append_drop ..⟩
      rw [hl, take_append_drop]
      exact hb'

-- The content of a list is not read when the list is entered.
theorem splitList_rest_ne : ∃ s, Raw.splitList [0xC1, 0x01] = .ok ([0x01], []) ∧
    Stream.list (.ofBytes [0xC1, 0x01]) = .ok 1 s ∧ s.r ≠ [] :=
  ⟨_, by decide +kernel, rfl, by decide⟩

theorem split_iff_stream_sample :
    (∃ s, Stream.bytes (.ofBytes [0x82, 0x61, 0x62, 0x05]) = .ok [0x61, 0x62] s ∧ s.r = [0x05]) ∧
    ∃ s, Stream.list (.ofBytes [0xC1, 0x01, 0x05]) = .ok 1 s ∧ s.r = [0x01, 0x05] :=
  ⟨((split_iff_stream (by decide)).left _ _).mp (by decide +kernel),
    ((split_iff_stream (by decide)).right.right _ _).mp
      ⟨[0x01], [0x05], by decide +kernel, rfl, rfl⟩⟩

end Rlp
