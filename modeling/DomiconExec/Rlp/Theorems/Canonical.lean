import DomiconExec.Primitives.Loop
import DomiconExec.Rlp.Tree
import DomiconExec.Rlp.Theorems.RoundTrip

namespace Rlp

open List Bytes Program

-- Induction over trees, with one hypothesis for all elements of a list.
theorem Item.induct {P : Item → Prop} (str : ∀ b, P (.str b))
    (list : ∀ items, (∀ item ∈ items, P item) → P (.list items)) (item : Item) : P item :=
  have nil : ∀ item ∈ ([] : List Item), P item := fun _ h => absurd h List.not_mem_nil
  @Item.rec P (fun items => ∀ item ∈ items, P item) str list nil
    (fun _ _ hi hs => forall_mem_cons.mpr ⟨hi, hs⟩) item

theorem Item.encode_length_le {item : Item} {items : List Item} (h : item ∈ items) :
    item.encode.length ≤ (encodeAll items).length := by
  induction items
  case nil => contradiction
  case cons _ items hi =>
    rw [encodeAll, length_append]
    cases mem_cons.mp h
    case inl h => rw [h]; exact Nat.le_add_right ..
    case inr h => exact Nat.le_trans (hi h) (Nat.le_add_left ..)

section Write

variable {item : Item} {items : List Item}

theorem writeItems_eq (w : EncBuffer) :
    items.foldlM (fun w item => .ok (EncBuffer.writeItem item w)) w =
      (.ok (EncBuffer.writeItems items w) : Except EncodeError EncBuffer) := by
  induction items generalizing w
  case nil          => rw [EncBuffer.writeItems]; rfl
  case cons item items hi => rw [EncBuffer.writeItems, foldlM_cons]; exact hi _

theorem writeItem_puts (item : Item) :
    Puts (fun w => .ok (EncBuffer.writeItem item w)) item.encode := by
  induction item using Item.induct
  case str b =>
    rw [Item.encode]
    simp only [EncBuffer.writeItem]
    refine .raw fun h w => EncBuffer.writeBytes_eq ?_
    exact Nat.lt_of_le_of_lt Item.length_le_encodeStr h
  case list items hi =>
    have hp := Puts.foldlM (forall₂_same.mpr hi)
    simp only [writeItems_eq] at hp
    simp only [EncBuffer.writeItem]
    exact hp.list

theorem toBytes_eq (h : item.encode.length < 2 ^ 64) : item.toBytes = item.encode := by
  obtain ⟨o, ho, hw⟩ := writeItem_puts item h
  rw [Item.toBytes, Except.ok.inj (hw .empty), EncBuffer.makeBytes_put (ho ▸ h), ho]

end Write

namespace Stream

variable {s s' s₁ s₂ : Stream} {n m : Nat} {b : Bytes} {x : UInt8} {item : Item} {items : List Item}
variable {u : Unit}

-- There are calls that read the tree, and they consume exactly its representation.
def Readable (item : Item) : Prop :=
  ∀ s, s.kind = none → item.encode <+: s.r → s.Room item.encode.length →
    ∃ s', Reads item s s' ∧ s'.kind = none ∧ s.Moved item.encode.length s'

theorem readsAll_of_readable (h : ∀ item ∈ items, Readable item) (hk : s.kind = none)
    (hp : Item.encodeAll items <+: s.r) (hr : s.Room (Item.encodeAll items).length) :
    ∃ s', ReadsAll items s s' ∧ s'.kind = none ∧ s.Moved (Item.encodeAll items).length s' := by
  induction items generalizing s
  case nil => exact ⟨s, by rw [ReadsAll], hk, .refl⟩
  case cons item items hi =>
    obtain ⟨hitem, hitems⟩ := forall_mem_cons.mp h
    rw [Item.encodeAll, length_append] at hr ⊢
    rw [Item.encodeAll] at hp
    obtain ⟨l, hl⟩ := hp
    rw [append_assoc] at hl
    obtain ⟨s₁, h₁, hk₁, hm₁⟩ := hitem s hk ⟨_, hl⟩ (hr.mono (Nat.le_add_right ..))
    have hp₁ : Item.encodeAll items <+: s₁.r := ⟨l, by rw [hm₁.r, ← hl, drop_left]⟩
    obtain ⟨s₂, h₂, hk₂, hm₂⟩ := hi hitems hk₁ hp₁ (hm₁.room hr)
    exact ⟨s₂, by rw [ReadsAll]; exact ⟨s₁, h₁, h₂⟩, hk₂, hm₁.trans hm₂⟩

theorem readable (item : Item) (h : item.encode.length < 2 ^ 64) : Readable item := by
  induction item using Item.induct
  case str b =>
    intro s hk hp hr
    rw [Item.encode] at *
    simp only [Reads]
    exact bytes_consumes (Nat.lt_of_le_of_lt Item.length_le_encodeStr h) s hk hp hr
  case list items hi =>
    intro s hk hp hr
    rw [Item.encode, length_append] at h
    rw [Item.encode] at hp hr ⊢
    have hb : (Item.encodeAll items).length < 2 ^ 64 := by omega
    have hs := fun item hm => hi item hm (Nat.lt_of_le_of_lt (Item.encode_length_le hm) hb)
    obtain ⟨s₁, h₁, hk₁, hp₁, hr₁, -, he⟩ := list_ok hb hk hp hr
    obtain ⟨s₂, h₂, -, hm₂⟩ := readsAll_of_readable hs hk₁ hp₁ hr₁
    obtain ⟨s₃, h₃, hk₃, hm₃⟩ := he s₂ hm₂
    refine ⟨s₃, ?_, hk₃, hm₃⟩
    rw [Reads]
    exact ⟨_, s₁, s₂, h₁, h₂, h₃⟩

theorem ofBytes_reads (h : item.encode.length < 2 ^ 64) :
    ∃ s', Reads item (ofBytes item.encode) s' ∧ s'.r = [] := by
  have hr : (ofBytes item.encode).Room item.encode.length := by
    refine ⟨fun limit hl => ?_, fun _ => Nat.le_refl _⟩
    cases hl
  obtain ⟨s', hs, -, hm⟩ := readable item h (ofBytes item.encode) rfl (prefix_refl _) hr
  exact ⟨s', hs, hm.r.trans (drop_length)⟩

theorem of_willRead_ok (h : willRead n s = .ok u s') : s' = s.consume n ∧
    (∀ limit ∈ s.stack.head?, n ≤ limit) ∧ (s.limited → n ≤ s.remaining) := by
  rw [willRead_eq] at h
  split at h
  case isFalse => cases h
  case isTrue hl =>
    split at h
    case isFalse => cases h
    case isTrue hn =>
      cases h
      exact ⟨rfl, hl, hn⟩

theorem of_readByte_ok (h : readByte s = .ok x s') : ∃ u, willRead 1 s = .ok u (s.consume 1) ∧
    s.r = x :: s'.r ∧ s' = { s.consume 1 with r := s'.r } := by
  obtain ⟨u, s₁, hw, h⟩ := of_bind_ok h
  obtain ⟨rfl, -⟩ := of_willRead_ok hw
  refine ⟨u, hw, ?_⟩
  cases hr : s.r
  case nil => simp [consume, hr] at h
  case cons y r =>
    simp [consume, hr] at h
    obtain ⟨rfl, rfl⟩ := h
    exact ⟨rfl, rfl⟩

theorem of_readFull_ok (h : readFull n s = .ok b s') : ∃ u, willRead n s = .ok u (s.consume n) ∧
    s.r = b ++ s'.r ∧ b.length = n ∧ s' = { s.consume n with r := s'.r } := by
  obtain ⟨u, s₁, hw, h⟩ := of_bind_ok h
  obtain ⟨rfl, -⟩ := of_willRead_ok hw
  refine ⟨u, hw, ?_⟩
  by_cases hn : s.r.length < n
  case pos =>
    simp only [get_bind, set_bind, consume, hn, if_true, throw_bind] at h
    cases h
  case neg =>
    simp [consume, hn] at h
    obtain ⟨rfl, rfl⟩ := h
    exact ⟨(take_append_drop ..).symm, length_take_of_le (Nat.le_of_not_lt hn), rfl⟩

-- All sizes are machine words.
structure Bounded (s : Stream) : Prop where
  short : s.r.length < 2 ^ 63
  limits : ∀ limit ∈ s.stack, limit < 2 ^ 64

-- The input `b` was read. The limit of the innermost list may have wrapped around.
structure Took (s : Stream) (b : Bytes) (s' : Stream) : Prop where
  r : s.r = b ++ s'.r
  stack : s'.stack = s.stack.modifyHead (wrappingSub · b.length)
  bounded : s'.Bounded

theorem wrappingSub_lt : wrappingSub m n < 2 ^ 64 :=
  Nat.mod_lt _ (by decide)

theorem wrappingSub_add {l : Nat} (h : m + n < 2 ^ 64) :
    wrappingSub (wrappingSub l m) n = wrappingSub l (m + n) := by
  unfold wrappingSub
  omega

theorem limits_modifyHead {l : List Nat} (h : ∀ limit ∈ l, limit < 2 ^ 64) :
    ∀ limit ∈ l.modifyHead (wrappingSub · n), limit < 2 ^ 64 := by
  cases l
  case nil => simp only [modifyHead_nil, not_mem_nil, false_imp_iff, implies_true]
  case cons m l =>
    rw [modifyHead_cons]
    exact forall_mem_cons.mpr ⟨wrappingSub_lt, (forall_mem_cons.mp h).right⟩

theorem Took.length_lt (h : s.Took b s') (hs : s.Bounded) : b.length < 2 ^ 63 := by
  have hl := congrArg List.length h.r
  have hn := hs.short
  rw [length_append] at hl
  omega

theorem Took.trans {b' : Bytes} (hs : s.Bounded) (h₁ : s.Took b s₁) (h₂ : s₁.Took b' s₂) :
    s.Took (b ++ b') s₂ where
  r := by rw [h₁.r, h₂.r, append_assoc]
  stack := by
    have hl₁ := h₁.length_lt hs
    have hl₂ := h₂.length_lt h₁.bounded
    rw [h₂.stack, h₁.stack, length_append]
    cases s.stack
    case nil => simp only [modifyHead_nil]
    case cons limit stack =>
      have hl : b.length + b'.length < 2 ^ 64 := by omega
      simp only [modifyHead_cons, wrappingSub_add hl]
  bounded := h₂.bounded

theorem Took.congr {s'' : Stream} (h : s.Took b s') (hr : s''.r = s'.r)
    (hs : s''.stack = s'.stack) : s.Took b s'' where
  r := hr ▸ h.r
  stack := hs ▸ h.stack
  bounded := ⟨hr ▸ h.bounded.short, hs ▸ h.bounded.limits⟩

theorem took_of_willRead {r : Bytes} (hs : s.Bounded)
    (h : willRead b.length s = .ok u (s.consume b.length)) (hr : s.r = b ++ r) :
    s.Took b { s.consume b.length with r } := by
  obtain ⟨-, hl, -⟩ := of_willRead_ok h
  have hn := hs.short
  have hw : s.stack.modifyHead (· - b.length) = s.stack.modifyHead (wrappingSub · b.length) :=
    (modifyHead_wrappingSub fun limit h =>
      ⟨hl limit h, hs.limits limit (mem_of_mem_head? h)⟩).symm
  rw [hr, length_append] at hn
  have hl := limits_modifyHead (n := b.length) hs.limits
  rw [← hw] at hl
  exact ⟨hr, hw, Nat.lt_of_le_of_lt (Nat.le_add_left ..) hn, hl⟩

theorem took_of_readByte (hs : s.Bounded) (h : readByte s = .ok x s') :
    s.Took [x] s' ∧ s'.kind = none := by
  obtain ⟨u, hw, hr, he⟩ := of_readByte_ok h
  rw [he]
  exact ⟨took_of_willRead hs hw hr, rfl⟩

theorem took_of_readFull (hs : s.Bounded) (h : readFull n s = .ok b s') :
    s.Took b s' ∧ b.length = n ∧ s'.kind = none := by
  obtain ⟨u, hw, hr, hl, he⟩ := of_readFull_ok h
  subst hl
  rw [he]
  exact ⟨took_of_willRead hs hw hr, rfl, rfl⟩

-- A size is only accepted in its shortest representation.
theorem took_of_readUint (hs : s.Bounded) (hm : m ≠ 0) (hn : 0 < n) (h : readUint m s = .ok n s') :
    s.Took (bigEndian n) s' ∧ (bigEndian n).length = m ∧ s'.kind = none := by
  unfold readUint at h
  split at h
  case h_1 => contradiction
  case h_2 =>
    obtain ⟨x, s₁, hx, h⟩ := of_bind_ok h
    cases h
    rw [bigEndian_of_lt hn x.toNat_lt, UInt8.ofNat_toNat]
    obtain ⟨ht, hk⟩ := took_of_readByte hs hx
    exact ⟨ht, rfl, hk⟩
  case h_3 =>
    obtain ⟨b, s₁, hb, h⟩ := of_bind_ok h
    obtain ⟨ht, hl, hk⟩ := took_of_readFull hs hb
    by_cases hz : b.head? = some 0
    case pos =>
      rw [if_pos hz, throw_bind] at h
      cases h
    case neg =>
      rw [if_neg hz] at h
      cases h
      rw [bigEndian_toNat hz]
      exact ⟨ht, hl, hk⟩

theorem took_of_readSize (hs : s.Bounded) (hm : m ≠ 0) (h : readSize m s = .ok (n, none) s') :
    s.Took (bigEndian n) s' ∧ (bigEndian n).length = m ∧ 56 ≤ n := by
  obtain ⟨y, s₁, hy, h⟩ := of_bind_ok h
  cases y
  case error err => cases h
  case ok n' =>
    by_cases hn : n' < 56
    case pos => simp [hn] at h
    case neg =>
      simp [hn] at h
      obtain ⟨rfl, rfl⟩ := h
      obtain ⟨ht, hl, -⟩ := took_of_readUint hs hm (by omega) (of_attempt_ok hy)
      exact ⟨ht, hl, Nat.le_of_not_lt hn⟩

def tag (kind : Kind) (size : Nat) (byteval : UInt8) : Bytes :=
  match kind with
  | .byte   => [byteval]
  | .string => header 0x80 0xB7 size
  | .list   => header 0xC0 0xF7 size

theorem tag_eq {k : Kind} (hk : k ≠ .byte) (byteval : UInt8) :
    tag k n byteval = header k.smalltag k.largetag n := by
  cases k
  case byte => contradiction
  all_goals rfl

theorem took_of_readKind {k : Kind} (hs : s.Bounded) (h : readKind s = .ok (k, n, none) s') :
    s.Took (tag k n s'.byteval) s' ∧ n < 2 ^ 64 ∧ (k = .byte → s'.byteval < 0x80) := by
  rw [readKind_eq] at h
  cases hb : readByte s <;> rw [hb] at h
  case error => cases h
  case ok x s₁ =>
    have hx : s.Took [x] { s₁ with byteval := 0 } :=
      (took_of_readByte hs hb).left.congr rfl rfl
    have ht := isTag x
    dsimp only at h
    generalize tagOf x = t at h ht
    cases ht
    case single hlt =>
      cases h
      exact ⟨hx.congr rfl rfl, by decide, fun _ => hlt⟩
    case short hk hl ht =>
      cases h
      rw [tag_eq hk, header_of_lt hl, ← ht]
      exact ⟨hx, Nat.lt_trans hl (by decide), fun he => absurd he hk⟩
    case long hk hp hl ht =>
      obtain ⟨p, s₂, hr, h⟩ := of_bind_ok h
      cases h
      obtain ⟨hb, hn, h56⟩ := took_of_readSize hx.bounded (Nat.ne_of_gt hp) hr
      rw [tag_eq hk, header_of_le h56, hn, ← ht]
      exact ⟨hx.trans hs hb, bigEndian_length_le.mp (hn.trans_le hl), fun he => absurd he hk⟩

theorem took_of_getKind {k : Kind} (hs : s.Bounded) (hk : s.kind = none)
    (h : getKind s = .ok (k, n) s') :
    s.Took (tag k n s'.byteval) s' ∧ n < 2 ^ 64 ∧ (k = .byte → s'.byteval < 0x80) := by
  unfold getKind at h
  simp only [get_bind, hk] at h
  split at h
  case isTrue =>
    rw [throw_bind] at h
    cases h
  case isFalse =>
    obtain ⟨⟨k', n', err⟩, s₁, hr, h⟩ := of_bind_ok h
    simp only [get_bind, set_bind] at h
    cases he : err.or (s₁.checkSize s.listLimit n')
    case some =>
      rw [he] at h
      cases h
    case none =>
      rw [he] at h
      cases h
      rw [(Option.or_eq_none_iff.mp he).left] at hr
      obtain ⟨ht, hn, hb⟩ := took_of_readKind hs hr
      exact ⟨ht.congr rfl rfl, hn, hb⟩

theorem not_single_of_checkCanonSize (h : checkCanonSize b s = .ok u s') :
    ¬single b ∧ s' = s := by
  unfold checkCanonSize at h
  split at h
  case isTrue => cases h
  case isFalse hn =>
    cases h
    refine ⟨fun hb => hn ?_, rfl⟩
    by_cases hl : b.length = 1
    case pos =>
      obtain ⟨x, rfl⟩ := length_eq_one_iff.mp hl
      exact ⟨rfl, by simpa [single] using hb⟩
    case neg =>
      rw [single_eq_false hl] at hb
      cases hb

theorem took_of_bytes (hs : s.Bounded) (hk : s.kind = none) (h : bytes s = .ok b s') :
    s.Took (Item.encodeStr b) s' ∧ s'.kind = none := by
  obtain ⟨⟨k, n⟩, s₁, hg, h⟩ := of_bind_ok h
  obtain ⟨ht, -, hb⟩ := took_of_getKind hs hk hg
  cases k
  case byte =>
    cases h
    rw [Item.encodeStr, if_pos (by simpa [single] using hb rfl)]
    exact ⟨ht.congr rfl rfl, rfl⟩
  case string =>
    obtain ⟨b', s₂, hf, h⟩ := of_bind_ok h
    obtain ⟨u, s₃, hc, h⟩ := of_bind_ok h
    cases h
    obtain ⟨hn, rfl⟩ := not_single_of_checkCanonSize hc
    obtain ⟨ht', rfl, hk'⟩ := took_of_readFull ht.bounded hf
    rw [Item.encodeStr, if_neg hn]
    exact ⟨ht.trans hs ht', hk'⟩
  case list => cases h

-- A new list is entered. What the enclosing list has left may wrap around.
theorem of_list_ok (hs : s.Bounded) (hk : s.kind = none) (h : list s = .ok n s') :
    ∃ s₁, s.Took (header 0xC0 0xF7 n) s₁ ∧ n < 2 ^ 64 ∧ s'.r = s₁.r ∧
      s'.stack = n :: s₁.stack.modifyHead (wrappingSub · n) ∧ s'.Bounded ∧ s'.kind = none := by
  obtain ⟨⟨k, m⟩, s₁, hg, h⟩ := of_bind_ok h
  obtain ⟨ht, hm, -⟩ := took_of_getKind hs hk hg
  cases k
  case list =>
    cases h
    refine ⟨s₁, ht, hm, rfl, rfl, ⟨ht.bounded.short, ?_⟩, rfl⟩
    exact forall_mem_cons.mpr ⟨hm, limits_modifyHead ht.bounded.limits⟩
  all_goals cases h

theorem of_listEnd_ok (h : listEnd s = .ok u s') :
    s.stack = 0 :: s'.stack ∧ s'.r = s.r ∧ s'.kind = none := by
  unfold listEnd at h
  rw [get_bind] at h
  cases hst : s.stack
  case nil =>
    rw [hst] at h
    cases h
  case cons limit stack =>
    rw [hst] at h
    dsimp only at h
    split at h
    case isTrue =>
      rw [throw_bind] at h
      cases h
    case isFalse hl =>
      cases h
      exact ⟨by rw [Nat.eq_zero_of_not_pos hl], rfl, rfl⟩

-- The calls that read a tree take exactly its representation.
def TakesEncoding (item : Item) : Prop :=
  ∀ s s', s.Bounded → s.kind = none → Reads item s s' → s.Took item.encode s' ∧ s'.kind = none

theorem took_nil (hs : s.Bounded) : s.Took [] s where
  r := rfl
  stack := by
    cases hst : s.stack
    case nil => simp only [modifyHead_nil]
    case cons limit stack =>
      have hl := hs.limits limit (by rw [hst]; exact mem_cons_self)
      rw [modifyHead_cons, length_nil, wrappingSub_of_le (Nat.zero_le _) hl, Nat.sub_zero]
  bounded := hs

theorem took_of_readsAll (h : ∀ item ∈ items, TakesEncoding item) (hs : s.Bounded)
    (hk : s.kind = none) (hr : ReadsAll items s s') :
    s.Took (Item.encodeAll items) s' ∧ s'.kind = none := by
  induction items generalizing s
  case nil =>
    rw [ReadsAll] at hr
    rw [Item.encodeAll, hr]
    exact ⟨took_nil hs, hk⟩
  case cons item items hi =>
    obtain ⟨hitem, hitems⟩ := forall_mem_cons.mp h
    rw [ReadsAll] at hr
    obtain ⟨s₁, h₁, hr⟩ := hr
    obtain ⟨ht₁, hk₁⟩ := hitem s s₁ hs hk h₁
    obtain ⟨ht₂, hk₂⟩ := hi hitems ht₁.bounded hk₁ hr
    rw [Item.encodeAll]
    exact ⟨ht₁.trans hs ht₂, hk₂⟩

-- At the end of a list nothing of its size is left, so that the size was the length of the content.
theorem took_of_list (hs : s.Bounded) (hk : s.kind = none) (h₁ : list s = .ok n s₁)
    (ht : s₁.Took b s₂) (h₂ : listEnd s₂ = .ok u s') :
    s.Took (header 0xC0 0xF7 b.length ++ b) s' ∧ s'.kind = none := by
  obtain ⟨s₀, ht₀, hn, hr₁, hst₁, hs₁, -⟩ := of_list_ok hs hk h₁
  obtain ⟨hst₂, hr, hk'⟩ := of_listEnd_ok h₂
  have hl := ht.length_lt hs₁
  have hst := ht.stack
  rw [hst₁, hst₂, modifyHead_cons, List.cons.injEq] at hst
  have hz : n = b.length := by
    have hw := hst.left
    unfold wrappingSub at hw
    omega
  have hs' : s'.Bounded := by
    have hall := ht.bounded.limits
    rw [hst₂] at hall
    exact ⟨hr ▸ ht.bounded.short, (forall_mem_cons.mp hall).right⟩
  have ht' : s₀.Took b s' := ⟨by rw [← hr₁, ht.r, hr], hz ▸ hst.right, hs'⟩
  rw [← hz]
  exact ⟨ht₀.trans hs ht', hk'⟩

theorem takesEncoding (item : Item) : TakesEncoding item := by
  induction item using Item.induct
  case str b =>
    intro s s' hs hk h
    rw [Reads] at h
    rw [Item.encode]
    exact took_of_bytes hs hk h
  case list items hi =>
    intro s s' hs hk h
    rw [Reads] at h
    obtain ⟨n, s₁, s₂, h₁, h₂, h₃⟩ := h
    obtain ⟨-, -, -, -, -, hs₁, hk₁⟩ := of_list_ok hs hk h₁
    obtain ⟨ht₂, -⟩ := took_of_readsAll hi hs₁ hk₁ h₂
    rw [Item.encode]
    exact took_of_list hs hk h₁ ht₂ h₃

theorem ofBytes_bounded (h : b.length < 2 ^ 63) : (ofBytes b).Bounded where
  short := h
  limits _ hl := absurd hl List.not_mem_nil

theorem encode_of_reads (h : b.length < 2 ^ 63) (hr : Reads item (ofBytes b) s') (he : s'.r = []) :
    item.encode = b := by
  obtain ⟨ht, -⟩ := takesEncoding item _ _ (ofBytes_bounded h) rfl hr
  have hb := ht.r
  rw [he, append_nil] at hb
  exact hb.symm

theorem kind_of_bytes (h : bytes s = .ok b s') : s'.kind = none := by
  obtain ⟨⟨k, n⟩, s₁, -, h⟩ := of_bind_ok h
  cases k
  case byte =>
    cases h
    rfl
  case string =>
    obtain ⟨b', s₂, hf, h⟩ := of_bind_ok h
    obtain ⟨u, s₃, hc, h⟩ := of_bind_ok h
    cases h
    obtain ⟨-, rfl⟩ := not_single_of_checkCanonSize hc
    obtain ⟨-, -, -, -, he⟩ := of_readFull_ok hf
    rw [he]
    rfl
  case list => cases h

theorem kind_of_reads (h : Reads item s s') : s'.kind = none := by
  cases item
  case str b =>
    rw [Reads] at h
    exact kind_of_bytes h
  case list items =>
    rw [Reads] at h
    obtain ⟨_, _, _, -, -, h⟩ := h
    obtain ⟨-, -, hk⟩ := of_listEnd_ok h
    exact hk

theorem kind_of_list (h : list s = .ok n s') : s'.kind = none := by
  obtain ⟨⟨k, m⟩, s₁, -, h⟩ := of_bind_ok h
  cases k
  case list =>
    cases h
    rfl
  all_goals cases h

theorem not_bytes_and_list (hb : bytes s = .ok b s₁) (hl : list s = .ok n s₂) : False := by
  obtain ⟨⟨k, m⟩, t, hg, hb⟩ := of_bind_ok hb
  obtain ⟨⟨k', m'⟩, t', hg', hl⟩ := of_bind_ok hl
  cases hg.symm.trans hg'
  cases k
  case list => cases hb
  all_goals cases hl

theorem not_reads_and_listEnd (hk : s.kind = none) (hr : Reads item s s₁)
    (he : listEnd s = .ok u s₂) : False := by
  have hl : s.listLimit = some 0 := by
    rw [listLimit, (of_listEnd_ok he).left]
    rfl
  have hg := getKind_eol hk hl
  cases item
  case str b =>
    rw [Reads] at hr
    obtain ⟨_, _, hg', -⟩ := of_bind_ok hr
    cases hg.symm.trans hg'
  case list items =>
    rw [Reads] at hr
    obtain ⟨_, _, _, hr, -⟩ := hr
    obtain ⟨_, _, hg', -⟩ := of_bind_ok hr
    cases hg.symm.trans hg'

-- No other tree can be read.
def ReadsOnly (item : Item) : Prop :=
  ∀ item' s s₁ s₂, Reads item s s₁ → Reads item' s s₂ → item' = item ∧ s₂ = s₁

theorem readsAll_unique {items' : List Item} {u' : Unit} {t t' : Stream}
    (h : ∀ item ∈ items, ReadsOnly item) (hk : s.kind = none) (h₁ : ReadsAll items s s₁)
    (h₂ : ReadsAll items' s s₂) (he₁ : listEnd s₁ = .ok u t) (he₂ : listEnd s₂ = .ok u' t') :
    items' = items ∧ s₂ = s₁ := by
  induction items generalizing s items'
  case nil =>
    rw [ReadsAll] at h₁
    cases items'
    case nil =>
      rw [ReadsAll] at h₂
      exact ⟨rfl, h₂.trans h₁.symm⟩
    case cons item' items' =>
      rw [ReadsAll] at h₂
      obtain ⟨s₀, hr, -⟩ := h₂
      exact (not_reads_and_listEnd hk hr (h₁ ▸ he₁)).elim
  case cons item items hi =>
    obtain ⟨hitem, hitems⟩ := forall_mem_cons.mp h
    rw [ReadsAll] at h₁
    obtain ⟨s₀, hr, h₁⟩ := h₁
    cases items'
    case nil =>
      rw [ReadsAll] at h₂
      exact (not_reads_and_listEnd hk hr (h₂ ▸ he₂)).elim
    case cons item' items' =>
      rw [ReadsAll] at h₂
      obtain ⟨s₀', hr', h₂⟩ := h₂
      obtain ⟨rfl, rfl⟩ := hitem item' s s₀ s₀' hr hr'
      obtain ⟨rfl, rfl⟩ := hi hitems (kind_of_reads hr) h₁ h₂
      exact ⟨rfl, rfl⟩

theorem readsOnly (item : Item) : ReadsOnly item := by
  induction item using Item.induct
  case str b =>
    intro item' s s₁ s₂ h₁ h₂
    rw [Reads] at h₁
    cases item'
    case str b' =>
      rw [Reads] at h₂
      cases h₁.symm.trans h₂
      exact ⟨rfl, rfl⟩
    case list items' =>
      rw [Reads] at h₂
      obtain ⟨_, _, _, hl, -⟩ := h₂
      exact (not_bytes_and_list h₁ hl).elim
  case list items hi =>
    intro item' s s₁ s₂ h₁ h₂
    rw [Reads] at h₁
    obtain ⟨n, t, t', hl, hr, he⟩ := h₁
    cases item'
    case str b' =>
      rw [Reads] at h₂
      exact (not_bytes_and_list h₂ hl).elim
    case list items' =>
      rw [Reads] at h₂
      obtain ⟨n', u, u', hl', hr', he'⟩ := h₂
      cases hl.symm.trans hl'
      obtain ⟨rfl, rfl⟩ := readsAll_unique hi (kind_of_list hl) hr hr' he he'
      cases he.symm.trans he'
      exact ⟨rfl, rfl⟩
end Stream

-- What is written is read back, as the same tree and no other, and what is read is written back.
theorem canonical :
    (∀ item : Item, item.encode.length < 2 ^ 63 →
      (∃ s, Stream.Reads item (.ofBytes item.toBytes) s ∧ s.r = []) ∧
      ∀ item' s, Stream.Reads item' (.ofBytes item.toBytes) s → item' = item) ∧
    ∀ (b : Bytes) (item : Item) (s : Stream), b.length < 2 ^ 63 →
      Stream.Reads item (.ofBytes b) s → s.r = [] → item.toBytes = b := by
  have hw (item : Item) (h : item.encode.length < 2 ^ 63) : item.toBytes = item.encode :=
    toBytes_eq (Nat.lt_trans h (by decide))
  refine ⟨fun item h => ?_, fun b item s hb hr he => ?_⟩
  case refine_1 =>
    obtain ⟨s, hs, he⟩ := Stream.ofBytes_reads (Nat.lt_trans h (by decide))
    rw [hw item h]
    exact ⟨⟨s, hs, he⟩, fun item' s' h' => (Stream.readsOnly item item' _ _ _ hs h').left⟩
  case refine_2 =>
    have hi := Stream.encode_of_reads hb hr he
    rw [hw item (hi ▸ hb), hi]

theorem canonical_sample :
    (∃ s, Stream.Reads (.list [.str [1], .list []]) (.ofBytes [0xc2, 1, 0xc0]) s ∧ s.r = []) ∧
    (Item.list [.str [1], .list []]).toBytes = [0xc2, 1, 0xc0] := by
  obtain ⟨s, hs, hr⟩ := (canonical.left (.list [.str [1], .list []]) (by decide)).left
  have hb : (Item.list [.str [1], .list []]).toBytes = [0xc2, 1, 0xc0] := by decide +kernel
  rw [hb] at hs
  exact ⟨⟨s, hs, hr⟩, canonical.right _ _ s (by decide) hs hr⟩

end Rlp
